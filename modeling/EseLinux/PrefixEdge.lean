import EseLinux.PrefixSelect

/-!
How the best prefix of a page changes when the page gains or loses its first or its last line.  A
line that can have no part in the prefix leaves it as it is.
-/

namespace EseLinux.PrefixSelect

open FirstMax List

variable {k : Nat}

section AtEnd

variable {c : Lines} {n : Nat}

theorem rightEnd_le (n i : Nat) : i ≤ rightEnd c n i ∧ rightEnd c n i ≤ i + n := by
  induction n generalizing i with
  | zero => exact ⟨le_rfl, le_rfl⟩
  | succ n ih =>
    rw [rightEnd]
    split
    · have hnext := ih (i + 1)
      omega
    · omega

theorem right_of_lt (n i m : Nat) (h : rightEnd c (n + 1) i < i + n + 1) :
    rightEnd c n i = rightEnd c (n + 1) i ∧ rightSum c n i m = rightSum c (n + 1) i m := by
  induction n generalizing i m with
  | zero =>
    rw [rightEnd] at h ⊢
    rw [rightSum, rightSum]
    split at h
    · exact absurd h (lt_irrefl _)
    case isFalse hzero => rw [if_neg hzero, if_neg hzero]; exact ⟨rfl, rfl⟩
  | succ n ih =>
    rw [rightEnd] at h ⊢
    rw [rightEnd, rightSum, rightSum]
    split at h
    case isTrue hpos =>
      rw [if_pos hpos, if_pos hpos, if_pos hpos, if_pos hpos]
      obtain ⟨hend, hsum⟩ := ih (i + 1) (min m (c i)) (by omega)
      exact ⟨hend, by rw [hsum]⟩
    case isFalse hzero =>
      rw [if_neg hzero, if_neg hzero, if_neg hzero, if_neg hzero]; exact ⟨rfl, rfl⟩

theorem rightSum_le_succ (n i m : Nat) : rightSum c n i m ≤ rightSum c (n + 1) i m := by
  induction n generalizing i m with
  | zero => exact Nat.zero_le _
  | succ n ih =>
    rw [rightSum, rightSum]
    split
    · exact Nat.add_le_add_left (ih _ _) _
    · exact Nat.le_refl _

variable {i : Nat}

theorem savings_le_succ (hi : i < n) : savings c n i ≤ savings c (n + 1) i := by
  have hn : n + 1 - (i + 1) = n - (i + 1) + 1 := by omega
  have hright := rightSum_le_succ (c := c) (n - (i + 1)) (i + 1) (c (i + 1))
  rw [savings, savings, hn]
  omega

theorem savings_succ_eq (hi : i < n) (hstop : segStop c (n + 1) i ≤ n) :
    savings c n i = savings c (n + 1) i ∧ segStop c n i = segStop c (n + 1) i := by
  have hn : n + 1 - (i + 1) = n - (i + 1) + 1 := by omega
  rw [segStop, hn] at hstop
  obtain ⟨hend, hsum⟩ := right_of_lt (c := c) (n - (i + 1)) (i + 1) (c (i + 1)) (by omega)
  rw [savings, savings, segStop, segStop, hn, hend, hsum]
  exact ⟨rfl, rfl⟩

theorem savings_cut (hk : k ≤ n) (hi : i < k) (hstop : segStop c n i ≤ k) :
    savings c k i = savings c n i ∧ segment c k i = segment c n i := by
  induction n with
  | zero => omega
  | succ n ih =>
    by_cases heq : k = n + 1
    · rw [heq]
      exact ⟨rfl, rfl⟩
    · obtain ⟨hsavings, hsame⟩ := savings_succ_eq (c := c) (n := n) (i := i) (by omega) (by omega)
      obtain ⟨hsavings', hsegment⟩ := ih (by omega) (by omega)
      rw [hsavings', hsegment, hsavings, segment, segment, hsame]
      exact ⟨rfl, rfl⟩

theorem rightEnd_le_of_zero {j : Nat} (hzero : c j = 0) (hij : i ≤ j) (hj : j < i + n) :
    rightEnd c n i ≤ j := by
  induction n generalizing i with
  | zero => omega
  | succ n ih =>
    rw [rightEnd]
    split
    case isTrue hpos =>
      have hne : i ≠ j := by
        rintro rfl
        omega
      exact ih (by omega) (by omega)
    · exact hij

theorem summary_best_cut (hk : k ≤ n) (hzero : k = n ∨ c k = 0) (hrest : ∀ i, k ≤ i → i < n →
      savings c n i ≤ value (savings c n) (first (savings c n) (range k))) :
    (best c n).summary = (best c k).summary := by
  have hstop (i : Nat) (hi : i < k) : segStop c n i ≤ k := by
    have hle := rightEnd_le (c := c) (n - (i + 1)) (i + 1)
    rw [segStop]
    rcases hzero with heq | hzero
    · omega
    · by_cases heq : k = n
      · omega
      · exact rightEnd_le_of_zero hzero hi (by omega)
  have hrange : range n = range k ++ (range (n - k)).map (k + ·) := by
    rw [← range_add, Nat.add_sub_cancel' hk]
  have hfirst : first (savings c n) (range n) = first (savings c k) (range k) := by
    rw [hrange, first_append_of_le]
    · exact first_congr fun i hi =>
        (savings_cut hk (mem_range.mp hi) (hstop i (mem_range.mp hi))).1.symm
    · intro i hi
      obtain ⟨j, hj, rfl⟩ := mem_map.mp hi
      have hlt := mem_range.mp hj
      exact hrest _ (by omega) (by omega)
  rw [best, best, hfirst]
  cases hcase : first (savings c k) (range k) with
  | none => rfl
  | some i =>
    have hi := mem_range.mp (pos_of_first_eq_some hcase).1
    obtain ⟨hsavings, hsegment⟩ := savings_cut hk hi (hstop i hi)
    rw [infoOf, infoOf, PrefixInfo.summary, PrefixInfo.summary, hsavings, hsegment]

theorem summary_best_succ (hzero : n = 0 ∨ c n = 0) :
    (best c (n + 1)).summary = (best c n).summary := by
  have hlast : savings c (n + 1) n ≤ 0 := by
    have hleft : leftSum c n (c n) = 0 := by
      cases n with
      | zero => rfl
      | succ n => rw [leftSum, if_neg (by omega)]
    rw [savings, hleft, Nat.sub_self, rightSum]
    decide
  by_cases hn : c n = 0
  · apply summary_best_cut (Nat.le_succ n) (.inr hn)
    intro i hni hin
    obtain rfl : i = n := by omega
    exact le_trans hlast (value_first_nonneg _)
  · obtain rfl : n = 0 := by omega
    rfl

theorem summary_best_of_segEnd_ne (h : (best c (n + 1)).ilineSegEnd ≠ n) :
    (best c n).summary = (best c (n + 1)).summary := by
  rw [best] at h
  rw [best, best]
  cases hfirst : first (savings c (n + 1)) (range (n + 1)) with
  | none =>
    have hnone : first (savings c n) (range n) = none := by
      rw [first_eq_none_iff] at hfirst ⊢
      intro i hi
      have hlt := mem_range.mp hi
      exact le_trans (savings_le_succ hlt) (hfirst i (mem_range.mpr (by omega)))
    rw [hnone]
    rfl
  | some i =>
    rw [hfirst] at h
    have hisFirst := isFirst_of_first_eq_some pairwise_lt_range hfirst
    have hi := mem_range.mp hisFirst.mem
    have hne : segStop c (n + 1) i - 1 ≠ n := h
    have hle := rightEnd_le (c := c) (n + 1 - (i + 1)) (i + 1)
    have hlt : i < n := by
      rw [segStop] at hne
      omega
    have hstop : segStop c (n + 1) i ≤ n := by
      rw [segStop] at hne ⊢
      omega
    obtain ⟨hsavings, hsegment⟩ := savings_cut (Nat.le_succ n) hlt hstop
    have hfirst' : first (savings c n) (range n) = some i :=
      first_of_le strictMono_id pairwise_lt_range
        (fun j hj => mem_range.mpr (Nat.lt_succ_of_lt (mem_range.mp hj)))
        (fun j hj => savings_le_succ (mem_range.mp hj)) hisFirst (mem_range.mpr hlt) hsavings
    rw [hfirst', infoOf, infoOf, PrefixInfo.summary, PrefixInfo.summary, hsavings, hsegment]

end AtEnd

def PrefixInfo.next (p : PrefixInfo) : PrefixInfo :=
  ⟨p.ilinePrefix + 1, p.cbSavings, p.ilineSegBegin + 1, p.ilineSegEnd + 1⟩

def behind (c : Lines) : Lines := fun i => c (i + 1)

section AtStart

variable {c : Lines} {n i : Nat}

theorem rightEnd_behind (n i : Nat) : rightEnd (behind c) n i + 1 = rightEnd c n (i + 1) := by
  induction n generalizing i with
  | zero => rfl
  | succ n ih =>
    rw [rightEnd, rightEnd, behind]
    split
    · exact ih (i + 1)
    · rfl

theorem rightSum_behind (n i m : Nat) : rightSum (behind c) n i m = rightSum c n (i + 1) m := by
  induction n generalizing i m with
  | zero => rfl
  | succ n ih => rw [rightSum, rightSum, behind, ih]

theorem segBegin_behind (i : Nat) : segBegin (behind c) i = segBegin c (i + 1) - 1 := by
  induction i with
  | zero =>
    rw [segBegin, segBegin]
    split <;> rfl
  | succ i ih =>
    rw [segBegin, segBegin, behind, ih]
    split <;> rfl

theorem leftSum_behind_le (i m : Nat) : leftSum (behind c) i m ≤ leftSum c (i + 1) m := by
  induction i generalizing m with
  | zero => exact Nat.zero_le _
  | succ i ih =>
    rw [leftSum, leftSum, behind]
    split
    · exact Nat.add_le_add_left (ih _) _
    · exact Nat.le_refl _

theorem leftSum_behind (i m : Nat) (h : segBegin c (i + 1) ≠ 0) :
    leftSum (behind c) i m = leftSum c (i + 1) m := by
  induction i generalizing m with
  | zero =>
    rw [segBegin] at h
    rw [leftSum, leftSum]
    split at h
    · exact absurd rfl h
    case isFalse hzero => rw [if_neg hzero]
  | succ i ih =>
    rw [segBegin] at h
    rw [leftSum, leftSum, behind]
    split
    case isTrue hpos =>
      rw [if_pos hpos] at h
      rw [ih _ h]
    · rfl

theorem savings_behind_le (n i : Nat) : savings (behind c) n i ≤ savings c (n + 1) (i + 1) := by
  have hn : n + 1 - (i + 1 + 1) = n - (i + 1) := by omega
  have hleft := leftSum_behind_le (c := c) i (c (i + 1))
  rw [savings, savings, rightSum_behind, hn, behind, behind]
  omega

theorem savings_behind (n : Nat) (h : segBegin c (i + 1) ≠ 0) :
    savings (behind c) n i = savings c (n + 1) (i + 1) := by
  have hn : n + 1 - (i + 1 + 1) = n - (i + 1) := by omega
  rw [savings, savings, rightSum_behind, hn, behind, behind, leftSum_behind i _ h]

theorem segment_behind (n i : Nat) :
    segment (behind c) n i =
      ((segment c (n + 1) (i + 1)).1 - 1, (segment c (n + 1) (i + 1)).2 - 1) := by
  have hn : n + 1 - (i + 1 + 1) = n - (i + 1) := by omega
  have hstop := rightEnd_behind (c := c) (n - (i + 1)) (i + 1)
  simp only [segment, segStop, segBegin_behind, hn]
  rw [← hstop, Nat.add_sub_cancel]

theorem summary_best_behind (h : (best c (n + 1)).ilineSegBegin ≠ 0) :
    (best (behind c) n).summary = ((best c (n + 1)).cbSavings, (best c (n + 1)).ilineSegBegin - 1,
        (best c (n + 1)).ilineSegEnd - 1) := by
  rw [best] at h
  rw [best, best]
  cases hfirst : first (savings c (n + 1)) (range (n + 1)) with
  | none =>
    rw [hfirst] at h
    exact absurd rfl h
  | some i =>
    rw [hfirst] at h
    have hbegin : segBegin c i ≠ 0 := h
    have hisFirst := isFirst_of_first_eq_some pairwise_lt_range hfirst
    have hi := mem_range.mp hisFirst.mem
    obtain ⟨i, rfl⟩ : ∃ j, i = j + 1 := by
      have hle := segBegin_le (c := c) i
      exact ⟨i - 1, by omega⟩
    have hsavings := savings_behind n hbegin
    have hfirst' : first (savings (behind c) n) (range n) = some i :=
      first_of_le (f := (· + 1)) (fun _ _ => Nat.succ_lt_succ) pairwise_lt_range
        (fun j hj => mem_range.mpr (Nat.succ_lt_succ (mem_range.mp hj)))
        (fun j _ => savings_behind_le n j) hisFirst (mem_range.mpr (by omega)) hsavings
    rw [hfirst', infoOf, infoOf, PrefixInfo.summary, hsavings, segment_behind]

theorem le_segBegin (hzero : c k = 0) (hk : 0 < k) (hki : k ≤ i) : k ≤ segBegin c i := by
  induction i with
  | zero => omega
  | succ i ih =>
    rw [segBegin]
    split
    case isTrue hpos =>
      have hne : k ≠ i + 1 := by
        rintro rfl
        omega
      exact ih (by omega)
    · exact hki

theorem first_cons (hzero : n = 0 ∨ c 1 = 0) :
    first (savings c (n + 1)) (range (n + 1)) =
      (first (savings (behind c) n) (range n)).map (· + 1) := by
  have hhead : savings c (n + 1) 0 ≤ 0 := by
    have hright : rightSum c n 1 (c 1) = 0 := by
      cases n with
      | zero => rfl
      | succ n => rw [rightSum, if_neg (by omega)]
    rw [savings, Nat.zero_add, Nat.add_sub_cancel, hright, leftSum]
    decide
  have htail (j : Nat) (hj : j < n) : savings (behind c) n j = savings c (n + 1) (j + 1) := by
    apply savings_behind
    have hle := le_segBegin (c := c) (k := 1) (i := j + 1) (by omega) (by decide) (by omega)
    omega
  rw [range_succ_eq_map, first_cons_of_le hhead, first_map]
  exact congrArg _ (first_congr fun j hj => (htail j (mem_range.mp hj)).symm)

theorem summary_best_cons (hzero : n = 0 ∨ c 1 = 0) :
    (best c (n + 1)).summary = if (best (behind c) n).fNull then PrefixInfo.null.summary
      else (best (behind c) n).next.summary := by
  rw [best, best, first_cons hzero]
  cases hfirst : first (savings (behind c) n) (range n) with
  | none => rfl
  | some i =>
    have hi := mem_range.mp (pos_of_first_eq_some hfirst).1
    have hle := le_segBegin (c := c) (k := 1) (i := i + 1) (by omega) (by decide) (by omega)
    have hbegin : segBegin c (i + 1) - 1 + 1 = segBegin c (i + 1) := by omega
    have hbeginNe : segBegin c (i + 1) ≠ 0 := by omega
    have hstop := (rightEnd_le (c := behind c) (n - (i + 1)) (i + 1)).1
    have hstopEq := rightEnd_behind (c := c) (n - (i + 1)) (i + 1)
    have hn : n + 1 - (i + 1 + 1) = n - (i + 1) := by omega
    have hnull : (infoOf (behind c) n (some i)).fNull = false := by
      simp only [infoOf, PrefixInfo.fNull, ilineInvalid]
      exact decide_eq_false (by omega)
    rw [hnull, Option.map_some, if_neg (by decide)]
    simp only [infoOf, PrefixInfo.summary, PrefixInfo.next, segment, segStop, hn]
    rw [savings_behind n hbeginNe, segBegin_behind, hbegin, ← hstopEq, Nat.add_sub_cancel,
      Nat.sub_add_cancel (by omega)]

theorem rightEnd_stops (n i : Nat) : rightEnd c n i = i + n ∨ c (rightEnd c n i) = 0 := by
  induction n generalizing i with
  | zero => exact .inl rfl
  | succ n ih =>
    rw [rightEnd]
    split
    · rcases ih (i + 1) with hend | hzero
      · exact .inl (by omega)
      · exact .inr hzero
    case isFalse hzero => exact .inr (by omega)

theorem fNull_best_iff :
    (best c n).fNull = true ↔ first (savings c n) (range n) = none := by
  rw [best]
  cases first (savings c n) (range n) with
  | none => exact iff_of_true rfl rfl
  | some i =>
    refine iff_of_false (fun hnull => ?_) (by simp)
    have heq : (i : Int) = -1 := of_decide_eq_true hnull
    omega

theorem savings_of_segment_end (hk : 0 < k) (hzero : k = n + 1 ∨ c k = 0) (hki : k ≤ i)
    (hi : i < n + 1) : savings c (n + 1) i = savings (behind c) n (i - 1) := by
  obtain ⟨i, rfl⟩ : ∃ j, i = j + 1 := ⟨i - 1, by omega⟩
  have hle : k ≤ segBegin c (i + 1) := le_segBegin (by omega) hk hki
  have hbegin : segBegin c (i + 1) ≠ 0 := by omega
  rw [Nat.add_sub_cancel, savings_behind n hbegin]

theorem summary_best_of_null (hnull : (best (behind c) n).fNull = true) :
    (best c (n + 1)).summary = (best c (rightEnd c n 1)).summary := by
  have hnone := fNull_best_iff.mp hnull
  rw [first_eq_none_iff] at hnone
  have hle := rightEnd_le (c := c) n 1
  have hstops : rightEnd c n 1 = n + 1 ∨ c (rightEnd c n 1) = 0 := by
    have hstops := rightEnd_stops (c := c) n 1
    omega
  apply summary_best_cut (by omega) hstops
  intro i hki hi
  rw [savings_of_segment_end hle.1 hstops hki hi]
  exact le_trans (hnone _ (mem_range.mpr (by omega))) (value_first_nonneg _)

theorem summary_best_of_not_null (hnull : (best (behind c) n).fNull = false) :
    (best c (n + 1)).summary = (best c ((best (behind c) n).ilineSegEnd + 1 + 1)).summary := by
  obtain ⟨i, hfirst⟩ : ∃ i, first (savings (behind c) n) (range n) = some i := by
    apply Option.ne_none_iff_exists'.mp
    intro hnone
    rw [fNull_best_iff.mpr hnone] at hnull
    exact absurd hnull (by decide)
  have hisFirst := isFirst_of_first_eq_some pairwise_lt_range hfirst
  have hi := mem_range.mp hisFirst.mem
  have hle := rightEnd_le (c := c) (n - (i + 1)) (i + 2)
  have hend : (best (behind c) n).ilineSegEnd + 1 + 1 = rightEnd c (n - (i + 1)) (i + 2) := by
    have hbehind : rightEnd (behind c) (n - (i + 1)) (i + 1) + 1 =
        rightEnd c (n - (i + 1)) (i + 2) := rightEnd_behind (n - (i + 1)) (i + 1)
    have hsame :
        (best (behind c) n).ilineSegEnd = rightEnd (behind c) (n - (i + 1)) (i + 1) - 1 := by
      rw [best, hfirst]
      rfl
    omega
  have hstops :
      rightEnd c (n - (i + 1)) (i + 2) = n + 1 ∨ c (rightEnd c (n - (i + 1)) (i + 2)) = 0 := by
    have hstops := rightEnd_stops (c := c) (n - (i + 1)) (i + 2)
    omega
  rw [hend]
  apply summary_best_cut (by omega) hstops
  intro j hkj hj
  rw [savings_of_segment_end (by omega) hstops hkj hj]
  -- the prefix the page had is still before the cut, and saves no less than it did
  calc savings (behind c) n (j - 1)
      ≤ savings (behind c) n i := hisFirst.le _ (mem_range.mpr (by omega))
    _ ≤ savings c (n + 1) (i + 1) := savings_behind_le n i
    _ ≤ value (savings c (n + 1)) (first (savings c (n + 1)) (range _)) :=
        le_value_first (mem_range.mpr (by omega))

end AtStart

end EseLinux.PrefixSelect
