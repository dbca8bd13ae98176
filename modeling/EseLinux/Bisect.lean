import Mathlib.Order.Compare
import Mathlib.Data.Int.Order.Basic

/-!
Bisection for the first index whose comparison is not negative.  The upper end of the range stays
inside it when it is probed, and the search ends early at a comparison that is zero.  The last
index of the whole range stands for everything beyond the others, so nothing is asked of its
comparison.
-/

namespace EseLinux.Bisect

/-- Where a search stopped: the index it found, the last index it probed and what the comparison
there was. -/
structure Stop where
  found : Option Nat
  mid : Nat
  cmp : Int
deriving DecidableEq, Repr

def bisect (probe : Nat → Option Int) : Nat → Nat → Nat → Stop → Option Stop
  | 0, _, _, _ => none
  | fuel + 1, first, last, stop =>
    if first ≤ last then
      let mid := (first + last) / 2
      (probe mid).bind fun cmp =>
        if cmp < 0 then bisect probe fuel (mid + 1) last ⟨none, mid, cmp⟩
        else if cmp = 0 then some ⟨some mid, mid, cmp⟩
        -- the upper end moves to the middle
        else if mid = first then some ⟨some mid, mid, cmp⟩
        else bisect probe fuel first mid ⟨none, mid, cmp⟩
    else some stop

/-- The search over `n` indices; without any there is nothing to probe. -/
def search (probe : Nat → Option Int) (n : Nat) : Option Stop :=
  if n = 0 then some ⟨none, 0, 0⟩ else bisect probe (n + 1) 0 (n - 1) ⟨none, 0, 0⟩

/-- The index `k` parts `0 .. last` into those before it, whose comparison is negative, and those
after it, whose comparison is positive; of `last` itself nothing is known. -/
structure Parts (c : Nat → Int) (last k : Nat) : Prop where
  le_last : k ≤ last
  before : ∀ i < k, c i < 0
  at_least : k < last → 0 ≤ c k
  after : ∀ i, k < i → i < last → 0 < c i

variable {c : Nat → Int} {last : Nat}

theorem exists_parts
    (hmono : ∀ i j, i < j → j < last → 0 ≤ c i → 0 < c j) : ∃ k, Parts c last k := by
  induction last with
  | zero => exact ⟨0, Nat.le_refl _, by simp, by simp, by omega⟩
  | succ last ih =>
    obtain ⟨k, hk⟩ := ih fun i j hij hj => hmono i j hij (by omega)
    -- the index before the new last one is now compared too
    by_cases hlast : k = last ∧ c k < 0
    · obtain ⟨rfl, hneg⟩ := hlast
      refine ⟨k + 1, Nat.le_refl _, ?_, by omega, by omega⟩
      intro i hi
      rcases Nat.lt_succ_iff_lt_or_eq.mp hi with hlt | rfl
      · exact hk.before i hlt
      · exact hneg
    · have hge : 0 ≤ c k := by
        rcases Nat.lt_or_ge k last with hlt | hge
        · exact hk.at_least hlt
        · exact Int.not_lt.mp fun hneg => hlast ⟨Nat.le_antisymm hk.le_last hge, hneg⟩
      refine ⟨k, Nat.le_succ_of_le hk.le_last, hk.before, fun _ => hge, ?_⟩
      intro i hi hi'
      exact hmono k i hi (by omega) hge

variable {probe : Nat → Option Int} {k : Nat}

theorem bisect_eq {top : Nat}
    (hprobe : ∀ i ≤ top, probe i = some (c i)) (hk : Parts c top k) (fuel : Nat)
    {first : Nat} (stop : Stop) (hfirst : first ≤ k) (hkl : k ≤ last) (hlast : last ≤ top)
    (hupper : last = top ∨ 0 < c last) (hfuel : last + 2 ≤ first + fuel) :
    bisect probe fuel first last stop = some ⟨if c k < 0 then none else some k, k, c k⟩ := by
  induction fuel generalizing first last stop with
  | zero => omega
  | succ fuel ih =>
    have hle : first ≤ last := Nat.le_trans hfirst hkl
    generalize hmid : (first + last) / 2 = mid
    have hlow : first ≤ mid := by omega
    have hhigh : mid ≤ last := by omega
    rw [bisect, if_pos hle]
    simp only [hmid, hprobe mid (Nat.le_trans hhigh hlast), Option.bind_some]
    rcases Nat.lt_trichotomy mid k with hlt | rfl | hgt
    · rw [if_pos (hk.before mid hlt)]
      exact ih _ hlt hkl hlast hupper (by omega)
    · by_cases hneg : c mid < 0
      · -- only the last index of all can be reached and be less
        have htop : mid = top := by
          by_contra hne
          exact absurd (hk.at_least (by omega)) (Int.not_le.mpr hneg)
        obtain ⟨fuel, rfl⟩ := Nat.exists_eq_succ_of_ne_zero (show fuel ≠ 0 by omega)
        rw [if_pos hneg, if_pos hneg, bisect, if_neg (by omega)]
      · rw [if_neg hneg, if_neg hneg]
        split
        · rfl
        · split
          · rfl
          case isFalse hzero hne =>
            rw [ih _ hlow (Nat.le_refl _) (Nat.le_trans hhigh hlast) (Or.inr (by omega))
              (by omega), if_neg hneg]
    · have hpos : 0 < c mid := hk.after mid hgt (by omega)
      rw [if_neg (by omega), if_neg (by omega), if_neg (by omega)]
      exact ih _ hfirst (Nat.le_of_lt hgt) (Nat.le_trans hhigh hlast) (Or.inr hpos) (by omega)

variable {n : Nat}

theorem search_eq (hn : 0 < n) (hprobe : ∀ i < n, probe i = some (c i)) (hk : Parts c (n - 1) k) :
    search probe n = some ⟨if c k < 0 then none else some k, k, c k⟩ := by
  rw [search, if_neg (Nat.ne_of_gt hn)]
  exact bisect_eq (fun i hi => hprobe i (by omega)) hk _ _ (Nat.zero_le k) hk.le_last
    (Nat.le_refl _) (Or.inl rfl) (by omega)

/-- A linear search over `n` indices from `i`: each step fails, goes on or ends the search. -/
def scan {α : Type*} (step : Nat → Option (Option α)) : Nat → Nat → Option (Option α)
  | 0, _ => some none
  | n + 1, i =>
    (step i).bind fun
      | none => scan step n (i + 1)
      | some r => some (some r)

theorem scan_eq {α : Type*} {step : Nat → Option (Option α)} {r : α} (n : Nat) {i : Nat}
    (hik : i ≤ k) (hkn : k ≤ i + n) (hbefore : ∀ j, i ≤ j → j < k → step j = some none)
    (hat : k < i + n → step k = some (some r)) :
    scan step n i = some (if k < i + n then some r else none) := by
  induction n generalizing i with
  | zero => rw [scan, if_neg (by omega)]
  | succ n ih =>
    rcases Nat.eq_or_lt_of_le hik with rfl | hlt
    · rw [scan, hat (by omega), if_pos (by omega)]
      rfl
    · rw [scan, hbefore i (Nat.le_refl _) hlt]
      simp only [Option.bind_some]
      rw [ih hlt (by omega) (fun j hj => hbefore j (by omega)) (fun h => hat (by omega)),
        Nat.succ_add_eq_add_succ]

/-- What a search over `n` indices is to stop with if the comparison may be zero at several of
them: at one of those, or else at the first index whose comparison is positive. -/
def Ends (c : Nat → Int) (n : Nat) (stop : Stop) : Prop :=
  match stop.found with
  | none => ∀ i < n, c i < 0
  | some k => k < n ∧ stop.cmp = c k ∧ 0 ≤ c k ∧ (0 < c k → ∀ i < k, c i < 0)

theorem bisect_ends
    (hprobe : ∀ i < n, probe i = some (c i)) (hneg : ∀ i j, i ≤ j → j < n → c j < 0 → c i < 0)
    (fuel : Nat) {first : Nat} {stop : Stop} (hstop : stop.found = none)
    (hfirst : first ≤ last + 1) (hlast : last < n) (hbefore : ∀ i < first, c i < 0)
    (hupper : first ≤ last → last + 1 = n ∨ 0 < c last) (hend : first = last + 1 → last + 1 = n)
    (hfuel : last + 2 ≤ first + fuel) :
    ∃ stop', bisect probe fuel first last stop = some stop' ∧ Ends c n stop' := by
  induction fuel generalizing first last stop with
  | zero => omega
  | succ fuel ih =>
    rw [bisect]
    by_cases hle : first ≤ last
    · generalize hmid : (first + last) / 2 = mid
      simp only [if_pos hle, hprobe mid (by omega), Option.bind_some]
      rcases Int.lt_trichotomy (c mid) 0 with hlt | heq | hgt
      · rw [if_pos hlt]
        refine ih rfl (by omega) hlast ?_ ?_ ?_ (by omega)
        · exact fun i hi => hneg i mid (by omega) (by omega) hlt
        · exact fun _ => hupper hle
        · intro hpast
          -- an upper end that has been probed is not passed
          rcases hupper hle with htop | hpos
          · exact htop
          · exact absurd hlt (by rw [show mid = last by omega]; omega)
      · refine ⟨⟨some mid, mid, c mid⟩, ?_, by omega, rfl, by omega, fun h => by omega⟩
        rw [if_neg (by omega), if_pos heq]
      · rw [if_neg (by omega), if_neg (by omega)]
        by_cases hone : mid = first
        · refine ⟨⟨some mid, mid, c mid⟩, by rw [if_pos hone], by omega, rfl, by omega, fun _ => ?_⟩
          rw [hone]
          exact hbefore
        · rw [if_neg hone]
          exact ih rfl (by omega) (by omega) hbefore (fun _ => .inr hgt) (by omega) (by omega)
    · refine ⟨stop, by rw [if_neg hle], ?_⟩
      rw [Ends, hstop]
      intro i hi
      exact hbefore i (by omega)

theorem exists_threshold {p : Nat → Prop} (n : Nat)
    (hdown : ∀ i j, i ≤ j → j < n → p j → p i) : ∃ a ≤ n, ∀ i < n, p i ↔ i < a := by
  induction n with
  | zero => exact ⟨0, Nat.le_refl _, fun i hi => absurd hi (Nat.not_lt_zero i)⟩
  | succ n ih =>
    by_cases hp : p n
    · refine ⟨n + 1, Nat.le_refl _, fun i hi => ?_⟩
      exact iff_of_true (hdown i n (Nat.le_of_lt_succ hi) (Nat.lt_succ_self n) hp) hi
    · obtain ⟨a, ha, hiff⟩ := ih fun i j hij hj => hdown i j hij (Nat.lt_succ_of_lt hj)
      refine ⟨a, Nat.le_succ_of_le ha, fun i hi => ?_⟩
      rcases Nat.lt_succ_iff_lt_or_eq.mp hi with hlt | rfl
      · exact hiff i hlt
      · exact iff_of_false hp (Nat.not_lt.mpr ha)

/-- The indices below `n` whose comparison is less come before `a`, those that compare equal from
`a` to `b`, and the greater ones from `b` on. -/
structure Splits (o : Nat → Ordering) (n a b : Nat) : Prop where
  le_b : a ≤ b
  le_n : b ≤ n
  less : ∀ i < n, o i = .lt ↔ i < a
  notGreater : ∀ i < n, o i ≠ .gt ↔ i < b

theorem exists_splits {o : Nat → Ordering} (hless : ∀ i j, i ≤ j → j < n → o j = .lt → o i = .lt)
    (hnot : ∀ i j, i ≤ j → j < n → o j ≠ .gt → o i ≠ .gt) : ∃ a b, Splits o n a b := by
  obtain ⟨a, ha, hless⟩ := exists_threshold n hless
  obtain ⟨b, hb, hnot⟩ := exists_threshold n hnot
  refine ⟨a, b, ?_, hb, hless, hnot⟩
  by_contra hlt
  have hlt : b < a := Nat.not_le.mp hlt
  have hbn : b < n := Nat.lt_of_lt_of_le hlt ha
  have hbless := (hless b hbn).mpr hlt
  exact absurd ((hnot b hbn).mp (by rw [hbless]; decide)) (Nat.lt_irrefl b)

section Splits

variable {o : Nat → Ordering} {n a b i : Nat}

theorem Splits.gt_iff (h : Splits o n a b) (hi : i < n) : o i = .gt ↔ b ≤ i :=
  (not_not.symm.trans (not_congr (h.notGreater i hi))).trans Nat.not_lt

theorem Splits.notLess_iff (h : Splits o n a b) (hi : i < n) : o i ≠ .lt ↔ a ≤ i :=
  (not_congr (h.less i hi)).trans Nat.not_lt

theorem Splits.eq_iff (h : Splits o n a b) (hi : i < n) : o i = .eq ↔ a ≤ i ∧ i < b := by
  rw [← h.notGreater i hi, ← h.notLess_iff hi]
  cases o i <;> decide

end Splits

end EseLinux.Bisect
