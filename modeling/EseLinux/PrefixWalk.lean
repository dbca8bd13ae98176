import EseLinux.PrefixEdge

/-!
Prefixes while the split line moves.  When a line goes from one page to the other, the prefix of a
page is chosen again only if the line can have a part in it.
-/

namespace EseLinux.PrefixSelect

open FirstMax

def PrefixInfo.prev (p : PrefixInfo) : PrefixInfo :=
  ⟨p.ilinePrefix - 1, p.cbSavings, p.ilineSegBegin - 1, p.ilineSegEnd - 1⟩

def linesFrom (rg : Lines) (a : Nat) : Lines := fun i => rg (a + i)

/-- The array with everything from line `a` on overwritten. -/
def setLinesFrom (rg : Lines) (a : Nat) (tail : Lines) : Lines :=
  fun i => if i < a then rg i else tail (i - a)

/-- What a split knows of its lines and of the prefixes of the two pages. -/
structure Split where
  rglineinfo : Lines
  clines : Nat
  prefixinfoSplit : PrefixInfo
  prefixinfoNew : PrefixInfo

/-- `BTISelectPrefix` on the first `iline` lines, for the split page. -/
def Split.selectSplit (psplit : Split) (iline : Nat) : Split :=
  let select := btiSelectPrefix psplit.rglineinfo iline
  { psplit with rglineinfo := select.2, prefixinfoSplit := select.1 }

/-- `BTISelectPrefix` on the lines from `iline` on, for the new page. -/
def Split.selectNew (psplit : Split) (iline : Nat) : Split :=
  let select := btiSelectPrefix (linesFrom psplit.rglineinfo iline) (psplit.clines - iline)
  { psplit with
    rglineinfo := setLinesFrom psplit.rglineinfo iline select.2
    prefixinfoNew := select.1 }

/-- `BTIRecalculatePrefix`: the split line has moved by one. -/
def btiRecalculatePrefix (psplit : Split) (ilinePrev ilineNew : Nat) : Split :=
  if ilinePrev < ilineNew then
    let psplit :=
      if psplit.rglineinfo (ilineNew - 1) = 0 then psplit else psplit.selectSplit ilineNew
    if psplit.prefixinfoNew.ilineSegBegin = 0 then psplit.selectNew ilineNew
    else if !psplit.prefixinfoNew.fNull then
      { psplit with prefixinfoNew := psplit.prefixinfoNew.prev }
    else psplit
  else
    let psplit :=
      if psplit.prefixinfoSplit.ilineSegEnd = ilineNew then psplit.selectSplit ilineNew else psplit
    if psplit.rglineinfo (ilineNew + 1) = 0 then
      if !psplit.prefixinfoNew.fNull then
        { psplit with prefixinfoNew := psplit.prefixinfoNew.next }
      else psplit
    else psplit.selectNew ilineNew

/-- `BTISelectPrefixDecrement`: the last line has gone. -/
def btiSelectPrefixDecrement (rg : Lines) (clines : Nat) (p : PrefixInfo) : PrefixInfo × Lines :=
  if p.ilineSegEnd = clines then btiSelectPrefix rg clines else (p, rg)

/-- The loop to the end of the first segment, with `cLeft` lines left. -/
def firstSegment (rg : Lines) : Nat → Nat → Nat
  | 0, iline => iline
  | cLeft + 1, iline => if rg iline = 0 then iline else firstSegment rg cLeft (iline + 1)

/-- `BTISelectPrefixIncrement`: there is a new first line. -/
def btiSelectPrefixIncrement (rg : Lines) (clines : Nat) (p : PrefixInfo) : PrefixInfo × Lines :=
  if clines > 1 ∧ rg 1 = 0 then (if !p.fNull then p.next else p, rg)
  else if p.fNull then btiSelectPrefix rg (firstSegment rg (clines - 1) 1)
  else btiSelectPrefix rg (p.ilineSegEnd + 1 + 1)

/-- `BTISelectPrefixes`. The root page of a vertical split has no prefix. -/
def btiSelectPrefixes (psplit : Split) (ilineSplit : Nat) : Split :=
  if ilineSplit = 0 then psplit.selectNew ilineSplit
  else
    let split :=
      if psplit.clines - 1 = ilineSplit then btiSelectPrefix psplit.rglineinfo ilineSplit
      else btiSelectPrefixDecrement psplit.rglineinfo ilineSplit psplit.prefixinfoSplit
    let new := btiSelectPrefixIncrement (linesFrom split.2 ilineSplit) (psplit.clines - ilineSplit)
      psplit.prefixinfoNew
    ⟨setLinesFrom split.2 ilineSplit new.2, psplit.clines, split.1, new.1⟩

section Kept

variable {c : Lines} {n : Nat} {p : PrefixInfo}

def PrefixInfo.Sound (p : PrefixInfo) : Prop :=
  (p.ilinePrefix = ilineInvalid ∧ p.cbSavings = 0) ∨
    ((p.ilineSegBegin : Int) ≤ p.ilinePrefix ∧ 0 < p.cbSavings)

/-- The prefix kept for `n` lines is the best one. -/
structure Kept (p : PrefixInfo) (c : Lines) (n : Nat) : Prop where
  sound : p.Sound
  summary_eq : p.summary = (best c n).summary

theorem sound_infoOf (xs : List Nat) : (infoOf c n (first (savings c n) xs)).Sound := by
  cases hfirst : first (savings c n) xs with
  | none => exact .inl ⟨rfl, rfl⟩
  | some i =>
    have hle : segBegin c i ≤ i := segBegin_le i
    exact .inr ⟨Int.ofNat_le.mpr hle, (pos_of_first_eq_some hfirst).2⟩

theorem PrefixInfo.Sound.fNull_iff (h : p.Sound) : p.fNull = true ↔ p.cbSavings = 0 := by
  rw [PrefixInfo.fNull, decide_eq_true_eq]
  rcases h with ⟨hpre, hsavings⟩ | ⟨hpre, hsavings⟩
  · exact iff_of_true hpre hsavings
  · rw [ilineInvalid]
    omega

theorem PrefixInfo.Sound.of_not_null (h : p.Sound) (hnull : p.fNull = false) :
    (p.ilineSegBegin : Int) ≤ p.ilinePrefix ∧ 0 < p.cbSavings := by
  rcases h with ⟨hpre, -⟩ | hsome
  · exact absurd hpre (of_decide_eq_false hnull)
  · exact hsome

theorem Kept.fNull_eq (h : Kept p c n) : p.fNull = (best c n).fNull := by
  have hsavings : p.cbSavings = (best c n).cbSavings := congrArg Prod.fst h.summary_eq
  have hbest : (best c n).Sound := sound_infoOf (List.range n)
  rw [Bool.eq_iff_iff, h.sound.fNull_iff, hbest.fNull_iff, hsavings]

theorem Kept.segBegin_eq (h : Kept p c n) : p.ilineSegBegin = (best c n).ilineSegBegin :=
  congrArg (·.2.1) h.summary_eq

theorem Kept.segEnd_eq (h : Kept p c n) : p.ilineSegEnd = (best c n).ilineSegEnd :=
  congrArg (·.2.2) h.summary_eq

theorem kept_btiSelectPrefix (c : Lines) (n : Nat) : Kept (btiSelectPrefix c n).1 c n := by
  refine ⟨?_, summary_btiSelectPrefix c n⟩
  rw [btiSelectPrefix]
  split
  · exact .inl ⟨rfl, rfl⟩
  · split
    · by_cases hpos : (c 1 : Int) - cbPrefixOverhead > 0
      · simp only [hpos, if_true]
        exact .inr ⟨Int.zero_le_ofNat 1, hpos⟩
      · simp only [hpos, if_false]
        exact .inl ⟨rfl, rfl⟩
    · have hlast : setLine (setLine c 0 0) n 0 n = 0 := if_pos rfl
      dsimp only
      rw [selectLoop_eq hlast]
      exact sound_infoOf _

theorem kept_of_summary_eq {k : Nat} (h : (best c n).summary = (best c k).summary) :
    Kept (btiSelectPrefix c k).1 c n :=
  ⟨(kept_btiSelectPrefix c k).sound, (summary_btiSelectPrefix c k).trans h.symm⟩

theorem Kept.remove_last (h : Kept p c (n + 1)) (hend : p.ilineSegEnd ≠ n) : Kept p c n := by
  refine ⟨h.sound, h.summary_eq.trans ?_⟩
  rw [h.segEnd_eq] at hend
  exact (summary_best_of_segEnd_ne hend).symm

theorem Kept.add_first (h : Kept p (behind c) n) (hzero : n = 0 ∨ c 1 = 0) :
    Kept (if !p.fNull then p.next else p) c (n + 1) := by
  have hbest := summary_best_cons hzero
  rw [← h.fNull_eq] at hbest
  cases hnull : p.fNull with
  | true =>
    rw [hnull, if_pos rfl] at hbest
    have hsame : p.summary = PrefixInfo.null.summary := by
      rw [h.summary_eq, best, fNull_best_iff.mp (h.fNull_eq.symm.trans hnull)]
      rfl
    exact ⟨h.sound, hsame.trans hbest.symm⟩
  | false =>
    rw [hnull, if_neg (by decide)] at hbest
    refine ⟨.inr ?_, ?_⟩
    · obtain ⟨hpre, hsavings⟩ := h.sound.of_not_null hnull
      exact ⟨show ((p.ilineSegBegin + 1 : Nat) : Int) ≤ p.ilinePrefix + 1 by omega, hsavings⟩
    · rw [hbest]
      have heq := h.summary_eq
      simp only [PrefixInfo.summary, Prod.mk.injEq] at heq
      simp only [PrefixInfo.summary, PrefixInfo.next, heq]
      rfl

theorem Kept.remove_first (h : Kept p c (n + 1)) (hbegin : p.ilineSegBegin ≠ 0) :
    p.fNull = false ∧ Kept p.prev (behind c) n := by
  rw [h.segBegin_eq] at hbegin
  have hnull : p.fNull = false := by
    rw [h.fNull_eq, ← Bool.not_eq_true]
    intro hnull
    rw [best, fNull_best_iff.mp hnull] at hbegin
    exact hbegin rfl
  refine ⟨hnull, .inr ?_, ?_⟩
  · obtain ⟨hpre, hsavings⟩ := h.sound.of_not_null hnull
    rw [← h.segBegin_eq] at hbegin
    exact ⟨show ((p.ilineSegBegin - 1 : Nat) : Int) ≤ p.ilinePrefix - 1 by omega, hsavings⟩
  · have heq := h.summary_eq
    simp only [PrefixInfo.summary, Prod.mk.injEq] at heq
    rw [summary_best_behind hbegin]
    simp only [PrefixInfo.summary, PrefixInfo.prev, heq]

theorem kept_btiSelectPrefixDecrement (h : Kept p c (n + 1)) :
    Kept (btiSelectPrefixDecrement c n p).1 c n := by
  rw [btiSelectPrefixDecrement]
  split
  · exact kept_btiSelectPrefix c n
  case isFalse hend => exact h.remove_last hend

theorem firstSegment_eq (n i : Nat) : firstSegment c n i = rightEnd c n i := by
  induction n generalizing i with
  | zero => rfl
  | succ n ih =>
    rw [firstSegment, rightEnd, ih]
    by_cases hzero : c i = 0
    · rw [if_pos hzero, if_neg (by omega)]
    · rw [if_neg hzero, if_pos (by omega)]

theorem kept_btiSelectPrefixIncrement (h : Kept p (behind c) n) :
    Kept (btiSelectPrefixIncrement c (n + 1) p).1 c (n + 1) := by
  rw [btiSelectPrefixIncrement]
  split
  case isTrue hzero => exact h.add_first (.inr hzero.2)
  · split
    case isTrue hnull =>
      rw [h.fNull_eq] at hnull
      rw [firstSegment_eq]
      exact kept_of_summary_eq (summary_best_of_null hnull)
    case isFalse hnull =>
      rw [Bool.not_eq_true, h.fNull_eq] at hnull
      rw [h.segEnd_eq]
      exact kept_of_summary_eq (summary_best_of_not_null hnull)

end Kept

section Walk

variable {rg : Lines} {clines a b : Nat} {psplit : Split}

/-- The split page keeps the best prefix for the lines before `a`, the new page for those from `b`
on. -/
structure Split.Current (psplit : Split) (rg : Lines) (clines a b : Nat) : Prop where
  lines : psplit.rglineinfo = rg
  clines_eq : psplit.clines = clines
  split : Kept psplit.prefixinfoSplit rg a
  new : Kept psplit.prefixinfoNew (linesFrom rg b) (clines - b)

theorem setLinesFrom_linesFrom (rg : Lines) (a : Nat) :
    setLinesFrom rg a (linesFrom rg a) = rg := by
  funext i
  rw [setLinesFrom]
  split
  · rfl
  · rw [linesFrom, Nat.add_sub_cancel' (by omega)]

theorem behind_linesFrom (rg : Lines) (a : Nat) :
    behind (linesFrom rg a) = linesFrom rg (a + 1) := by
  funext i
  rw [behind, linesFrom, linesFrom, Nat.add_right_comm, Nat.add_assoc]

theorem selectSplit_lines (psplit : Split) (iline : Nat) :
    (psplit.selectSplit iline).rglineinfo = psplit.rglineinfo :=
  btiSelectPrefix_lines ..

theorem selectNew_lines (psplit : Split) (iline : Nat) :
    (psplit.selectNew iline).rglineinfo = psplit.rglineinfo := by
  rw [Split.selectNew, btiSelectPrefix_lines]
  exact setLinesFrom_linesFrom ..

theorem Split.Current.selectSplit (h : psplit.Current rg clines a b) (iline : Nat) :
    (psplit.selectSplit iline).Current rg clines iline b := by
  obtain ⟨rfl, hclines, -, hnew⟩ := h
  exact ⟨selectSplit_lines .., hclines, kept_btiSelectPrefix .., hnew⟩

theorem Split.Current.selectNew (h : psplit.Current rg clines a b) (iline : Nat) :
    (psplit.selectNew iline).Current rg clines a iline := by
  obtain ⟨rfl, rfl, hsplit, -⟩ := h
  exact ⟨selectNew_lines .., rfl, hsplit, kept_btiSelectPrefix ..⟩

theorem Split.Current.behind (h : psplit.Current rg clines a (b + 1)) :
    Kept psplit.prefixinfoNew (behind (linesFrom rg b)) (clines - (b + 1)) := by
  rw [behind_linesFrom]
  exact h.new

theorem current_recalculate_up (h : psplit.Current rg clines a a) (ha : a < clines) :
    (btiRecalculatePrefix psplit a (a + 1)).Current rg clines (a + 1) (a + 1) := by
  rw [btiRecalculatePrefix, if_pos (Nat.lt_succ_self a), Nat.add_sub_cancel]
  have hsplit : (if psplit.rglineinfo a = 0 then psplit else psplit.selectSplit (a + 1)).Current
      rg clines (a + 1) a := by
    split
    case isTrue hzero => exact ⟨h.lines, h.clines_eq, ⟨h.split.sound,
      h.split.summary_eq.trans (summary_best_succ (.inr (h.lines ▸ hzero))).symm⟩, h.new⟩
    · exact h.selectSplit (a + 1)
  generalize (if psplit.rglineinfo a = 0 then psplit else psplit.selectSplit (a + 1)) = psplit'
    at hsplit
  dsimp only
  split
  · exact hsplit.selectNew (a + 1)
  case isFalse hbegin =>
    have hn : clines - a = clines - (a + 1) + 1 := by omega
    have hnew : Kept psplit'.prefixinfoNew (linesFrom rg a) (clines - (a + 1) + 1) := by
      rw [← hn]
      exact hsplit.new
    obtain ⟨hnull, hprev⟩ := hnew.remove_first hbegin
    rw [behind_linesFrom] at hprev
    rw [hnull, if_pos (by decide)]
    exact ⟨hsplit.lines, hsplit.clines_eq, hsplit.split, hprev⟩

theorem current_recalculate_down (h : psplit.Current rg clines (a + 1) (a + 1)) (ha : a < clines) :
    (btiRecalculatePrefix psplit (a + 1) a).Current rg clines a a := by
  rw [btiRecalculatePrefix, if_neg (by omega)]
  have hsplit : (if psplit.prefixinfoSplit.ilineSegEnd = a then psplit.selectSplit a
      else psplit).Current rg clines a (a + 1) := by
    split
    · exact h.selectSplit a
    case isFalse hend => exact ⟨h.lines, h.clines_eq, h.split.remove_last hend, h.new⟩
  generalize (if psplit.prefixinfoSplit.ilineSegEnd = a then psplit.selectSplit a else psplit) =
    psplit' at hsplit
  dsimp only
  split
  case isTrue hzero =>
    rw [hsplit.lines] at hzero
    have hn : clines - (a + 1) + 1 = clines - a := by omega
    have hnext := hsplit.behind.add_first (.inr hzero)
    rw [hn] at hnext
    split
    case isTrue hnull =>
      rw [if_pos hnull] at hnext
      exact ⟨hsplit.lines, hsplit.clines_eq, hsplit.split, hnext⟩
    case isFalse hnull =>
      rw [if_neg hnull] at hnext
      exact ⟨hsplit.lines, hsplit.clines_eq, hsplit.split, hnext⟩
  · exact hsplit.selectNew a

theorem btiSelectPrefixDecrement_lines (rg : Lines) (n : Nat) (p : PrefixInfo) :
    (btiSelectPrefixDecrement rg n p).2 = rg := by
  rw [btiSelectPrefixDecrement]
  split
  · exact btiSelectPrefix_lines ..
  · rfl

theorem btiSelectPrefixIncrement_lines (rg : Lines) (n : Nat) (p : PrefixInfo) :
    (btiSelectPrefixIncrement rg n p).2 = rg := by
  rw [btiSelectPrefixIncrement]
  split
  · rfl
  · split <;> exact btiSelectPrefix_lines ..

theorem current_btiSelectPrefixes (hlines : psplit.rglineinfo = rg)
    (hclines : psplit.clines = clines)
    (hsplit : a ≠ clines - 1 ∨ a = 0 → Kept psplit.prefixinfoSplit rg (a + 1))
    (hnew : Kept psplit.prefixinfoNew (linesFrom rg (a + 1)) (clines - (a + 1))) (ha : a < clines) :
    (btiSelectPrefixes psplit a).Current rg clines a a := by
  rw [btiSelectPrefixes]
  split
  case isTrue hzero =>
    obtain rfl := hzero
    have hone : psplit.Current rg clines 0 1 :=
      ⟨hlines, hclines, ⟨(hsplit (.inr rfl)).sound, (hsplit (.inr rfl)).summary_eq⟩, hnew⟩
    exact hone.selectNew 0
  · have hkept : Kept (if psplit.clines - 1 = a then btiSelectPrefix psplit.rglineinfo a
        else btiSelectPrefixDecrement psplit.rglineinfo a psplit.prefixinfoSplit).1 rg a ∧
          (if psplit.clines - 1 = a then btiSelectPrefix psplit.rglineinfo a
            else btiSelectPrefixDecrement psplit.rglineinfo a psplit.prefixinfoSplit).2 = rg := by
      rw [hlines, hclines]
      split
      · exact ⟨kept_btiSelectPrefix rg a, btiSelectPrefix_lines rg a⟩
      case isFalse hlast =>
        exact ⟨kept_btiSelectPrefixDecrement (hsplit (.inl (Ne.symm hlast))),
          btiSelectPrefixDecrement_lines ..⟩
    have hn : clines - (a + 1) + 1 = clines - a := by omega
    rw [← behind_linesFrom] at hnew
    have hnext := kept_btiSelectPrefixIncrement hnew
    rw [hn] at hnext
    dsimp only
    rw [hkept.2, btiSelectPrefixIncrement_lines, hclines]
    rw [hclines] at hkept
    exact ⟨setLinesFrom_linesFrom .., rfl, hkept.1, hnext⟩

/-- The walks of the split line. A walk starts where both prefixes are chosen, or before the last
line with none chosen yet; each step is one of `BTIRecalculatePrefix` or one of
`BTISelectPrefixes`. -/
inductive Walk (rg : Lines) (clines : Nat) : Nat → Split → Prop
  | select {iline : Nat} (h : iline ≤ clines) (prefixinfoSplit prefixinfoNew : PrefixInfo) :
      Walk rg clines iline
        ((Split.mk rg clines prefixinfoSplit prefixinfoNew |>.selectSplit iline).selectNew iline)
  | selectLast (h : 0 < clines) :
      Walk rg clines (clines - 1) (btiSelectPrefixes ⟨rg, clines, .null, .null⟩ (clines - 1))
  | up {iline : Nat} {psplit : Split} (h : iline < clines) :
      Walk rg clines iline psplit →
        Walk rg clines (iline + 1) (btiRecalculatePrefix psplit iline (iline + 1))
  | down {iline : Nat} {psplit : Split} :
      Walk rg clines (iline + 1) psplit →
        Walk rg clines iline (btiRecalculatePrefix psplit (iline + 1) iline)
  | selectDown {iline : Nat} {psplit : Split} :
      Walk rg clines (iline + 1) psplit → Walk rg clines iline (btiSelectPrefixes psplit iline)

theorem Walk.current {iline : Nat} (h : Walk rg clines iline psplit) :
    iline ≤ clines ∧ psplit.Current rg clines iline iline := by
  induction h with
  | select h prefixinfoSplit prefixinfoNew =>
    refine ⟨h, (selectNew_lines ..).trans (selectSplit_lines ..), rfl, kept_btiSelectPrefix .., ?_⟩
    rw [Split.selectNew, selectSplit_lines]
    exact kept_btiSelectPrefix ..
  | selectLast h =>
    refine ⟨by omega, current_btiSelectPrefixes rfl rfl (fun hzero => ?_) ?_ (by omega)⟩
    · have hone : clines - 1 = 0 := by omega
      rw [hone]
      exact kept_btiSelectPrefix rg 1
    · rw [show clines - (clines - 1 + 1) = 0 by omega]
      exact kept_btiSelectPrefix _ 0
  | up h _ ih => exact ⟨h, current_recalculate_up ih.2 h⟩
  | down _ ih => exact ⟨by omega, current_recalculate_down ih.2 ih.1⟩
  | selectDown _ ih =>
    exact ⟨by omega, current_btiSelectPrefixes ih.2.lines ih.2.clines_eq (fun _ => ih.2.split)
      ih.2.new ih.1⟩

end Walk

/-- After each step of a walk both pages have the savings and the segment that `BTISelectPrefix`
finds for their lines. -/
theorem walk_eq_select {rg : Lines} {clines iline : Nat} {psplit : Split}
    (h : Walk rg clines iline psplit) :
    psplit.rglineinfo = rg ∧ psplit.prefixinfoSplit.summary = (btiSelectPrefix rg iline).1.summary ∧
      psplit.prefixinfoNew.summary =
        (btiSelectPrefix (linesFrom rg iline) (clines - iline)).1.summary := by
  have hcurrent := h.current.2
  refine ⟨hcurrent.lines, ?_, ?_⟩
  · rw [hcurrent.split.summary_eq, summary_btiSelectPrefix]
  · rw [hcurrent.new.summary_eq, summary_btiSelectPrefix]

def sixLines : Lines := fun i => [0, 3, 5, 0, 4, 6].getD i 0

theorem sixLines_walk_eq_select :
    ∃ psplit, Walk sixLines 6 3 psplit ∧
      psplit.prefixinfoSplit.summary = (btiSelectPrefix sixLines 3).1.summary ∧
      psplit.prefixinfoNew.summary = (btiSelectPrefix (linesFrom sixLines 3) 3).1.summary := by
  have hselect : Walk sixLines 6 3 _ := .select (by decide) .null .null
  have hwalk := (hselect.up (by decide)).down
  exact ⟨_, hwalk, (walk_eq_select hwalk).2⟩

end EseLinux.PrefixSelect
