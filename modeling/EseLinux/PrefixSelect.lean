import EseLinux.FirstMax
import Mathlib.Data.List.Basic

/-!
The choice of the key that a split keeps as the prefix of a page.  For each line `cbCommonPrev` is
what its key has in common with the key of the previous line, less the overhead of a prefix.  The
search tries only lines that no neighbour beats; beside it stands the one that tries every line,
which a debug build checks it against.

Sizes are sums of lengths of keys of one page and do not overflow.
-/

namespace EseLinux.PrefixSelect

open FirstMax List

/-- `cbCommonPrev` of each line of the array. -/
abbrev Lines := Nat → Nat

def ilineInvalid : Int := -1

def cbPrefixOverhead : Nat := 2

structure PrefixInfo where
  ilinePrefix : Int
  cbSavings : Int
  ilineSegBegin : Nat
  ilineSegEnd : Nat
deriving DecidableEq, Repr

def PrefixInfo.null : PrefixInfo := ⟨ilineInvalid, 0, 0, 0⟩

def PrefixInfo.fNull (p : PrefixInfo) : Bool := decide (p.ilinePrefix = ilineInvalid)

def setLine (rg : Lines) (iline cb : Nat) : Lines := fun i => if i = iline then cb else rg i

/-- The loop over the previous lines: where it stops, and the savings. The entry of the first line
is zero, which ends the loop. -/
def savingsLeft (rg : Lines) : Nat → Nat → Nat → Nat × Nat
  | 0, _, cbSavings => (0, cbSavings)
  | ilineSegLeft + 1, cbCommonMin, cbSavings =>
    if rg (ilineSegLeft + 1) > 0 then
      let cbCommonMin :=
        if cbCommonMin > rg (ilineSegLeft + 1) then rg (ilineSegLeft + 1) else cbCommonMin
      savingsLeft rg ilineSegLeft cbCommonMin (cbSavings + cbCommonMin)
    else (ilineSegLeft + 1, cbSavings)

/-- The loop over the following lines. The entry behind the last line is zero, which ends the
loop. -/
def savingsRight (rg : Lines) : Nat → Nat → Nat → Nat → Nat × Nat
  | 0, ilineSegRight, _, cbSavings => (ilineSegRight, cbSavings)
  | fuel + 1, ilineSegRight, cbCommonMin, cbSavings =>
    if rg ilineSegRight > 0 then
      let cbCommonMin := if cbCommonMin > rg ilineSegRight then rg ilineSegRight else cbCommonMin
      savingsRight rg fuel (ilineSegRight + 1) cbCommonMin (cbSavings + cbCommonMin)
    else (ilineSegRight, cbSavings)

def choose (best : PrefixInfo) (iline : Nat) (left right : Nat × Nat) : PrefixInfo :=
  let cbSavings : Int := (left.2 : Int) + right.2 - cbPrefixOverhead
  if cbSavings > best.cbSavings then ⟨iline, cbSavings, left.1, right.1 - 1⟩ else best

def tryLine (rg : Lines) (clines : Nat) (best : PrefixInfo) (iline : Nat) : PrefixInfo :=
  choose best iline (savingsLeft rg iline (rg iline) 0)
    (savingsRight rg clines (iline + 1) (rg (iline + 1)) 0)

/-- The next line would be at least as good a prefix, or the previous one a better one. -/
def fSkip (rg : Lines) (clines iline : Nat) : Bool :=
  (decide (iline ≠ 1) && decide (iline ≠ clines - 2) && decide (rg (iline + 1) ≥ rg iline)) ||
  (decide (iline > 1) && decide (iline ≠ clines - 2) && decide (rg (iline - 1) > rg iline) &&
    decide (rg (iline + 1) < rg iline))

def selectLoop (rg : Lines) (clines : Nat) : PrefixInfo :=
  (range' 1 (clines - 2)).foldl
    (fun best iline => if fSkip rg clines iline then best else tryLine rg clines best iline) .null

/-- `BTISelectPrefix`: the prefix, and the line array it leaves. -/
def btiSelectPrefix (rg : Lines) (clines : Nat) : PrefixInfo × Lines :=
  if clines < 2 then (.null, rg)
  else if clines = 2 then
    let cbSavings : Int := (rg 1 : Int) - cbPrefixOverhead
    (if cbSavings > 0 then ⟨1, cbSavings, 0, 1⟩ else .null, rg)
  else
    let cbCommonPrevFirstSav := rg 0
    let cbCommonPrevLastSav := rg clines
    let rg := setLine (setLine rg 0 0) clines 0
    let best := selectLoop rg clines
    (best, setLine (setLine rg 0 cbCommonPrevFirstSav) clines cbCommonPrevLastSav)

/-- The loop over the following lines as `BTISelectPrefixCheck` has it, with `cLeft` lines left. -/
def savingsRightCheck (rg : Lines) (iline : Nat) : Nat → Nat → Nat → Nat → Nat × Nat
  | 0, ilineSegRight, _, cbSavings => (ilineSegRight, cbSavings)
  | cLeft + 1, ilineSegRight, cbCommonMin, cbSavings =>
    if rg ilineSegRight > 0 then
      let cbCommonMin :=
        if ilineSegRight = iline + 1 then rg ilineSegRight
        else if cbCommonMin > rg ilineSegRight then rg ilineSegRight else cbCommonMin
      savingsRightCheck rg iline cLeft (ilineSegRight + 1) cbCommonMin (cbSavings + cbCommonMin)
    else (ilineSegRight, cbSavings)

def tryLineCheck (rg : Lines) (clines : Nat) (best : PrefixInfo) (iline : Nat) : PrefixInfo :=
  let left := savingsLeft rg iline (rg iline) 0
  choose best iline left
    (savingsRightCheck rg iline (clines - (iline + 1)) (iline + 1) (rg iline) 0)

/-- `BTISelectPrefixCheck`, which tries every line. -/
def btiSelectPrefixCheck (rg : Lines) (clines : Nat) : PrefixInfo × Lines :=
  if clines = 1 then (.null, rg)
  else
    let cbCommonPrevSav := rg 0
    let rg := setLine rg 0 0
    let best := (range clines).foldl (tryLineCheck rg clines) .null
    (best, setLine rg 0 cbCommonPrevSav)

variable {i m : Nat}

section Savings

variable (c : Lines)

def segBegin : Nat → Nat
  | 0 => 0
  | i + 1 => if c (i + 1) > 0 then segBegin i else i + 1

/-- What the lines before `i` save, each at most `m`. -/
def leftSum : Nat → Nat → Nat
  | 0, _ => 0
  | i + 1, m => if c (i + 1) > 0 then min m (c (i + 1)) + leftSum i (min m (c (i + 1))) else 0

/-- The end of the segment in the `n` lines from `i` on. -/
def rightEnd : Nat → Nat → Nat
  | 0, i => i
  | n + 1, i => if c i > 0 then rightEnd n (i + 1) else i

/-- What the `n` lines from `i` on save, each at most `m`. -/
def rightSum : Nat → Nat → Nat → Nat
  | 0, _, _ => 0
  | n + 1, i, m => if c i > 0 then min m (c i) + rightSum n (i + 1) (min m (c i)) else 0

/-- The line behind the segment of line `i`. -/
def segStop (clines i : Nat) : Nat := rightEnd c (clines - (i + 1)) (i + 1)

/-- What is saved with line `i` as the prefix of `clines` lines. -/
def savings (clines i : Nat) : Int :=
  ((leftSum c i (c i) + rightSum c (clines - (i + 1)) (i + 1) (c (i + 1)) : Nat) : Int) -
    cbPrefixOverhead

def segment (clines i : Nat) : Nat × Nat := (segBegin c i, segStop c clines i - 1)

def infoOf (clines : Nat) : Option Nat → PrefixInfo
  | none => .null
  | some i => ⟨i, savings c clines i, (segment c clines i).1, (segment c clines i).2⟩

variable {c}

theorem ite_gt_eq_min (a b : Nat) : (if a > b then b else a) = min a b := by
  split <;> omega

theorem savingsLeft_eq (i m cb : Nat) :
    savingsLeft c i m cb = (segBegin c i, cb + leftSum c i m) := by
  induction i generalizing m cb with
  | zero => rfl
  | succ i ih =>
    rw [savingsLeft, segBegin, leftSum]
    simp only [ite_gt_eq_min]
    split
    · rw [ih, Nat.add_assoc]
    · rfl

variable {clines : Nat}

theorem savingsRight_eq (hlast : c clines = 0) (n : Nat) {fuel : Nat}
    (hi : i + n = clines) (hfuel : n ≤ fuel) (m cb : Nat) :
    savingsRight c fuel i m cb = (rightEnd c n i, cb + rightSum c n i m) := by
  induction n generalizing fuel i m cb with
  | zero =>
    obtain rfl : i = clines := hi
    cases fuel with
    | zero => rfl
    | succ fuel => rw [savingsRight, hlast, if_neg (Nat.lt_irrefl 0)]; rfl
  | succ n ih =>
    obtain ⟨fuel, rfl⟩ : ∃ f, fuel = f + 1 := ⟨fuel - 1, by omega⟩
    rw [savingsRight, rightEnd, rightSum]
    simp only [ite_gt_eq_min]
    split
    · rw [ih (by omega) (by omega), Nat.add_assoc]
    · rfl

theorem savingsRightCheck_eq {iline : Nat} (n : Nat) (hi : iline + 1 ≤ i) {cb : Nat} :
    savingsRightCheck c iline n i m cb =
      (rightEnd c n i, cb + rightSum c n i (if i = iline + 1 then c i else m)) := by
  induction n generalizing i m cb with
  | zero => rfl
  | succ n ih =>
    have hnext : ¬ i + 1 = iline + 1 := by omega
    rw [savingsRightCheck, rightEnd, rightSum]
    simp only [ite_gt_eq_min]
    split
    · rw [ih (by omega), if_neg hnext]
      split
      · rw [Nat.min_self, Nat.add_assoc]
      · rw [Nat.add_assoc]
    · rfl

theorem choose_infoOf (best : Option Nat) (i : Nat) :
    choose (infoOf c clines best) i (segBegin c i, 0 + leftSum c i (c i))
        (segStop c clines i, 0 + rightSum c (clines - (i + 1)) (i + 1) (c (i + 1))) =
      infoOf c clines (pick (savings c clines) best i) := by
  have hvalue : (infoOf c clines best).cbSavings = value (savings c clines) best := by
    cases best <;> rfl
  have hsavings : ((leftSum c i (c i) : Nat) : Int) +
      ((rightSum c (clines - (i + 1)) (i + 1) (c (i + 1)) : Nat) : Int) - cbPrefixOverhead =
        savings c clines i := by
    rw [savings, Int.natCast_add]
  simp only [choose, pick, hvalue, Nat.zero_add, gt_iff_lt, hsavings]
  by_cases hlt : value (savings c clines) best < savings c clines i
  · rw [if_pos hlt, if_pos hlt]
    rfl
  · rw [if_neg hlt, if_neg hlt]

theorem tryLineCheck_eq (best : Option Nat) (i : Nat) :
    tryLineCheck c clines (infoOf c clines best) i =
      infoOf c clines (pick (savings c clines) best i) := by
  simp only [tryLineCheck, savingsLeft_eq, savingsRightCheck_eq _ (Nat.le_refl (i + 1)), if_true]
  exact choose_infoOf best i

theorem foldl_tryLineCheck (xs : List Nat) :
    xs.foldl (tryLineCheck c clines) .null = infoOf c clines (first (savings c clines) xs) :=
  @foldl_hom _ _ _ (infoOf c clines) _ _ xs none tryLineCheck_eq

theorem tryLine_eq (hlast : c clines = 0) (best : PrefixInfo) (hi : i + 1 ≤ clines) :
    tryLine c clines best i = tryLineCheck c clines best i := by
  rw [tryLine, tryLineCheck, savingsRight_eq hlast (clines - (i + 1)) (by omega) (by omega),
    savingsRightCheck_eq _ (Nat.le_refl (i + 1)), if_pos rfl]

def tried (c : Lines) (clines : Nat) : List Nat :=
  (range' 1 (clines - 2)).filter fun i => !fSkip c clines i

theorem selectLoop_eq (hlast : c clines = 0) :
    selectLoop c clines = infoOf c clines (first (savings c clines) (tried c clines)) := by
  have hfold : selectLoop c clines = (tried c clines).foldl (tryLine c clines) .null := by
    rw [selectLoop, tried, foldl_filter]
    congr 1
    funext best i
    cases fSkip c clines i <;> rfl
  rw [hfold, ← foldl_tryLineCheck]
  apply foldl_ext
  intro best i hi
  have hmem := mem_range'_1.mp (mem_filter.mp hi).1
  exact tryLine_eq hlast best (by omega)

end Savings

section Neighbours

variable {c : Lines} {clines i : Nat}

theorem leftSum_mono (i : Nat) {m' : Nat} (h : m ≤ m') : leftSum c i m ≤ leftSum c i m' := by
  induction i generalizing m m' with
  | zero => exact Nat.le_refl _
  | succ i ih =>
    rw [leftSum, leftSum]
    split
    · have hmin : min m (c (i + 1)) ≤ min m' (c (i + 1)) := by omega
      exact Nat.add_le_add hmin (ih hmin)
    · exact Nat.le_refl _

theorem rightSum_mono (n i : Nat) {m' : Nat} (h : m ≤ m') :
    rightSum c n i m ≤ rightSum c n i m' := by
  induction n generalizing i m m' with
  | zero => exact Nat.le_refl _
  | succ n ih =>
    rw [rightSum, rightSum]
    split
    · have hmin : min m (c i) ≤ min m' (c i) := by omega
      exact Nat.add_le_add hmin (ih _ hmin)
    · exact Nat.le_refl _

theorem leftSum_le (i m : Nat) : leftSum c i m ≤ leftSum c i (c i) := by
  cases i with
  | zero => exact Nat.le_refl _
  | succ i =>
    rw [leftSum, leftSum, Nat.min_self]
    split
    · exact Nat.add_le_add (Nat.min_le_right _ _) (leftSum_mono i (Nat.min_le_right _ _))
    · exact Nat.le_refl _

theorem rightSum_le (n i m : Nat) : rightSum c n i m ≤ rightSum c n i (c i) := by
  cases n with
  | zero => exact Nat.le_refl _
  | succ n =>
    rw [rightSum, rightSum, Nat.min_self]
    split
    · exact Nat.add_le_add (Nat.min_le_right _ _) (rightSum_mono n _ (Nat.min_le_right _ _))
    · exact Nat.le_refl _

section

variable (hi : i + 1 < clines)
include hi

theorem segStop_succ (hpos : 0 < c (i + 1)) : segStop c clines (i + 1) = segStop c clines i := by
  have hn : clines - (i + 1) = clines - (i + 1 + 1) + 1 := by omega
  rw [segStop, segStop, hn, rightEnd, if_pos hpos]

theorem segment_succ (hpos : 0 < c (i + 1)) : segment c clines (i + 1) = segment c clines i := by
  rw [segment, segment, segStop_succ hi hpos, segBegin, if_pos hpos]

theorem savings_of_pos (hpos : 0 < c (i + 1)) :
    savings c clines i = ((leftSum c i (c i) + (c (i + 1) +
        rightSum c (clines - (i + 2)) (i + 2) (c (i + 1))) : Nat) : Int) - cbPrefixOverhead ∧
      savings c clines (i + 1) = ((c (i + 1) + leftSum c i (c (i + 1)) +
        rightSum c (clines - (i + 2)) (i + 2) (c (i + 2)) : Nat) : Int) - cbPrefixOverhead := by
  have hn : clines - (i + 1) = clines - (i + 2) + 1 := by omega
  constructor
  · rw [savings, hn, rightSum, if_pos hpos, min_self]
  · rw [savings, leftSum, if_pos hpos, min_self]

theorem savings_le_next (h : i = 0 ∨ c i ≤ c (i + 1)) (hpos : 0 < savings c clines i) :
    savings c clines i ≤ savings c clines (i + 1) ∧
      segment c clines (i + 1) = segment c clines i := by
  have hnext : 0 < c (i + 1) := by
    apply Nat.pos_of_ne_zero
    intro hzero
    have hleft : leftSum c i (c i) = 0 := by
      cases i with
      | zero => rfl
      | succ i => rw [leftSum, if_neg (by omega)]
    have hn : clines - (i + 1) = clines - (i + 2) + 1 := by omega
    rw [savings, hleft, hn, rightSum, if_neg (by omega)] at hpos
    exact absurd hpos (by decide)
  obtain ⟨hsavings, hsavings'⟩ := savings_of_pos hi hnext
  have hleft : leftSum c i (c i) ≤ leftSum c i (c (i + 1)) := by
    rcases h with rfl | hle
    · exact Nat.le_refl _
    · exact leftSum_mono i hle
  have hright := rightSum_le (c := c) (clines - (i + 2)) (i + 2) (c (i + 1))
  refine ⟨?_, segment_succ hi hnext⟩
  rw [hsavings, hsavings']
  omega

theorem savings_le_prev (h : i + 2 = clines ∨ c (i + 2) ≤ c (i + 1))
    (hpos : 0 < savings c clines (i + 1)) : savings c clines (i + 1) ≤ savings c clines i ∧
      segment c clines i = segment c clines (i + 1) := by
  have hcommon : 0 < c (i + 1) := by
    apply Nat.pos_of_ne_zero
    intro hzero
    have hright : rightSum c (clines - (i + 2)) (i + 2) (c (i + 2)) = 0 := by
      rcases h with hlast | hle
      · rw [hlast, Nat.sub_self]
        rfl
      · cases clines - (i + 2) with
        | zero => rfl
        | succ n => rw [rightSum, if_neg (by omega)]
    rw [savings, leftSum, if_neg (by omega), hright] at hpos
    exact absurd hpos (by decide)
  obtain ⟨hsavings, hsavings'⟩ := savings_of_pos hi hcommon
  have hleft := leftSum_le (c := c) i (c (i + 1))
  have hright : rightSum c (clines - (i + 2)) (i + 2) (c (i + 2)) ≤
      rightSum c (clines - (i + 2)) (i + 2) (c (i + 1)) := by
    rcases h with hlast | hle
    · rw [hlast, Nat.sub_self]
      exact Nat.le_refl _
    · exact rightSum_mono _ _ hle
  refine ⟨?_, (segment_succ hi hcommon).symm⟩
  rw [hsavings, hsavings']
  omega

end

end Neighbours

section Tried

variable {c : Lines} {clines : Nat}

def Matched (c : Lines) (clines i : Nat) : Prop :=
  ∃ j ∈ tried c clines, savings c clines i ≤ savings c clines j ∧
    segment c clines j = segment c clines i

variable {j : Nat}

theorem Matched.of_le (h : Matched c clines j) (hle : savings c clines i ≤ savings c clines j)
    (hsegment : segment c clines j = segment c clines i) : Matched c clines i := by
  obtain ⟨k, hk, hjk, hsame⟩ := h
  exact ⟨k, hk, le_trans hle hjk, hsame.trans hsegment⟩

theorem fSkip_eq_true_iff : fSkip c clines i = true ↔ (i ≠ 1 ∧ i ≠ clines - 2 ∧ c i ≤ c (i + 1)) ∨
        (1 < i ∧ i ≠ clines - 2 ∧ c i < c (i - 1) ∧ c (i + 1) < c i) := by
  simp only [fSkip, Bool.or_eq_true, Bool.and_eq_true, decide_eq_true_eq, ge_iff_le, gt_iff_lt,
    and_assoc]

theorem matched_of_not_skip (hone : 1 ≤ i) (hlast : i + 2 ≤ clines)
    (hskip : ¬ fSkip c clines i = true) : Matched c clines i := by
  refine ⟨i, mem_filter.mpr ⟨mem_range'_1.mpr ⟨hone, by omega⟩, ?_⟩, le_refl _, rfl⟩
  simpa using hskip

theorem matched_up (n : Nat) (hi : i + n + 2 = clines) (hone : 1 ≤ i)
    (hprev : i = 1 ∨ c (i - 1) ≤ c i) (hpos : 0 < savings c clines i) : Matched c clines i := by
  induction n generalizing i with
  | zero =>
    apply matched_of_not_skip hone (by omega)
    rw [fSkip_eq_true_iff]
    omega
  | succ n ih =>
    by_cases hskip : fSkip c clines i = true
    · have hle : c i ≤ c (i + 1) := by
        rw [fSkip_eq_true_iff] at hskip
        omega
      obtain ⟨hsavings, hsegment⟩ := savings_le_next (by omega) (.inr hle) hpos
      have hnext : Matched c clines (i + 1) :=
        ih (by omega) (by omega) (.inr hle) (lt_of_lt_of_le hpos hsavings)
      exact hnext.of_le hsavings hsegment
    · exact matched_of_not_skip hone (by omega) hskip

theorem matched_down (hone : 1 ≤ i) (hlast : i + 2 ≤ clines)
    (hnext : i + 2 = clines ∨ c (i + 1) < c i) (hpos : 0 < savings c clines i) :
    Matched c clines i := by
  induction i with
  | zero => omega
  | succ i ih =>
    by_cases hskip : fSkip c clines (i + 1) = true
    · rw [fSkip_eq_true_iff, Nat.add_sub_cancel] at hskip
      have hlt : 1 < i + 1 ∧ c (i + 1) < c i ∧ c (i + 1 + 1) < c (i + 1) := by omega
      obtain ⟨hsavings, hsegment⟩ := savings_le_prev (by omega) (.inr (Nat.le_of_lt hlt.2.2)) hpos
      have hprev : Matched c clines i :=
        ih (by omega) (by omega) (.inr hlt.2.1) (lt_of_lt_of_le hpos hsavings)
      exact hprev.of_le hsavings hsegment
    · exact matched_of_not_skip hone hlast hskip

theorem matched_of_pos (hclines : 3 ≤ clines) (hi : i < clines)
    (hpos : 0 < savings c clines i) : Matched c clines i := by
  -- the first line is no better than the second one, and the last no better than the one before it
  by_cases hfirst : i = 0
  · obtain rfl := hfirst
    obtain ⟨hsavings, hsegment⟩ := savings_le_next (by omega) (.inl rfl) hpos
    have hnext : Matched c clines (0 + 1) := matched_up (clines - 3) (by omega) (le_rfl)
      (.inl rfl) (lt_of_lt_of_le hpos hsavings)
    exact hnext.of_le hsavings hsegment
  · by_cases hlast : i + 1 = clines
    · obtain ⟨i, rfl⟩ : ∃ j, i = j + 1 := ⟨i - 1, by omega⟩
      obtain ⟨hsavings, hsegment⟩ := savings_le_prev hi (.inl (by omega)) hpos
      have hprev : Matched c clines i := matched_down (by omega) (by omega) (.inl (by omega))
        (lt_of_lt_of_le hpos hsavings)
      exact hprev.of_le hsavings hsegment
    · by_cases hdown : i + 2 = clines ∨ c (i + 1) < c i
      · exact matched_down (by omega) (by omega) hdown hpos
      · obtain ⟨hsavings, hsegment⟩ :=
          savings_le_next (by omega) (.inr (show c i ≤ c (i + 1) by omega)) hpos
        have hnext : Matched c clines (i + 1) := matched_up (clines - (i + 3)) (by omega) (by omega)
          (.inr (show c i ≤ c (i + 1) by omega)) (lt_of_lt_of_le hpos hsavings)
        exact hnext.of_le hsavings hsegment

theorem segBegin_le (i : Nat) : segBegin c i ≤ i := by
  induction i with
  | zero => exact le_rfl
  | succ i ih =>
    rw [segBegin]
    split
    · omega
    · exact le_rfl

theorem segment_eq_of_le {k : Nat} (hbegin : segBegin c k ≤ j) (hjk : j ≤ k) (hk : k < clines) :
    segment c clines j = segment c clines k := by
  induction k with
  | zero =>
    obtain rfl : j = 0 := by omega
    rfl
  | succ k ih =>
    by_cases heq : j = k + 1
    · rw [heq]
    · have hpos : 0 < c (k + 1) := by
        apply Nat.pos_of_ne_zero
        intro hzero
        rw [segBegin, if_neg (by omega)] at hbegin
        omega
      rw [segBegin, if_pos hpos] at hbegin
      rw [ih hbegin (by omega) (by omega), segment_succ hk hpos]

theorem segment_between {k : Nat} (hij : i ≤ j) (hjk : j ≤ k) (hk : k < clines)
    (h : segment c clines i = segment c clines k) : segment c clines j = segment c clines i := by
  have hbegin : segBegin c i = segBegin c k := congrArg Prod.fst h
  have hle := segBegin_le (c := c) i
  rw [segment_eq_of_le (by omega) hjk hk, h]

end Tried

def PrefixInfo.summary (p : PrefixInfo) : Int × Nat × Nat :=
  (p.cbSavings, p.ilineSegBegin, p.ilineSegEnd)

section Result

variable {c c' : Lines} {clines : Nat}

theorem summary_infoOf (best : Option Nat) :
    (infoOf c clines best).summary =
      (best.map fun i => (savings c clines i, segment c clines i)).getD (0, 0, 0) := by
  cases best <;> rfl

theorem leftSum_congr (i m : Nat) (h : ∀ j, 0 < j → j ≤ i → c j = c' j) :
    leftSum c i m = leftSum c' i m := by
  induction i generalizing m with
  | zero => rfl
  | succ i ih =>
    rw [leftSum, leftSum, h (i + 1) (by omega) (le_rfl), ih _ fun j hpos hj => h j hpos (by omega)]

theorem segBegin_congr (i : Nat) (h : ∀ j, 0 < j → j ≤ i → c j = c' j) :
    segBegin c i = segBegin c' i := by
  induction i with
  | zero => rfl
  | succ i ih =>
    rw [segBegin, segBegin, h (i + 1) (by omega) (le_rfl), ih fun j hpos hj => h j hpos (by omega)]

theorem rightSum_congr (n i m : Nat) (h : ∀ j, i ≤ j → j < i + n → c j = c' j) :
    rightSum c n i m = rightSum c' n i m := by
  induction n generalizing i m with
  | zero => rfl
  | succ n ih =>
    rw [rightSum, rightSum, h i (le_rfl) (by omega),
      ih _ _ fun j hj hlt => h j (by omega) (by omega)]

theorem rightEnd_congr (n i : Nat) (h : ∀ j, i ≤ j → j < i + n → c j = c' j) :
    rightEnd c n i = rightEnd c' n i := by
  induction n generalizing i with
  | zero => rfl
  | succ n ih =>
    rw [rightEnd, rightEnd, h i (le_rfl) (by omega), ih _ fun j hj hlt => h j (by omega) (by omega)]

theorem savings_congr (h : ∀ j, 0 < j → j < clines → c j = c' j) (hi : i < clines) :
    savings c clines i = savings c' clines i := by
  have hleft : leftSum c i (c i) = leftSum c' i (c' i) := by
    cases i with
    | zero => rfl
    | succ i =>
      rw [h (i + 1) (by omega) hi, leftSum_congr (i + 1) _ fun j hpos hj => h j hpos (by omega)]
  have hright : rightSum c (clines - (i + 1)) (i + 1) (c (i + 1)) =
      rightSum c' (clines - (i + 1)) (i + 1) (c' (i + 1)) := by
    by_cases hlast : i + 1 = clines
    · rw [hlast, Nat.sub_self]
      rfl
    · rw [h (i + 1) (by omega) (by omega),
        rightSum_congr _ _ _ fun j hj hlt => h j (by omega) (by omega)]
  rw [savings, savings, hleft, hright]

theorem segment_congr (h : ∀ j, 0 < j → j < clines → c j = c' j) (hi : i < clines) :
    segment c clines i = segment c' clines i := by
  rw [segment, segment, segStop, segStop, segBegin_congr i fun j hpos hj => h j hpos (by omega),
    rightEnd_congr _ _ fun j hj hlt => h j (by omega) (by omega)]

def best (c : Lines) (clines : Nat) : PrefixInfo :=
  infoOf c clines (first (savings c clines) (range clines))

theorem best_congr (h : ∀ j, 0 < j → j < clines → c j = c' j) : best c clines = best c' clines := by
  have hfirst : first (savings c clines) (range clines) =
      first (savings c' clines) (range clines) :=
    first_congr fun i hi => savings_congr h (mem_range.mp hi)
  rw [best, best, hfirst]
  cases hcase : first (savings c' clines) (range clines) with
  | none => rfl
  | some i =>
    have hi := mem_range.mp (pos_of_first_eq_some hcase).1
    rw [infoOf, infoOf, savings_congr h hi, segment_congr h hi]

theorem summary_selectLoop (hlast : c clines = 0) (hclines : 3 ≤ clines) :
    (selectLoop c clines).summary = (best c clines).summary := by
  rw [selectLoop_eq hlast, best, summary_infoOf, summary_infoOf]
  congr 1
  apply map_first_eq
  · exact (pairwise_lt_range' ..).filter _
  · exact pairwise_lt_range
  · intro i hi
    have hmem := mem_range'_1.mp (mem_filter.mp hi).1
    exact mem_range.mpr (by omega)
  · intro i hi hpos
    exact matched_of_pos hclines (mem_range.mp hi) hpos
  · intro i j k hij hjk hk heq
    exact segment_between hij hjk (mem_range.mp hk) heq

theorem savings_two : savings c 2 0 = (c 1 : Int) - cbPrefixOverhead ∧
    savings c 2 1 = (c 1 : Int) - cbPrefixOverhead := by
  by_cases hpos : c 1 > 0
  · simp [savings, leftSum, rightSum, hpos]
  · have hzero : c 1 = 0 := Nat.eq_zero_of_not_pos hpos
    simp [savings, leftSum, rightSum, hzero]

theorem summary_best_two : (best c 2).summary = (btiSelectPrefix c 2).1.summary := by
  obtain ⟨hzero, hone⟩ := savings_two (c := c)
  have hfirst : first (savings c 2) (range 2) = if 0 < savings c 2 0 then some 0 else none := by
    have hrange : range 2 = [0] ++ [1] := rfl
    rw [hrange, first_append_of_le]
    · rfl
    · intro i hi
      rw [mem_singleton.mp hi, hone, ← hzero]
      exact le_value_first (mem_singleton_self 0)
  have hselect : (btiSelectPrefix c 2).1 =
      if savings c 2 0 > 0 then ⟨1, savings c 2 0, 0, 1⟩ else .null := by
    rw [hzero]
    rfl
  rw [best, hfirst, hselect]
  by_cases hpos : 0 < savings c 2 0
  · have hcommon : 0 < c 1 := by
      omega
    have hsegment : segment c 2 0 = (0, 1) := by
      simp [segment, segBegin, segStop, rightEnd, hcommon]
    rw [if_pos hpos, if_pos hpos, infoOf, hsegment]
    rfl
  · rw [if_neg hpos, if_neg hpos]
    rfl

theorem summary_btiSelectPrefix (rg : Lines) (clines : Nat) :
    (btiSelectPrefix rg clines).1.summary = (best rg clines).summary := by
  by_cases hsmall : clines < 2
  · rw [btiSelectPrefix, if_pos hsmall]
    obtain rfl | rfl : clines = 0 ∨ clines = 1 := by omega
    · rfl
    · rfl
  · by_cases htwo : clines = 2
    · rw [htwo]
      exact summary_best_two.symm
    · rw [btiSelectPrefix, if_neg hsmall, if_neg htwo]
      have hlast : setLine (setLine rg 0 0) clines 0 clines = 0 := if_pos rfl
      rw [summary_selectLoop hlast (by omega), best_congr]
      intro j hpos hj
      rw [setLine, if_neg (by omega), setLine, if_neg (by omega)]

theorem btiSelectPrefix_lines (rg : Lines) (clines : Nat) : (btiSelectPrefix rg clines).2 = rg := by
  rw [btiSelectPrefix]
  split
  · rfl
  · split
    · rfl
    · funext j
      simp only [setLine]
      split
      case isTrue heq => rw [heq]
      · split
        case isTrue heq => rw [heq]
        · rfl

theorem btiSelectPrefixCheck_eq (rg : Lines) (clines : Nat) :
    (btiSelectPrefixCheck rg clines).1 = best rg clines := by
  rw [btiSelectPrefixCheck]
  split
  case isTrue hone =>
    rw [hone]
    rfl
  · have hbest : best (setLine rg 0 0) clines = best rg clines :=
      best_congr fun j hpos _ => if_neg (by omega)
    rw [← hbest]
    exact foldl_tryLineCheck (range clines)

end Result

/-- The search of `BTISelectPrefix` finds the savings and the segment that trying every line finds,
and leaves the line array as it was, with the entry behind its last line. -/
theorem btiSelectPrefix_optimal (rg : Lines) (clines : Nat) :
    (btiSelectPrefix rg clines).1.summary = (btiSelectPrefixCheck rg clines).1.summary ∧
      (∀ i, i < clines → savings rg clines i ≤ (btiSelectPrefix rg clines).1.cbSavings) ∧
      (btiSelectPrefix rg clines).2 = rg := by
  refine ⟨?_, ?_, btiSelectPrefix_lines rg clines⟩
  · rw [summary_btiSelectPrefix, btiSelectPrefixCheck_eq]
  · intro i hi
    have hsavings : (btiSelectPrefix rg clines).1.cbSavings = (best rg clines).cbSavings :=
      congrArg Prod.fst (summary_btiSelectPrefix rg clines)
    have hle : savings rg clines i ≤
        value (savings rg clines) (first (savings rg clines) (range clines)) :=
      le_value_first (mem_range.mpr hi)
    rw [hsavings, best]
    cases hfirst : first (savings rg clines) (range clines) with
    | none => rw [hfirst] at hle; exact hle
    | some j => rw [hfirst] at hle; exact hle

end EseLinux.PrefixSelect
