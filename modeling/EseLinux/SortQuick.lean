import Mathlib.Algebra.Ring.Nat
import EseLinux.SegmentSort

/-!
The in-memory sort of sort pairs.  Parts of fewer than 32 pairs are sorted by insertion, larger
ones are divided at the median of three pairs; the larger half waits on a stack of 16 parts, and is
sorted by a recursive call when the stack is full.
-/

namespace EseLinux.SortQuick

open SegmentSort Function Std

variable {α : Type*} (cmp : α → α → Ordering)

/-- The comparison puts `x` before `y` or does not tell them apart. -/
def Le (x y : α) : Prop := (cmp x y).isLE = true

variable {cmp} in
theorem le_of_ne_gt {x y : α} (h : cmp x y ≠ .gt) : Le cmp x y := Ordering.isLE_iff_ne_gt.mpr h

variable {cmp} in
theorem le_of_gt [OrientedCmp cmp] {x y : α} (h : cmp x y = .gt) : Le cmp y x := by
  rw [Le, OrientedCmp.gt_iff_lt.mp h]
  rfl

instance isTrans_le [TransCmp cmp] : IsTrans α (Le cmp) := ⟨fun _ _ _ => TransCmp.isLE_trans⟩

/-- Moves the pairs greater than the key up by one, from the one before `hole` down, and puts the
key where they end. -/
def insertKey (spairMin : Nat) (key : α) : Nat → (Nat → α) → (Nat → α)
  | 0, a => update a 0 key
  | hole + 1, a =>
    if spairMin ≤ hole ∧ cmp (a hole) key = .gt then
      insertKey spairMin key hole (update a (hole + 1) (a hole))
    else update a (hole + 1) key

/-- One round: the pair at `last` is inserted into the sorted ones before it. -/
def insertPair (spairMin last : Nat) (a : Nat → α) : Nat → α :=
  if cmp (a (last - 1)) (a last) = .gt then
    insertKey cmp spairMin (a last) (last - 1) (update a last (a (last - 1)))
  else a

def insertPairs (spairMin : Nat) : Nat → Nat → (Nat → α) → (Nat → α)
  | 0, _, a => a
  | count + 1, last, a => insertPairs spairMin count (last + 1) (insertPair cmp spairMin last a)

def sortiInsertionSort (spairMin spairMax : Nat) (a : Nat → α) : Nat → α :=
  insertPairs cmp spairMin (spairMax - (spairMin + 1)) (spairMin + 1) a

def skipLe (a : Nat → α) (spairMin first last : Nat) : Nat :=
  if first ≤ last ∧ cmp (a first) (a spairMin) ≠ .gt then skipLe a spairMin (first + 1) last
  else first
termination_by last + 1 - first

/-- Goes back past all pairs greater than the divisor.  The divisor is before `first`, so `last`
does not go below it. -/
def skipGt (a : Nat → α) (spairMin first : Nat) : Nat → Nat
  | 0 => 0
  | last + 1 =>
    if first ≤ last + 1 ∧ cmp (a (last + 1)) (a spairMin) = .gt then skipGt a spairMin first last
    else last + 1

variable (a : Nat → α)

theorem le_skipLe (spairMin first last : Nat) : first ≤ skipLe cmp a spairMin first last := by
  fun_induction skipLe with
  | case1 first _ ih => omega
  | case2 => exact le_rfl

theorem skipGt_le (spairMin first last : Nat) : skipGt cmp a spairMin first last ≤ last := by
  induction last with
  | zero => exact le_rfl
  | succ last ih =>
    rw [skipGt]
    split
    · exact ih.trans (Nat.le_succ last)
    · exact le_rfl

def partitionLoop (a : Nat → α) (spairMin first last : Nat) : (Nat → α) × Nat :=
  let first' := skipLe cmp a spairMin first last
  let last' := skipGt cmp a spairMin first' last
  if h : first' < last' then partitionLoop (swap a first' last') spairMin (first' + 1) (last' - 1)
  else (a, last')
termination_by last + 1 - first
decreasing_by
  have hmet : skipLe cmp a spairMin first last <
      skipGt cmp a spairMin (skipLe cmp a spairMin first last) last := h
  have hfirst := le_skipLe cmp a spairMin first last
  have hlast := skipGt_le cmp a spairMin (skipLe cmp a spairMin first last) last
  omega

def sortTwo (a : Nat → α) (i j : Nat) : Nat → α :=
  if cmp (a i) (a j) = .gt then swap a i j else a

def medianFirst (a : Nat → α) (first middle last : Nat) : Nat → α :=
  sortTwo cmp (sortTwo cmp (sortTwo cmp a middle first) middle last) first last

def placeDivisor (a : Nat → α) (spairMin last : Nat) : Nat → α :=
  if last ≠ spairMin then swap a spairMin last else a

/-- Divides a part in two, with the divisor between them at the index returned. -/
def divide (a : Nat → α) (spairMin spairMax : Nat) : (Nat → α) × Nat :=
  let a' := medianFirst cmp a spairMin (spairMin + (spairMax - spairMin) / 2) (spairMax - 1)
  let r := partitionLoop cmp a' spairMin (spairMin + 1) (spairMax - 2)
  (placeDivisor r.1 spairMin r.2, r.2)

variable {spairMin last : Nat}

theorem update_update_swap (key : α) (hole : Nat) :
    update (update a (hole + 1) (a hole)) hole key =
      swap (update a (hole + 1) key) hole (hole + 1) := by
  funext i
  by_cases hi : i = hole
  · rw [hi, update_self, swap_left, update_self]
  · rw [update_of_ne hi]
    by_cases hi' : i = hole + 1
    · rw [hi', update_self, swap_right, update_of_ne (by omega)]
    · rw [swap_of_ne _ hi hi', update_of_ne hi', update_of_ne hi']

theorem rearranged_insertKey {spairMin hole : Nat} (key : α) (a : Nat → α) (h : spairMin ≤ hole) :
    Rearranged spairMin (hole + 1) (update a hole key)
      (insertKey cmp spairMin key hole a) := by
  induction hole generalizing a with
  | zero => exact Rearranged.refl _ _ _
  | succ hole ih =>
    rw [insertKey]
    split
    · rename_i hgt
      have hrest := ih (update a (hole + 1) (a hole)) hgt.1
      rw [update_update_swap] at hrest
      exact (rearranged_swap _ (by omega) (by omega)).trans (hrest.mono le_rfl (by omega))
    · exact Rearranged.refl _ _ _

theorem insertPair_eq (a : Nat → α) (hlast : spairMin < last) :
    insertPair cmp spairMin last a = insertKey cmp spairMin (a last) last a := by
  obtain ⟨prev, rfl⟩ : ∃ prev, last = prev + 1 := ⟨last - 1, by omega⟩
  simp only [insertPair, insertKey, Nat.add_sub_cancel, Nat.le_of_lt_succ hlast, true_and,
    update_eq_self]

/-- The scan from `first` stopped at `first'`. -/
structure SkipsLe (a : Nat → α) (spairMin first last first' : Nat) : Prop where
  le : first ≤ first'
  bound : first' ≤ last + 1
  skipped : ∀ i, first ≤ i → i < first' → Le cmp (a i) (a spairMin)
  stop : first' ≤ last → cmp (a first') (a spairMin) = .gt

/-- The scan back from `last` stopped at `last'`. -/
structure SkipsGt (a : Nat → α) (spairMin first last last' : Nat) : Prop where
  le : last' ≤ last
  bound : first ≤ last' + 1
  skipped : ∀ i, last' < i → i ≤ last → cmp (a i) (a spairMin) = .gt
  stop : first ≤ last' → Le cmp (a last') (a spairMin)

theorem skipLe_spec (spairMin : Nat) {first last : Nat} (h : first ≤ last + 1) :
    SkipsLe cmp a spairMin first last (skipLe cmp a spairMin first last) := by
  fun_induction skipLe cmp a spairMin first last with
  | case1 first hle ih =>
    have hrest := ih (by omega)
    refine ⟨Nat.le_of_succ_le hrest.le, hrest.bound, ?_, hrest.stop⟩
    intro i hi hlt
    by_cases hfirst : i = first
    · rw [hfirst]
      exact le_of_ne_gt hle.2
    · exact hrest.skipped i (by omega) hlt
  | case2 first hstop =>
    refine ⟨le_rfl, h, fun i hi hlt => by omega, ?_⟩
    intro hle
    by_contra hgt
    exact hstop ⟨hle, hgt⟩

theorem skipGt_spec (spairMin : Nat) {first last : Nat} (hpos : 0 < first)
    (h : first ≤ last + 1) :
    SkipsGt cmp a spairMin first last (skipGt cmp a spairMin first last) := by
  induction last with
  | zero =>
    rw [skipGt]
    exact ⟨le_rfl, h, fun i hi hle => by omega, fun hle => by omega⟩
  | succ last ih =>
    rw [skipGt]
    split
    · rename_i hgt
      have hrest := ih (by omega)
      refine ⟨Nat.le_succ_of_le hrest.le, hrest.bound, ?_, hrest.stop⟩
      intro i hi hle
      by_cases hlast : i = last + 1
      · rw [hlast]
        exact hgt.2
      · exact hrest.skipped i hi (by omega)
    · rename_i hstop
      refine ⟨le_rfl, h, fun i hi hle => by omega, ?_⟩
      intro hle
      exact le_of_ne_gt fun hgt => hstop ⟨hle, hgt⟩

/-- What partitioning the pairs from `first` to `last` does. -/
structure Divides (a : Nat → α) (spairMin first last : Nat) (r : (Nat → α) × Nat) : Prop where
  moved : Rearranged first (last + 1) a r.1
  bound : first ≤ r.2 + 1 ∧ r.2 ≤ last
  before : ∀ i, first ≤ i → i ≤ r.2 → Le cmp (r.1 i) (a spairMin)
  behind : ∀ i, r.2 < i → i ≤ last → cmp (r.1 i) (a spairMin) = .gt

theorem partitionLoop_divides {spairMin first : Nat} (last : Nat)
    (hmin : spairMin < first) (h : first ≤ last + 1) :
    Divides cmp a spairMin first last (partitionLoop cmp a spairMin first last) := by
  fun_induction partitionLoop cmp a spairMin first last with
  | case1 a first last first' last' hlt ih =>
    have hle : SkipsLe cmp a spairMin first last first' := skipLe_spec cmp a spairMin h
    have hgt : SkipsGt cmp a spairMin first' last last' :=
      skipGt_spec cmp a spairMin (by have := hle.le; omega) hle.bound
    have hfirst := hle.le
    have hlast := hgt.le
    clear_value last' first'
    obtain ⟨hmoved, hrange, hbefore, hbehind⟩ := ih (by omega) (by omega)
    have hdivisor : swap a first' last' spairMin = a spairMin := swap_of_ne a (by omega) (by omega)
    rw [hdivisor] at hbefore hbehind
    refine ⟨?_, by omega, ?_, ?_⟩
    · exact (rearranged_swap a (by omega) (by omega)).trans
        (hmoved.mono (by omega) (by omega))
    · intro i hi hir
      by_cases hin : first' + 1 ≤ i
      · exact hbefore i hin hir
      · rw [hmoved.outside (by omega)]
        by_cases hat : i = first'
        · rw [hat, swap_left]
          exact hgt.stop (by omega)
        · rw [swap_of_ne a hat (by omega)]
          exact hle.skipped i hi (by omega)
    · intro i hi hil
      by_cases hin : i ≤ last' - 1
      · exact hbehind i hi hin
      · rw [hmoved.outside (by omega)]
        by_cases hat : i = last'
        · rw [hat, swap_right]
          exact hle.stop (by omega)
        · rw [swap_of_ne a (by omega) hat]
          exact hgt.skipped i (by omega) hil
  | case2 a first last first' last' hge =>
    have hle : SkipsLe cmp a spairMin first last first' := skipLe_spec cmp a spairMin h
    have hgt : SkipsGt cmp a spairMin first' last last' :=
      skipGt_spec cmp a spairMin (by have := hle.le; omega) hle.bound
    have hfirst := hle.le
    have hbound := hgt.bound
    clear_value last' first'
    refine ⟨Rearranged.refl _ _ _, ⟨by omega, hgt.le⟩, ?_, hgt.skipped⟩
    intro i hi hil
    by_cases hin : i < first'
    · exact hle.skipped i hi hin
    · -- the sides have met, so this is the pair at which both of them stopped
      obtain rfl : i = last' := by omega
      exact hgt.stop (by omega)

theorem rearranged_sortTwo {m n i j : Nat} (hi : m ≤ i ∧ i < n)
    (hj : m ≤ j ∧ j < n) : Rearranged m n a (sortTwo cmp a i j) := by
  unfold sortTwo
  split
  · exact rearranged_swap a hi hj
  · exact Rearranged.refl _ _ _

theorem rearranged_medianFirst {m n first middle last : Nat}
    (hfirst : m ≤ first ∧ first < n) (hmiddle : m ≤ middle ∧ middle < n)
    (hlast : m ≤ last ∧ last < n) : Rearranged m n a (medianFirst cmp a first middle last) :=
  ((rearranged_sortTwo cmp a hmiddle hfirst).trans (rearranged_sortTwo cmp _ hmiddle hlast)).trans
    (rearranged_sortTwo cmp _ hfirst hlast)

theorem divide_bounds (spairMin spairMax : Nat) (h : 2 < spairMax - spairMin) :
    spairMin ≤ (divide cmp a spairMin spairMax).2 ∧
      (divide cmp a spairMin spairMax).2 < spairMax := by
  simp only [divide]
  have hbound := (partitionLoop_divides cmp
    (medianFirst cmp a spairMin (spairMin + (spairMax - spairMin) / 2) (spairMax - 1))
    (spairMax - 2) (Nat.lt_add_one spairMin) (by omega)).bound
  exact ⟨by omega, by omega⟩

theorem placeDivisor_spec {spairMin last n : Nat} (hmin : spairMin ≤ last)
    (hlast : last < n) (hbefore : ∀ i, spairMin + 1 ≤ i → i ≤ last → Le cmp (a i) (a spairMin)) :
    Rearranged spairMin n a (placeDivisor a spairMin last) ∧
      placeDivisor a spairMin last last = a spairMin ∧
      (∀ i, spairMin ≤ i → i < last → Le cmp (placeDivisor a spairMin last i) (a spairMin)) ∧
      ∀ i, last < i → placeDivisor a spairMin last i = a i := by
  unfold placeDivisor
  split
  · rename_i hne
    refine ⟨rearranged_swap a (by omega) (by omega), swap_right _ _ _, ?_, ?_⟩
    · intro i hi hlt
      by_cases hfirst : i = spairMin
      · rw [hfirst, swap_left]
        exact hbefore last (by omega) le_rfl
      · rw [swap_of_ne a hfirst (by omega)]
        exact hbefore i (by omega) hlt.le
    · intro i hi
      exact swap_of_ne a (by omega) (by omega)
  · rename_i heq
    rw [not_not] at heq
    rw [heq]
    exact ⟨Rearranged.refl _ _ _, rfl, fun i hi hlt => by omega, fun _ _ => rfl⟩

section Correct

variable [TransCmp cmp]

theorem sortedOn_insertKey {hole n : Nat} (key : α) (a : Nat → α) (hhole : hole < n)
    (hsorted : ∀ i j, spairMin ≤ i → i < j → j < n → j ≠ hole →
      Le cmp (update a hole key i) (update a hole key j)) :
    SortedOn (Le cmp) spairMin n (insertKey cmp spairMin key hole a) := by
  induction hole generalizing a with
  | zero =>
    intro i j hi hij hj
    exact hsorted i j hi hij hj (by omega)
  | succ hole ih =>
    rw [insertKey]
    set b := update a (hole + 1) key with hb
    have hbhole : b hole = a hole := update_of_ne (by omega) _ _
    have hbkey : b (hole + 1) = key := update_self _ _ _
    split
    · rename_i hgt
      apply ih _ (by omega)
      rw [update_update_swap, ← hb]
      intro i j hi hij hj hne
      have hkey : Le cmp (b (hole + 1)) (b hole) := by
        rw [hbkey, hbhole]
        exact le_of_gt hgt.2
      by_cases hjh : j = hole + 1
      · rw [hjh, swap_right]
        by_cases hih : i = hole
        · rw [hih, swap_left]
          exact hkey
        · rw [swap_of_ne _ hih (by omega)]
          exact hsorted i hole hi (by omega) (by omega) (by omega)
      · rw [swap_of_ne _ hne hjh]
        by_cases hih : i = hole
        · rw [hih, swap_left]
          exact hsorted (hole + 1) j (by omega) (by omega) hj hjh
        · by_cases hih' : i = hole + 1
          · rw [hih', swap_right]
            exact hsorted hole j (by omega) (by omega) hj hjh
          · rw [swap_of_ne _ hih hih']
            exact hsorted i j hi hij hj hjh
    · rename_i hstop
      intro i j hi hij hj
      by_cases hjh : j = hole + 1
      · have hlast : Le cmp (b hole) (b (hole + 1)) := by
          rw [hbkey, hbhole]
          exact le_of_ne_gt fun hgt => hstop ⟨by omega, hgt⟩
        rw [hjh]
        by_cases hih : i = hole
        · rw [hih]
          exact hlast
        · exact IsTrans.trans _ _ _ (hsorted i hole hi (by omega) (by omega) (by omega)) hlast
      · exact hsorted i j hi hij hj hjh

theorem insertPair_spec {a : Nat → α} (hlast : spairMin < last)
    (hsorted : SortedOn (Le cmp) spairMin last a) :
    Rearranged spairMin (last + 1) a (insertPair cmp spairMin last a) ∧
      SortedOn (Le cmp) spairMin (last + 1) (insertPair cmp spairMin last a) := by
  rw [insertPair_eq cmp a hlast]
  constructor
  · have hmoved := rearranged_insertKey cmp (a last) a hlast.le
    rwa [update_eq_self] at hmoved
  · apply sortedOn_insertKey cmp _ _ (Nat.lt_succ_self last)
    rw [update_eq_self]
    exact fun i j hi hij hj hne => hsorted i j hi hij (by omega)

theorem insertPairs_spec (count : Nat) {a : Nat → α} (hlast : spairMin < last)
    (hsorted : SortedOn (Le cmp) spairMin last a) :
    Rearranged spairMin (last + count) a (insertPairs cmp spairMin count last a) ∧
      SortedOn (Le cmp) spairMin (last + count) (insertPairs cmp spairMin count last a) := by
  induction count generalizing last a with
  | zero => exact ⟨Rearranged.refl _ _ _, hsorted⟩
  | succ count ih =>
    obtain ⟨hmoved, hnext⟩ := insertPair_spec cmp hlast hsorted
    obtain ⟨hrest, hdone⟩ := ih (by omega) hnext
    rw [insertPairs, show last + (count + 1) = last + 1 + count by omega]
    exact ⟨(hmoved.mono le_rfl (by omega)).trans hrest, hdone⟩

theorem sortiInsertionSort_spec (spairMin spairMax : Nat) (a : Nat → α) :
    Rearranged spairMin spairMax a (sortiInsertionSort cmp spairMin spairMax a) ∧
      SortedOn (Le cmp) spairMin spairMax (sortiInsertionSort cmp spairMin spairMax a) := by
  rw [sortiInsertionSort]
  by_cases hsize : spairMax ≤ spairMin + 1
  · rw [Nat.sub_eq_zero_of_le hsize]
    refine ⟨Rearranged.refl _ _ _, ?_⟩
    intro i j hi hij hj
    omega
  · have hspec := insertPairs_spec cmp (spairMax - (spairMin + 1)) (a := a)
      (Nat.lt_succ_self spairMin) (fun i j hi hij hj => by omega)
    rwa [show spairMin.succ + (spairMax - (spairMin + 1)) = spairMax by omega] at hspec

theorem sortTwo_le (i j : Nat) : Le cmp (sortTwo cmp a i j i) (sortTwo cmp a i j j) := by
  unfold sortTwo
  split
  · rename_i hgt
    rw [swap_left, swap_right]
    exact le_of_gt hgt
  · rename_i hngt
    exact le_of_ne_gt hngt

theorem divide_spec (spairMin spairMax : Nat) (h : 3 < spairMax - spairMin) :
    Rearranged spairMin spairMax a (divide cmp a spairMin spairMax).1 ∧
      (∀ i, spairMin ≤ i → i < (divide cmp a spairMin spairMax).2 →
        Le cmp ((divide cmp a spairMin spairMax).1 i)
          ((divide cmp a spairMin spairMax).1 (divide cmp a spairMin spairMax).2)) ∧
      ∀ i, (divide cmp a spairMin spairMax).2 < i → i < spairMax →
        Le cmp ((divide cmp a spairMin spairMax).1 (divide cmp a spairMin spairMax).2)
          ((divide cmp a spairMin spairMax).1 i) := by
  simp only [divide]
  have hmedian : Rearranged spairMin spairMax a
      (medianFirst cmp a spairMin (spairMin + (spairMax - spairMin) / 2) (spairMax - 1)) :=
    rearranged_medianFirst cmp a (by omega) (by omega) (by omega)
  have hlast := sortTwo_le cmp (sortTwo cmp (sortTwo cmp a
    (spairMin + (spairMax - spairMin) / 2) spairMin) (spairMin + (spairMax - spairMin) / 2)
    (spairMax - 1)) spairMin (spairMax - 1)
  rw [← medianFirst] at hlast
  generalize medianFirst cmp a spairMin (spairMin + (spairMax - spairMin) / 2) (spairMax - 1) = b
    at *
  obtain ⟨hmoved, hbound, hbefore, hbehind⟩ := partitionLoop_divides cmp b (spairMax - 2)
    (Nat.lt_add_one spairMin) (by omega)
  generalize partitionLoop cmp b spairMin (spairMin + 1) (spairMax - 2) = r at *
  have hdivisor : r.1 spairMin = b spairMin := hmoved.outside (by omega)
  have hend : r.1 (spairMax - 1) = b (spairMax - 1) := hmoved.outside (by omega)
  rw [← hdivisor] at hbefore hbehind hlast
  obtain ⟨hswap, hat, hfront, hrest⟩ := placeDivisor_spec cmp r.1 (n := spairMax) (by omega)
    (by omega) hbefore
  refine ⟨(hmedian.trans (hmoved.mono (by omega) (by omega))).trans hswap, ?_, ?_⟩
  · intro i hi hlt
    rw [hat]
    exact hfront i hi hlt
  · intro i hi hlt
    rw [hat, hrest i hi]
    by_cases hin : i = spairMax - 1
    · rw [hin, hend]
      exact hlast
    · exact le_of_gt (hbehind i hi (by omega))

end Correct

def cspairQSortMin : Nat := 32

def cpartQSortMax : Nat := 16

def larger (spairMin spairMax last : Nat) : (Nat × Nat) × (Nat × Nat) :=
  if spairMax - last - 1 > last - spairMin then ((last + 1, spairMax), (spairMin, last))
  else ((spairMin, last), (last + 1, spairMax))

/-- What is left to do for a part: it is taken up once, and so is every part made of it. -/
def weight (part : Nat × Nat) : Nat := 2 * (part.2 - part.1) + 1

variable {spairMax : Nat}

theorem weight_larger (hmin : spairMin ≤ last) (hmax : last < spairMax) :
    weight (larger spairMin spairMax last).1 + weight (larger spairMin spairMax last).2 <
      weight (spairMin, spairMax) := by
  unfold larger weight
  split <;> dsimp only <;> omega

theorem weight_pos (part : Nat × Nat) : 0 < weight part := Nat.succ_pos _

theorem weight_mk (part : Nat × Nat) : weight (part.1, part.2) = weight part := rfl

def halves (a : Nat → α) (spairMin spairMax : Nat) : (Nat × Nat) × (Nat × Nat) :=
  larger spairMin spairMax (divide cmp a spairMin spairMax).2

theorem weight_halves (h : ¬ spairMax - spairMin < cspairQSortMin) :
    weight (halves cmp a spairMin spairMax).1 + weight (halves cmp a spairMin spairMax).2 <
      weight (spairMin, spairMax) := by
  unfold cspairQSortMin at h
  have hbound := divide_bounds cmp a spairMin spairMax (by omega)
  exact weight_larger hbound.1 hbound.2

def sortiQuicksort (a : Nat → α) (spairMin spairMax : Nat) (rgpart : List (Nat × Nat)) :
    Nat → α :=
  if _h : spairMax - spairMin < cspairQSortMin then
    match rgpart with
    | [] => sortiInsertionSort cmp spairMin spairMax a
    | part :: rgpart =>
      sortiQuicksort (sortiInsertionSort cmp spairMin spairMax a) part.1 part.2 rgpart
  else if rgpart.length < cpartQSortMax then
    sortiQuicksort (divide cmp a spairMin spairMax).1 (halves cmp a spairMin spairMax).2.1
      (halves cmp a spairMin spairMax).2.2 ((halves cmp a spairMin spairMax).1 :: rgpart)
  else
    sortiQuicksort
      (sortiQuicksort (divide cmp a spairMin spairMax).1 (halves cmp a spairMin spairMax).1.1
        (halves cmp a spairMin spairMax).1.2 [])
      (halves cmp a spairMin spairMax).2.1 (halves cmp a spairMin spairMax).2.2 rgpart
termination_by weight (spairMin, spairMax) + (rgpart.map weight).sum
decreasing_by
  · rw [List.map_cons, List.sum_cons, weight_mk]
    have := weight_pos (spairMin, spairMax)
    omega
  all_goals
    have hweight := weight_halves cmp a _h
    simp only [List.map_cons, List.map_nil, List.sum_cons, List.sum_nil, weight_mk]
    omega

section Correct

variable [TransCmp cmp]

theorem pending_halves {lo hi : Nat} {a : Nat → α} {parts : List (Nat × Nat)}
    (h : Pending (Le cmp) lo hi a ((spairMin, spairMax) :: parts))
    (hsize : ¬ spairMax - spairMin < cspairQSortMin) :
    Rearranged lo hi a (divide cmp a spairMin spairMax).1 ∧
      Pending (Le cmp) lo hi (divide cmp a spairMin spairMax).1
        ((halves cmp a spairMin spairMax).1 :: (halves cmp a spairMin spairMax).2 :: parts) := by
  unfold cspairQSortMin at hsize
  have hin := h.inside _ List.mem_cons_self
  have hbound := divide_bounds cmp a spairMin spairMax (by omega)
  obtain ⟨hmoved, hbefore, hbehind⟩ := divide_spec cmp a spairMin spairMax (by omega)
  refine ⟨hmoved.mono hin.1 hin.2, ?_⟩
  unfold halves larger
  split
  · exact .exchange (h.split hmoved hbound.1 hbound.2 (by omega) hbefore hbehind)
  · exact h.split hmoved hbound.1 hbound.2 (by omega) hbefore hbehind

theorem sortiQuicksort_pending (spairMin spairMax : Nat) (rgpart : List (Nat × Nat))
    {lo hi : Nat} (h : Pending (Le cmp) lo hi a ((spairMin, spairMax) :: rgpart)) :
    Rearranged lo hi a (sortiQuicksort cmp a spairMin spairMax rgpart) ∧
      SortedOn (Le cmp) lo hi (sortiQuicksort cmp a spairMin spairMax rgpart) := by
  fun_induction sortiQuicksort cmp a spairMin spairMax rgpart generalizing lo hi with
  | case1 a spairMin spairMax hsize =>
    exact (h.solve (sortiInsertionSort_spec cmp spairMin spairMax a)).imp_right Pending.sortedOn
  | case2 a spairMin spairMax hsize part rgpart ih =>
    exact sorts_of_step (h.solve (sortiInsertionSort_spec cmp spairMin spairMax a)) ih
  | case3 a spairMin spairMax rgpart hsize hroom ih =>
    exact sorts_of_step ((pending_halves cmp h hsize).imp_right Pending.exchange) ih
  | case4 a spairMin spairMax rgpart hsize hroom ihcall ih =>
    -- the stack is full, so the larger half is sorted by a call of its own
    obtain ⟨hmoved, hparts⟩ := pending_halves cmp h hsize
    obtain ⟨hcall, hparts⟩ := hparts.solve (ihcall (pending_whole (Le cmp) _ _ _))
    exact sorts_of_step ⟨hmoved.trans hcall, hparts⟩ ih

theorem sortiQuicksort_spec (spairMin spairMax : Nat) :
    Rearranged spairMin spairMax a (sortiQuicksort cmp a spairMin spairMax []) ∧
      SortedOn (Le cmp) spairMin spairMax (sortiQuicksort cmp a spairMin spairMax []) :=
  sortiQuicksort_pending cmp a spairMin spairMax [] (pending_whole (Le cmp) _ _ a)

end Correct

end EseLinux.SortQuick
