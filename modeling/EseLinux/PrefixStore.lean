import EseLinux.PrefixEdge
import EseLinux.SeparatorKey
import Mathlib.Algebra.BigOperators.Intervals

/-!
What a prefix saves.  The lengths that a split sets for the nodes of a page are what their keys have
in common with the key chosen as the prefix, and the page gets smaller by the savings of the choice.
-/

namespace EseLinux.PrefixSelect

open ByteMemory FirstMax KeyCompare Function

structure LineInfo where
  kdf : KeyData
  cbSize : Nat
  cbSizeMax : Nat
  cbSizeLE : Nat
  cbSizeMaxLE : Nat
  cbCommonPrev : Nat
  cbPrefix : Nat

abbrev LineInfos := Nat → LineInfo

def commonPrev (rg : LineInfos) : Lines := fun i => (rg i).cbCommonPrev

def setCbPrefix (rg : LineInfos) (iline cb : Nat) : LineInfos :=
  update rg iline { rg iline with cbPrefix := cb }

/-- What counts of the bytes that a key has in common with the key before it. -/
def cbCommonPrevOf (m : Memory) (key keyPrev : Key) : Nat :=
  let cbCommonKey := cbCommonKey m key keyPrev
  if cbCommonKey > cbPrefixOverhead then cbCommonKey - cbPrefixOverhead else 0

def recalcLine (m : Memory) (rg : LineInfos) (iline : Nat) : LineInfos :=
  let rg := update rg iline
    { rg iline with
      cbSizeLE := (rg (iline - 1)).cbSizeLE + (rg iline).cbSize
      cbSizeMaxLE := (rg (iline - 1)).cbSizeMaxLE + (rg iline).cbSizeMax
      cbCommonPrev := cbCommonPrevOf m (rg iline).kdf.key (rg (iline - 1)).kdf.key }
  setCbPrefix rg 0 0

/-- What `BTIRecalcWeightsLE` sets for the first line. -/
def recalcFirst (rg : LineInfos) : LineInfos :=
  update rg 0
    { rg 0 with
      cbSizeLE := (rg 0).cbSize
      cbSizeMaxLE := (rg 0).cbSizeMax
      cbCommonPrev := 0
      cbPrefix := 0 }

def btiRecalcWeightsLE (m : Memory) (rg : LineInfos) (clines : Nat) : LineInfos :=
  (List.range' 1 (clines - 1)).foldl (recalcLine m) (recalcFirst rg)

/-- The loop of `BTISetPrefix` over the previous lines: the lines, and the shortest common part. -/
def setLeft (ilineSegLeft : Nat) : Nat → Nat → LineInfos → LineInfos × Nat
  | 0, cbCommonMin, rg => (rg, cbCommonMin)
  | iline + 1, cbCommonMin, rg =>
    if iline + 1 > ilineSegLeft then
      let cbCommonMin :=
        if cbCommonMin > (rg (iline + 1)).cbCommonPrev then (rg (iline + 1)).cbCommonPrev
        else cbCommonMin
      setLeft ilineSegLeft iline cbCommonMin (setCbPrefix rg iline (cbCommonMin + cbPrefixOverhead))
    else (rg, cbCommonMin)

/-- The loop over the following lines, with `cLeft` lines left. -/
def setRight (ilinePrefix : Nat) : Nat → Nat → Nat → LineInfos → LineInfos
  | 0, _, _, rg => rg
  | cLeft + 1, iline, cbCommonMin, rg =>
    let cbCommonMin :=
      if iline = ilinePrefix + 1 then (rg iline).cbCommonPrev
      else if cbCommonMin > (rg iline).cbCommonPrev then (rg iline).cbCommonPrev else cbCommonMin
    setRight ilinePrefix cLeft (iline + 1) cbCommonMin
      (setCbPrefix rg iline (cbCommonMin + cbPrefixOverhead))

def btiSetPrefix (rg : LineInfos) (clines : Nat) (prefixinfo : PrefixInfo) : LineInfos :=
  let rg : LineInfos := fun i => if i < clines then { rg i with cbPrefix := 0 } else rg i
  if ilineInvalid = prefixinfo.ilinePrefix then rg
  else
    let ilinePrefix := prefixinfo.ilinePrefix.toNat
    let rg := setCbPrefix rg ilinePrefix (rg ilinePrefix).kdf.key.cb
    let left := setLeft prefixinfo.ilineSegBegin ilinePrefix (rg ilinePrefix).cbCommonPrev rg
    setRight ilinePrefix (prefixinfo.ilineSegEnd - ilinePrefix) (ilinePrefix + 1) left.2 left.1

def cbKeyCount : Nat := 2

def cbInsertionOverhead : Nat := 4

def cbNDNullKeyData : Nat := cbKeyCount + cbInsertionOverhead

def cbNDNodeSizeTotal (kdf : KeyData) : Nat := kdf.key.cb + kdf.data.cb + cbNDNullKeyData

def cbNDNodeSizeCompressed (kdf : KeyData) : Nat :=
  let cbSize := kdf.key.suffix.cb + kdf.data.cb + cbNDNullKeyData
  if kdf.key.keyPrefix.cb > 0 then cbSize + cbPrefixOverhead else cbSize

/-- The node with the first `cbPrefix` bytes of its key in the prefix; only the sizes count. -/
def withPrefix (kdf : KeyData) (cbPrefix : Nat) : KeyData :=
  { kdf with key := ⟨⟨kdf.key.keyPrefix.pv, cbPrefix⟩, ⟨kdf.key.suffix.pv, kdf.key.cb - cbPrefix⟩⟩ }

variable {i j n : Nat}

section Loops

variable {rg : LineInfos} {d : Nat → Nat}

theorem setCbPrefix_self (rg : LineInfos) (i cb : Nat) :
    setCbPrefix rg i cb i = { rg i with cbPrefix := cb } :=
  update_self ..

theorem setCbPrefix_of_ne (rg : LineInfos) (cb : Nat) (h : j ≠ i) : setCbPrefix rg i cb j = rg j :=
  update_of_ne h ..

theorem setCbPrefix_commonPrev (rg : LineInfos) (i cb : Nat) :
    commonPrev (setCbPrefix rg i cb) = commonPrev rg := by
  funext j
  by_cases h : j = i
  · rw [commonPrev, h, setCbPrefix_self, commonPrev]
  · rw [commonPrev, setCbPrefix_of_ne rg cb h, commonPrev]

/-- The lines with their `cbPrefix` set to `d` where `s` holds. -/
def setWhere (rg : LineInfos) (s : Nat → Prop) [DecidablePred s] (d : Nat → Nat) : LineInfos :=
  fun j => if s j then { rg j with cbPrefix := d j } else rg j

theorem setWhere_setCbPrefix {s s' : Nat → Prop} [DecidablePred s] [DecidablePred s']
    (h : ∀ j, s' j ↔ j = i ∨ s j) : setWhere (setCbPrefix rg i (d i)) s d = setWhere rg s' d := by
  funext j
  rw [setWhere, setWhere]
  by_cases hji : j = i
  · rw [hji, setCbPrefix_self, if_pos ((h i).mpr (.inl rfl))]
    exact ite_id _
  · rw [setCbPrefix_of_ne rg _ hji]
    by_cases hs : s j
    · rw [if_pos hs, if_pos ((h j).mpr (.inr hs))]
    · have hs' : ¬ s' j := fun hs' => ((h j).mp hs').elim hji hs
      rw [if_neg hs, if_neg hs']

theorem setWhere_commonPrev (rg : LineInfos) (s : Nat → Prop) [DecidablePred s] (d : Nat → Nat) :
    commonPrev (setWhere rg s d) = commonPrev rg := by
  funext j
  rw [commonPrev, setWhere, commonPrev]
  split <;> rfl

theorem setWhere_empty {s : Nat → Prop} [DecidablePred s] (h : ∀ j, ¬ s j) :
    setWhere rg s d = rg := by
  funext j
  rw [setWhere, if_neg (h j)]

theorem setLeft_eq {seg m : Nat}
    (hstep : ∀ k, seg < k → k < i → min (d k) (commonPrev rg k + cbPrefixOverhead) = d (k - 1))
    (hfirst : seg < i → min m (commonPrev rg i) + cbPrefixOverhead = d (i - 1)) :
    (setLeft seg i m rg).1 = setWhere rg (fun j => seg ≤ j ∧ j < i) d := by
  induction i generalizing m rg with
  | zero => exact (setWhere_empty fun j => by omega).symm
  | succ i ih =>
    rw [setLeft]
    split
    case isTrue hseg =>
      have hcb : min m (commonPrev rg (i + 1)) + cbPrefixOverhead = d i := hfirst hseg
      simp only [ite_gt_eq_min]
      change (setLeft seg i (min m (commonPrev rg (i + 1))) (setCbPrefix rg i
        (min m (commonPrev rg (i + 1)) + cbPrefixOverhead))).1 = _
      rw [hcb, ih]
      · exact setWhere_setCbPrefix fun j => by omega
      · intro k hk hki
        rw [setCbPrefix_commonPrev]
        exact hstep k hk (by omega)
      · intro hsegi
        rw [setCbPrefix_commonPrev, ← hstep i hsegi (by omega), ← hcb, Nat.add_min_add_right]
    case isFalse hseg => exact (setWhere_empty fun j => by omega).symm

theorem setRight_eq {p m : Nat} (hstep : ∀ k, i ≤ k → k + 1 < i + n →
      min (d k) (commonPrev rg (k + 1) + cbPrefixOverhead) = d (k + 1)) (hip : p + 1 ≤ i)
    (hfirst : 0 < n → (if i = p + 1 then commonPrev rg i else min m (commonPrev rg i)) +
      cbPrefixOverhead = d i) :
    setRight p n i m rg = setWhere rg (fun j => i ≤ j ∧ j < i + n) d := by
  induction n generalizing i m rg with
  | zero => exact (setWhere_empty fun j => by omega).symm
  | succ n ih =>
    have hcb := hfirst (Nat.zero_lt_succ n)
    rw [setRight]
    simp only [ite_gt_eq_min]
    change setRight p n (i + 1) (if i = p + 1 then commonPrev rg i else min m (commonPrev rg i))
      (setCbPrefix rg i ((if i = p + 1 then commonPrev rg i else min m (commonPrev rg i)) +
        cbPrefixOverhead)) = _
    rw [hcb, ih _ (by omega)]
    · exact setWhere_setCbPrefix fun j => by omega
    · intro hn
      rw [setCbPrefix_commonPrev, if_neg (by omega), ← hstep i (le_rfl) (by omega), ← hcb,
        Nat.add_min_add_right]
    · intro k hk hkn
      rw [setCbPrefix_commonPrev]
      exact hstep k (by omega) (by omega)

end Loops

section Sums

variable {c : Lines} {d : Nat → Nat}

open Finset in
theorem leftSum_eq_sum {i m : Nat}
    (hstep : ∀ k, segBegin c i < k → k < i → min (d k) (c k + cbPrefixOverhead) = d (k - 1))
    (hfirst : segBegin c i < i → min m (c i) + cbPrefixOverhead = d (i - 1)) :
    leftSum c i m = ∑ j ∈ range i, if segBegin c i ≤ j then d j - cbPrefixOverhead else 0 := by
  induction i generalizing m with
  | zero => rfl
  | succ i ih =>
    rw [segBegin] at hstep hfirst ⊢
    rw [leftSum]
    by_cases hpos : c (i + 1) > 0
    · have hle := segBegin_le (c := c) i
      simp only [if_pos hpos] at hstep hfirst ⊢
      have hcb : min m (c (i + 1)) + cbPrefixOverhead = d i := hfirst (by omega)
      rw [sum_range_succ, if_pos hle, ← ih, ← hcb, Nat.add_sub_cancel, Nat.add_comm]
      · exact fun k hk hki => hstep k hk (by omega)
      · intro hsegi
        rw [← hstep i hsegi (by omega), ← hcb, Nat.add_min_add_right]
    · simp only [if_neg hpos]
      symm
      apply sum_eq_zero
      intro j hj
      have hlt := mem_range.mp hj
      exact if_neg (by omega)

open Finset in
theorem rightSum_eq_sum {n i m : Nat}
    (hstep : ∀ k, i ≤ k → k + 1 < rightEnd c n i →
      min (d k) (c (k + 1) + cbPrefixOverhead) = d (k + 1))
    (hfirst : i < rightEnd c n i → min m (c i) + cbPrefixOverhead = d i) :
    rightSum c n i m =
      ∑ j ∈ range n, if i + j < rightEnd c n i then d (i + j) - cbPrefixOverhead else 0 := by
  induction n generalizing i m with
  | zero => rfl
  | succ n ih =>
    rw [rightEnd] at hstep hfirst ⊢
    rw [rightSum]
    by_cases hpos : c i > 0
    · have hle : i + 1 ≤ rightEnd c n (i + 1) := (rightEnd_le n (i + 1)).1
      simp only [if_pos hpos] at hstep hfirst ⊢
      have hcb : min m (c i) + cbPrefixOverhead = d i := hfirst (by omega)
      have hzero : d (i + 0) = min m (c i) + cbPrefixOverhead := hcb.symm
      rw [sum_range_succ', if_pos (show i + 0 < rightEnd c n (i + 1) by omega), hzero, ih,
        Nat.add_sub_cancel, Nat.add_comm]
      · congr 1
        apply sum_congr rfl
        intro j _
        rw [Nat.add_right_comm, Nat.add_assoc]
      · exact fun k hk hki => hstep k (by omega) hki
      · intro hlt
        rw [← hstep i (Nat.le_refl i) hlt, ← hcb, Nat.add_min_add_right]
    · simp only [if_neg hpos]
      symm
      apply sum_eq_zero
      intro j _
      exact if_neg (by omega)

end Sums

section Segment

variable {c : Lines} {n i k : Nat}

theorem pos_of_segBegin_lt (hk : segBegin c i < k) (hki : k ≤ i) : 0 < c k := by
  apply pos_of_ne_zero
  intro hzero
  have hle := le_segBegin hzero (by omega) hki
  omega

theorem pos_of_lt_rightEnd (hik : i ≤ k) (hk : k < rightEnd c n i) : 0 < c k := by
  apply pos_of_ne_zero
  intro hzero
  have hend := (rightEnd_le (c := c) n i).2
  have hle := rightEnd_le_of_zero (n := n) hzero hik (by omega)
  omega

theorem btiSelectPrefix_eq_infoOf (c : Lines) (n : Nat) :
    ∃ best, (btiSelectPrefix c n).1 = infoOf c n best ∧ ∀ i ∈ best, i < n ∧ 0 < savings c n i := by
  by_cases hsmall : n < 2
  · refine ⟨none, ?_, by simp⟩
    rw [btiSelectPrefix, if_pos hsmall]
    rfl
  · by_cases htwo : n = 2
    · obtain rfl := htwo
      have hselect : (btiSelectPrefix c 2).1 =
          if savings c 2 1 > 0 then ⟨1, savings c 2 1, 0, 1⟩ else .null := by
        rw [savings_two.2]
        rfl
      by_cases hpos : savings c 2 1 > 0
      · have hcommon : 0 < c 1 := by
          rw [savings_two.2, cbPrefixOverhead] at hpos
          omega
        have hsegment : segment c 2 1 = (0, 1) := by
          simp [segment, segBegin, segStop, rightEnd, hcommon]
        refine ⟨some 1, ?_, ?_⟩
        · rw [hselect, if_pos hpos, infoOf, hsegment]
          rfl
        · rintro i ⟨⟩
          exact ⟨by decide, hpos⟩
      · refine ⟨none, ?_, by simp⟩
        rw [hselect, if_neg hpos]
        rfl
    · -- the two entries that are borrowed play no part
      rw [btiSelectPrefix, if_neg hsmall, if_neg htwo]
      dsimp only
      generalize hc' : setLine (setLine c 0 0) n 0 = c'
      have hlast : c' n = 0 := by
        rw [← hc']
        exact if_pos rfl
      have hsame (j : Nat) (hpos : 0 < j) (hj : j < n) : c' j = c j := by
        rw [← hc', setLine, if_neg (by omega), setLine, if_neg (by omega)]
      rw [selectLoop_eq hlast]
      refine ⟨first (savings c' n) (tried c' n), ?_, ?_⟩
      · cases hfirst : first (savings c' n) (tried c' n) with
        | none => rfl
        | some i =>
          have hmem := List.mem_range'_1.mp
            (List.mem_filter.mp (pos_of_first_eq_some hfirst).1).1
          rw [infoOf, infoOf, savings_congr hsame (by omega), segment_congr hsame (by omega)]
      · intro i hi
        obtain ⟨hmem, hpos⟩ := pos_of_first_eq_some hi
        have hlt := List.mem_range'_1.mp (List.mem_filter.mp hmem).1
        have hin : i < n := by omega
        rw [savings_congr hsame hin] at hpos
        exact ⟨hin, hpos⟩

end Segment

section Page

variable {m : Memory} {rg : LineInfos} {n p : Nat}

def keyOf (m : Memory) (rg : LineInfos) (i : Nat) : List UInt8 := (rg i).kdf.key.bytes m

/-- Each key but the first is null or not below the one before it, and is weighed against it. -/
structure Weighed (m : Memory) (rg : LineInfos) (n : Nat) : Prop where
  common : ∀ i, 0 < i → i < n →
    (rg i).cbCommonPrev = cbCommonPrevOf m (rg i).kdf.key (rg (i - 1)).kdf.key
  ascending : ∀ i, 0 < i → i < n →
    (rg i).kdf.key.cb = 0 ∨ compare (keyOf m rg (i - 1)) (keyOf m rg i) ≠ .gt

theorem Weighed.commonLength_eq (h : Weighed m rg n) (hi : i < n) (hpos : 0 < i)
    (hcommon : 0 < commonPrev rg i) :
    commonLength (keyOf m rg (i - 1)) (keyOf m rg i) = commonPrev rg i + cbPrefixOverhead := by
  rw [commonPrev, h.common i hpos hi, cbCommonPrevOf] at hcommon ⊢
  rw [cbCommonKey_eq] at hcommon ⊢
  rw [commonLength_comm]
  split at hcommon
  case isTrue hgt =>
    rw [if_pos hgt, Nat.sub_add_cancel (hgt.le)]
    rfl
  · omega

theorem Weighed.compare_ne_gt (h : Weighed m rg n) (hi : i < n) (hpos : 0 < i)
    (hcommon : 0 < commonPrev rg i) : compare (keyOf m rg (i - 1)) (keyOf m rg i) ≠ .gt := by
  have heq := h.commonLength_eq hi hpos hcommon
  have hle := commonLength_le_right (keyOf m rg (i - 1)) (keyOf m rg i)
  rw [keyOf, keyOf, Key.bytes_length] at hle
  rcases h.ascending i hpos hi with hnull | hasc
  · rw [keyOf, keyOf, cbPrefixOverhead] at heq
    omega
  · exact hasc

variable {k : Nat}

theorem Weighed.compare_ne_gt_of_le (h : Weighed m rg n) (hjk : j ≤ k) (hk : k < n)
    (hcommon : ∀ i, j < i → i ≤ k → 0 < commonPrev rg i) :
    compare (keyOf m rg j) (keyOf m rg k) ≠ .gt := by
  induction k with
  | zero =>
    obtain rfl : j = 0 := by omega
    rw [Std.ReflOrd.compare_self]
    decide
  | succ k ih =>
    by_cases heq : j = k + 1
    · rw [heq, Std.ReflOrd.compare_self]
      decide
    · have hfirst := ih (by omega) (by omega) fun i hi hik => hcommon i hi (by omega)
      have hlast : compare (keyOf m rg k) (keyOf m rg (k + 1)) ≠ .gt :=
        h.compare_ne_gt hk (Nat.zero_lt_succ k) (hcommon _ (by omega) (le_rfl))
      rw [ne_eq, ← Ordering.isLE_iff_ne_gt] at hfirst hlast ⊢
      exact Std.TransOrd.isLE_trans hfirst hlast

theorem commonLength_self (xs : List UInt8) : commonLength xs xs = xs.length := by
  induction xs with
  | nil => rfl
  | cons x xs ih => rw [commonLength, if_pos rfl, ih, List.length_cons]

section

variable (h : Weighed m rg n)
include h

theorem Weighed.left_step (hp : p < n) (hk : segBegin (commonPrev rg) p < k) (hkp : k < p) :
    min (commonLength (keyOf m rg k) (keyOf m rg p)) (commonPrev rg k + cbPrefixOverhead) =
      commonLength (keyOf m rg (k - 1)) (keyOf m rg p) := by
  have hpos (i : Nat) (hi : k - 1 < i) (hip : i ≤ p) : 0 < commonPrev rg i :=
    pos_of_segBegin_lt (by omega) hip
  have hk0 : 0 < k := by omega
  rw [← h.commonLength_eq (by omega) hk0 (hpos k (by omega) (by omega)), min_comm]
  symm
  apply commonLength_of_between
  · exact h.compare_ne_gt (by omega) hk0 (hpos k (by omega) (by omega))
  · exact h.compare_ne_gt_of_le (by omega) hp fun i hi hip => hpos i (by omega) hip

theorem Weighed.right_step (hp : p < n) (hpk : p < k) (hk : k + 1 < segStop (commonPrev rg) n p) :
    min (commonLength (keyOf m rg k) (keyOf m rg p)) (commonPrev rg (k + 1) + cbPrefixOverhead) =
      commonLength (keyOf m rg (k + 1)) (keyOf m rg p) := by
  have hstop := (rightEnd_le (c := commonPrev rg) (n - (p + 1)) (p + 1)).2
  rw [segStop] at hk
  have hpos (i : Nat) (hi : p < i) (hik : i ≤ k + 1) : 0 < commonPrev rg i :=
    pos_of_lt_rightEnd (n := n - (p + 1)) (i := p + 1) hi (by omega)
  have hkn : k + 1 < n := by omega
  have hcommon := h.commonLength_eq hkn (Nat.zero_lt_succ k) (hpos _ (by omega) (le_rfl))
  rw [← hcommon, commonLength_comm (keyOf m rg k), commonLength_comm (keyOf m rg (k + 1))]
  symm
  apply commonLength_of_between
  · exact h.compare_ne_gt_of_le (by omega) (by omega) fun i hi hik => hpos i hi (by omega)
  · exact h.compare_ne_gt hkn (Nat.zero_lt_succ k) (hpos _ (by omega) (le_rfl))

theorem Weighed.left_first (hp : p < n) (hseg : segBegin (commonPrev rg) p < p) :
    min (commonPrev rg p) (commonPrev rg p) + cbPrefixOverhead =
      commonLength (keyOf m rg (p - 1)) (keyOf m rg p) := by
  rw [min_self]
  exact (h.commonLength_eq hp (by omega) (pos_of_segBegin_lt hseg (le_rfl))).symm

theorem Weighed.right_first (hp : p < n) (hseg : p + 1 < segStop (commonPrev rg) n p) :
    commonPrev rg (p + 1) + cbPrefixOverhead =
      commonLength (keyOf m rg (p + 1)) (keyOf m rg p) := by
  have hstop := (rightEnd_le (c := commonPrev rg) (n - (p + 1)) (p + 1)).2
  rw [segStop] at hseg
  rw [commonLength_comm]
  exact (h.commonLength_eq (i := p + 1) (by omega) (Nat.zero_lt_succ p)
    (pos_of_lt_rightEnd (le_rfl) hseg)).symm

theorem Weighed.btiSetPrefix_apply (hp : p < n) (hj : j < n) :
    btiSetPrefix rg n (infoOf (commonPrev rg) n (some p)) j = { rg j with
        cbPrefix :=
          if segBegin (commonPrev rg) p ≤ j ∧ j < segStop (commonPrev rg) n p then
            commonLength (keyOf m rg j) (keyOf m rg p)
          else 0 } := by
  have hbegin := segBegin_le (c := commonPrev rg) p
  have hstop : p + 1 ≤ segStop (commonPrev rg) n p := (rightEnd_le (n - (p + 1)) (p + 1)).1
  generalize hrg₀ : (fun i => if i < n then { rg i with cbPrefix := 0 } else rg i : LineInfos) = rg₀
  have hcommon₀ : commonPrev rg₀ = commonPrev rg := by
    rw [← hrg₀]
    funext i
    rw [commonPrev]
    split <;> rfl
  generalize hrg₁ : setCbPrefix rg₀ p (rg₀ p).kdf.key.cb = rg₁
  have hcommon : commonPrev rg₁ = commonPrev rg := by
    rw [← hrg₁, setCbPrefix_commonPrev, hcommon₀]
  have hleft : (setLeft (segBegin (commonPrev rg) p) p (commonPrev rg p) rg₁).1 =
      setWhere rg₁ (fun i => segBegin (commonPrev rg) p ≤ i ∧ i < p)
        fun i => commonLength (keyOf m rg i) (keyOf m rg p) := by
    apply setLeft_eq
    · intro k hk hkp
      rw [hcommon]
      exact h.left_step hp hk hkp
    · intro hseg
      rw [hcommon]
      exact h.left_first hp hseg
  generalize hright : segStop (commonPrev rg) n p - 1 - p = cRight
  have hset : btiSetPrefix rg n (infoOf (commonPrev rg) n (some p)) =
      setRight p cRight (p + 1) (setLeft (segBegin (commonPrev rg) p) p (commonPrev rg p) rg₁).2
        (setLeft (segBegin (commonPrev rg) p) p (commonPrev rg p) rg₁).1 := by
    have hvalid : ¬ ilineInvalid = (infoOf (commonPrev rg) n (some p)).ilinePrefix := by
      change ¬ (-1 : Int) = p
      omega
    rw [← congrFun hcommon p, btiSetPrefix, if_neg hvalid]
    subst hright hrg₁ hrg₀
    rfl
  rw [hset, hleft, setRight_eq (d := fun i => commonLength (keyOf m rg i) (keyOf m rg p)) _
    (le_rfl)]
  · have hline : rg₀ j = { rg j with cbPrefix := 0 } := by
      rw [← hrg₀]
      exact if_pos hj
    rw [setWhere, setWhere]
    rcases Nat.lt_trichotomy j p with hlt | rfl | hgt
    · have hsame : rg₁ j = rg₀ j := by
        rw [← hrg₁]
        exact setCbPrefix_of_ne rg₀ _ (by omega)
      rw [if_neg (by omega), hsame, hline]
      by_cases hseg : segBegin (commonPrev rg) p ≤ j
      · rw [if_pos ⟨hseg, hlt⟩, if_pos ⟨hseg, by omega⟩]
      · rw [if_neg fun hboth => hseg hboth.1, if_neg fun hboth => hseg hboth.1]
    · rw [if_neg (by omega), if_neg (by omega), if_pos ⟨hbegin, by omega⟩, ← hrg₁, setCbPrefix_self,
        hline, commonLength_self, keyOf, Key.bytes_length]
    · have hsame : rg₁ j = rg₀ j := by
        rw [← hrg₁]
        exact setCbPrefix_of_ne rg₀ _ (by omega)
      have hleft' : ¬ (segBegin (commonPrev rg) p ≤ j ∧ j < p) := by omega
      rw [if_neg hleft', hsame, hline]
      by_cases hseg : j < segStop (commonPrev rg) n p
      · rw [if_pos ⟨hgt, by omega⟩, if_pos ⟨by omega, hseg⟩]
      · rw [if_neg (by omega), if_neg fun hboth => hseg hboth.2]
  · intro hn
    rw [if_pos rfl, setWhere_commonPrev, hcommon]
    exact h.right_first hp (by omega)
  · intro k hk hkn
    rw [setWhere_commonPrev, hcommon]
    exact h.right_step hp hk (by omega)

theorem Weighed.left_gt (hp : p < n) (hj : segBegin (commonPrev rg) p ≤ j) (hjp : j < p) :
    cbPrefixOverhead < commonLength (keyOf m rg j) (keyOf m rg p) := by
  obtain ⟨k, hk⟩ : ∃ k, j + 1 + k = p := ⟨p - (j + 1), by omega⟩
  have hpos : 0 < commonPrev rg (j + 1) := pos_of_segBegin_lt (i := p) (by omega) (by omega)
  induction k generalizing j with
  | zero =>
    have heq := h.left_first hp (by omega)
    obtain rfl : j + 1 = p := hk
    rw [Nat.add_sub_cancel] at heq
    omega
  | succ k ih =>
    have hnext := ih (j := j + 1) (by omega) (by omega) (by omega)
      (pos_of_segBegin_lt (i := p) (by omega) (by omega))
    have hstep := h.left_step hp (k := j + 1) (by omega) (by omega)
    rw [Nat.add_sub_cancel] at hstep
    omega

theorem Weighed.right_gt (hp : p < n) (hpj : p < j) (hj : j < segStop (commonPrev rg) n p) :
    cbPrefixOverhead < commonLength (keyOf m rg j) (keyOf m rg p) := by
  induction j with
  | zero => omega
  | succ j ih =>
    have hpos : 0 < commonPrev rg (j + 1) := pos_of_lt_rightEnd (i := p + 1) hpj hj
    by_cases heq : p = j
    · obtain rfl := heq
      rw [← h.right_first hp hj]
      omega
    · rw [← h.right_step hp (by omega) hj]
      omega

end

open Finset in
theorem Weighed.sum_saved (h : Weighed m rg n) (hp : p < n) :
    (∑ j ∈ range n, if segBegin (commonPrev rg) p ≤ j ∧ j < segStop (commonPrev rg) n p then
        commonLength (keyOf m rg j) (keyOf m rg p) - cbPrefixOverhead else 0) =
      leftSum (commonPrev rg) p (commonPrev rg p) +
        (commonLength (keyOf m rg p) (keyOf m rg p) - cbPrefixOverhead) +
        rightSum (commonPrev rg) (n - (p + 1)) (p + 1) (commonPrev rg (p + 1)) := by
  have hbegin := segBegin_le (c := commonPrev rg) p
  have hstop : p + 1 ≤ segStop (commonPrev rg) n p := (rightEnd_le (n - (p + 1)) (p + 1)).1
  have hsplit (f : Nat → Nat) : ∑ j ∈ range n, f j =
      ∑ j ∈ range p, f j + f p + ∑ j ∈ range (n - (p + 1)), f (p + 1 + j) := by
    rw [← sum_range_succ, ← sum_range_add, Nat.add_sub_cancel' (by omega)]
  have hleft := leftSum_eq_sum (c := commonPrev rg) (i := p) (m := commonPrev rg p)
    (d := fun j => commonLength (keyOf m rg j) (keyOf m rg p))
    (fun k hk hkp => h.left_step hp hk hkp) (fun hseg => h.left_first hp hseg)
  have hright := rightSum_eq_sum (c := commonPrev rg) (n := n - (p + 1)) (i := p + 1)
    (m := commonPrev rg (p + 1)) (d := fun j => commonLength (keyOf m rg j) (keyOf m rg p))
    (fun k hk hkn => h.right_step hp hk hkn)
    (fun hseg => by rw [Nat.min_self]; exact h.right_first hp hseg)
  rw [hleft, hright, hsplit, if_pos ⟨hbegin, by omega⟩]
  congr 1
  · congr 1
    apply sum_congr rfl
    intro j hj
    have hjp := mem_range.mp hj
    exact if_congr (and_iff_left (by omega)) rfl rfl
  · apply sum_congr rfl
    intro j _
    exact if_congr (and_iff_right (by omega)) rfl rfl

theorem Weighed.prefix_gt (h : Weighed m rg n) (hp : p < n)
    (hpos : 0 < savings (commonPrev rg) n p) :
    cbPrefixOverhead < commonLength (keyOf m rg p) (keyOf m rg p) := by
  rw [commonLength_self]
  by_cases hprev : 0 < p ∧ 0 < commonPrev rg p
  · have hle := commonLength_le_right (keyOf m rg (p - 1)) (keyOf m rg p)
    rw [h.commonLength_eq hp hprev.1 hprev.2] at hle
    omega
  · have hleft : leftSum (commonPrev rg) p (commonPrev rg p) = 0 := by
      cases p with
      | zero => rfl
      | succ p => rw [leftSum, if_neg (by omega)]
    rw [savings, hleft, cbPrefixOverhead] at hpos
    have hnext : p + 1 < n ∧ 0 < commonPrev rg (p + 1) := by
      cases hn : n - (p + 1) with
      | zero =>
        rw [hn, rightSum] at hpos
        omega
      | succ k =>
        rw [hn, rightSum] at hpos
        split at hpos
        case isTrue hcommon => exact ⟨by omega, hcommon⟩
        · omega
    have hle := commonLength_le_left (keyOf m rg p) (keyOf m rg (p + 1))
    have heq := h.commonLength_eq hnext.1 (Nat.zero_lt_succ p) hnext.2
    rw [Nat.add_sub_cancel] at heq
    omega

theorem cbNDNodeSizeTotal_eq (kdf : KeyData) {cbPrefix : Nat} (hgt : cbPrefixOverhead < cbPrefix)
    (hle : cbPrefix ≤ kdf.key.cb) :
    cbNDNodeSizeTotal kdf =
      cbNDNodeSizeCompressed (withPrefix kdf cbPrefix) + (cbPrefix - cbPrefixOverhead) := by
  have hpos : (withPrefix kdf cbPrefix).key.keyPrefix.cb > 0 := Nat.zero_lt_of_lt hgt
  have hsuffix : (withPrefix kdf cbPrefix).key.suffix.cb = kdf.key.cb - cbPrefix := rfl
  have hdata : (withPrefix kdf cbPrefix).data.cb = kdf.data.cb := rfl
  rw [cbNDNodeSizeTotal, cbNDNodeSizeCompressed, if_pos hpos, hsuffix, hdata]
  omega

theorem cbNDNodeSizeCompressed_zero (kdf : KeyData) :
    cbNDNodeSizeCompressed (withPrefix kdf 0) = cbNDNodeSizeTotal kdf := rfl

def cbStored (rg : LineInfos) (n : Nat) : Nat :=
  ∑ j ∈ Finset.range n, cbNDNodeSizeCompressed (withPrefix (rg j).kdf (rg j).cbPrefix)

def cbTotal (rg : LineInfos) (n : Nat) : Nat :=
  ∑ j ∈ Finset.range n, cbNDNodeSizeTotal (rg j).kdf

def cbPrefixKey (rg : LineInfos) (prefixinfo : PrefixInfo) : Nat :=
  if prefixinfo.fNull then 0 else (rg prefixinfo.ilinePrefix.toNat).kdf.key.cb

theorem Weighed.cbTotal_eq (h : Weighed m rg n) (hp : p < n)
    (hpos : 0 < savings (commonPrev rg) n p) :
    (cbTotal rg n : Int) = cbStored (btiSetPrefix rg n (infoOf (commonPrev rg) n (some p))) n +
      (rg p).kdf.key.cb + savings (commonPrev rg) n p := by
  have hgt := h.prefix_gt hp hpos
  have hkey : commonLength (keyOf m rg p) (keyOf m rg p) = (rg p).kdf.key.cb := by
    rw [commonLength_self, keyOf, Key.bytes_length]
  have hsum : cbTotal rg n = cbStored (btiSetPrefix rg n (infoOf (commonPrev rg) n (some p))) n +
      ∑ j ∈ Finset.range n, if segBegin (commonPrev rg) p ≤ j ∧ j < segStop (commonPrev rg) n p then
          commonLength (keyOf m rg j) (keyOf m rg p) - cbPrefixOverhead else 0 := by
    rw [cbTotal, cbStored, ← Finset.sum_add_distrib]
    apply Finset.sum_congr rfl
    intro j hj
    rw [h.btiSetPrefix_apply hp (Finset.mem_range.mp hj)]
    split
    case isTrue hseg =>
      have hle := commonLength_le_left (keyOf m rg j) (keyOf m rg p)
      rw [keyOf, Key.bytes_length] at hle
      apply cbNDNodeSizeTotal_eq _ _ hle
      rcases Nat.lt_trichotomy j p with hlt | rfl | hlt
      · exact h.left_gt hp hseg.1 hlt
      · exact hgt
      · exact h.right_gt hp hlt hseg.2
    · rw [cbNDNodeSizeCompressed_zero, add_zero]
  rw [hsum, h.sum_saved hp, savings, hkey]
  omega

end Page

section Weigh

variable {m : Memory} {rg : LineInfos}

theorem setCbPrefix_kdf (rg : LineInfos) (i cb j : Nat) :
    (setCbPrefix rg i cb j).kdf = (rg j).kdf := by
  by_cases h : j = i
  · rw [h, setCbPrefix_self]
  · rw [setCbPrefix_of_ne rg cb h]

theorem recalcLine_kdf (rg : LineInfos) (iline i : Nat) :
    (recalcLine m rg iline i).kdf = (rg i).kdf := by
  rw [recalcLine, setCbPrefix_kdf]
  by_cases h : i = iline
  · rw [h, update_self]
  · rw [update_of_ne h]

theorem recalcLine_commonPrev (rg : LineInfos) (iline i : Nat) :
    commonPrev (recalcLine m rg iline) i =
      if i = iline then cbCommonPrevOf m (rg iline).kdf.key (rg (iline - 1)).kdf.key
      else commonPrev rg i := by
  rw [recalcLine, setCbPrefix_commonPrev, commonPrev]
  by_cases h : i = iline
  · rw [h, update_self, if_pos rfl]
  · rw [update_of_ne h, if_neg h, commonPrev]

theorem foldl_recalcLine (rg : LineInfos) (n : Nat) :
    (∀ i, ((List.range' 1 n).foldl (recalcLine m) rg i).kdf = (rg i).kdf) ∧
      ∀ i, 0 < i → i ≤ n → commonPrev ((List.range' 1 n).foldl (recalcLine m) rg) i =
        cbCommonPrevOf m (rg i).kdf.key (rg (i - 1)).kdf.key := by
  induction n with
  | zero => exact ⟨fun i => rfl, fun i hpos hi => by omega⟩
  | succ n ih =>
    obtain ⟨hkdf, hcommon⟩ := ih
    rw [List.range'_1_concat, List.foldl_append, List.foldl_cons, List.foldl_nil]
    refine ⟨fun i => ?_, fun i hpos hi => ?_⟩
    · rw [recalcLine_kdf, hkdf]
    · rw [recalcLine_commonPrev]
      split
      case isTrue heq => rw [heq, hkdf, hkdf]
      · exact hcommon i hpos (by omega)

/-- The nodes are in the order of their keys; the null key of an internal page stands for
infinity. -/
def Ascending (m : Memory) (rg : LineInfos) (clines : Nat) : Prop :=
  ∀ i, i + 1 < clines →
    (rg (i + 1)).kdf.key.cb = 0 ∨ compare (keyOf m rg i) (keyOf m rg (i + 1)) ≠ .gt

/-- The lines of a page out of those that `BTIRecalcWeightsLE` has weighed. -/
def pageLines (m : Memory) (rg : LineInfos) (clines a : Nat) : LineInfos :=
  fun i => btiRecalcWeightsLE m rg clines (a + i)

theorem recalcFirst_kdf (rg : LineInfos) (i : Nat) : (recalcFirst rg i).kdf = (rg i).kdf := by
  rw [recalcFirst]
  by_cases h : i = 0
  · rw [h, update_self]
  · rw [update_of_ne h]

theorem btiRecalcWeightsLE_kdf (m : Memory) (rg : LineInfos) (clines i : Nat) :
    (btiRecalcWeightsLE m rg clines i).kdf = (rg i).kdf := by
  rw [btiRecalcWeightsLE, (foldl_recalcLine _ _).1, recalcFirst_kdf]

theorem btiRecalcWeightsLE_commonPrev {clines : Nat} (hpos : 0 < i) (hi : i < clines) :
    (btiRecalcWeightsLE m rg clines i).cbCommonPrev =
      cbCommonPrevOf m (rg i).kdf.key (rg (i - 1)).kdf.key := by
  have hcommon := (foldl_recalcLine (m := m) (recalcFirst rg) (clines - 1)).2 i hpos (by omega)
  rw [recalcFirst_kdf, recalcFirst_kdf] at hcommon
  exact hcommon

theorem weighed_pageLines {clines a : Nat} (h : Ascending m rg clines) (hn : a + n ≤ clines) :
    Weighed m (pageLines m rg clines a) n := by
  refine ⟨fun i hpos hi => ?_, fun i hpos hi => ?_⟩
  · have hprev : a + i - 1 = a + (i - 1) := by omega
    rw [pageLines, btiRecalcWeightsLE_commonPrev (by omega) (by omega), hprev,
      btiRecalcWeightsLE_kdf, pageLines, btiRecalcWeightsLE_kdf]
  · obtain ⟨k, hk⟩ : ∃ k, a + i = k + 1 := ⟨a + i - 1, by omega⟩
    have hprev : a + (i - 1) = k := by omega
    rw [keyOf, keyOf, pageLines, pageLines, btiRecalcWeightsLE_kdf, btiRecalcWeightsLE_kdf, hk,
      hprev]
    exact h k (by omega)

theorem btiSetPrefix_null (hj : j < n) : btiSetPrefix rg n .null j = { rg j with cbPrefix := 0 } :=
  if_pos hj

theorem Weighed.exact (h : Weighed m rg n) {prefixinfo : PrefixInfo}
    (hselect : prefixinfo = (btiSelectPrefix (commonPrev rg) n).1) :
    (∀ j, j < n → cbPrefixOverhead < (btiSetPrefix rg n prefixinfo j).cbPrefix →
      prefixinfo.fNull = false ∧ (btiSetPrefix rg n prefixinfo j).cbPrefix =
        commonLength (keyOf m rg j) (keyOf m rg prefixinfo.ilinePrefix.toNat)) ∧
      ((cbStored (btiSetPrefix rg n prefixinfo) n + cbPrefixKey rg prefixinfo : Nat) : Int) =
        cbTotal rg n - prefixinfo.cbSavings := by
  obtain ⟨best, heq, hbest⟩ := btiSelectPrefix_eq_infoOf (commonPrev rg) n
  rw [hselect, heq]
  cases best with
  | none =>
    refine ⟨fun j hj hgt => ?_, ?_⟩
    · rw [infoOf, btiSetPrefix_null hj] at hgt
      exact absurd hgt (Nat.not_lt_zero _)
    · have hsame : cbStored (btiSetPrefix rg n .null) n = cbTotal rg n := by
        apply Finset.sum_congr rfl
        intro j hj
        rw [btiSetPrefix_null (Finset.mem_range.mp hj)]
        exact cbNDNodeSizeCompressed_zero _
      rw [infoOf, hsame]
      exact (Int.sub_zero _).symm
  | some p =>
    obtain ⟨hp, hpos⟩ := hbest p rfl
    have hnull : (infoOf (commonPrev rg) n (some p)).fNull = false := by
      apply decide_eq_false
      change ¬ (p : Int) = -1
      omega
    refine ⟨fun j hj hgt => ⟨hnull, ?_⟩, ?_⟩
    · rw [h.btiSetPrefix_apply hp hj] at hgt ⊢
      split at hgt
      case isTrue hseg =>
        rw [if_pos hseg]
        rfl
      · exact absurd hgt (Nat.not_lt_zero _)
    · have htotal := h.cbTotal_eq hp hpos
      have hkey : cbPrefixKey rg (infoOf (commonPrev rg) n (some p)) = (rg p).kdf.key.cb := by
        rw [cbPrefixKey, hnull]
        rfl
      have hsavings : (infoOf (commonPrev rg) n (some p)).cbSavings =
          savings (commonPrev rg) n p := rfl
      rw [hkey, hsavings, htotal]
      omega

end Weigh

/-- On any page of the weighed lines, `BTISetPrefix` sets what the keys have in common with the
prefix that `BTISelectPrefix` has chosen, and the nodes and the prefix take what the nodes took
without it, less the savings. -/
theorem btiSetPrefix_exact {m : Memory} {rg : LineInfos} {clines a n : Nat}
    (hascending : Ascending m rg clines) (hn : a + n ≤ clines) :
    let page := pageLines m rg clines a
    let prefixinfo := (btiSelectPrefix (commonPrev page) n).1
    let page' := btiSetPrefix page n prefixinfo
    (∀ j, j < n → cbPrefixOverhead < (page' j).cbPrefix →
      prefixinfo.fNull = false ∧ (page' j).cbPrefix =
        commonLength (keyOf m rg (a + j)) (keyOf m rg (a + prefixinfo.ilinePrefix.toNat))) ∧
      ((cbStored page' n + cbPrefixKey page prefixinfo : Nat) : Int) =
        cbTotal (fun j => rg (a + j)) n - prefixinfo.cbSavings := by
  have hkey (j : Nat) : keyOf m (pageLines m rg clines a) j = keyOf m rg (a + j) := by
    rw [keyOf, pageLines, btiRecalcWeightsLE_kdf, keyOf]
  have htotal : cbTotal (pageLines m rg clines a) n = cbTotal (fun j => rg (a + j)) n := by
    apply Finset.sum_congr rfl
    intro j _
    rw [pageLines, btiRecalcWeightsLE_kdf]
  obtain ⟨hcommon, hsize⟩ := (weighed_pageLines hascending hn).exact rfl
  simp only [hkey] at hcommon
  rw [htotal] at hsize
  exact ⟨hcommon, hsize⟩

/-- Memory that holds the keys `abcd1`, `abcd2` and `abce` one behind the other. -/
def abcMemory : Memory := fun i =>
  [97, 98, 99, 100, 49, 97, 98, 99, 100, 50, 97, 98, 99, 101].getD i 0

def abcLines : LineInfos := fun i =>
  ⟨⟨⟨.null, ⟨5 * i, if i = 2 then 4 else 5⟩⟩, .null⟩, 0, 0, 0, 0, 0, 0⟩

theorem abcLines_exact :
    Ascending abcMemory abcLines 3 ∧ let page := pageLines abcMemory abcLines 3 0
      let prefixinfo := (btiSelectPrefix (commonPrev page) 3).1
      ((cbStored (btiSetPrefix page 3 prefixinfo) 3 + cbPrefixKey page prefixinfo : Nat) : Int) =
        cbTotal (fun j => abcLines (0 + j)) 3 - prefixinfo.cbSavings := by
  have hascending : Ascending abcMemory abcLines 3 := by
    intro i hi
    obtain rfl | rfl : i = 0 ∨ i = 1 := by omega
    · exact .inr (by decide +kernel)
    · exact .inr (by decide +kernel)
  exact ⟨hascending, (btiSetPrefix_exact hascending (a := 0) (n := 3) (by decide)).2⟩

end EseLinux.PrefixSelect
