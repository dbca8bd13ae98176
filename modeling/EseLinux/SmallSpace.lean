import Mathlib.Algebra.Group.Nat.Defs
import Mathlib.Data.Set.Lattice
import Mathlib.Order.CompletePartialOrder

/-!
Space of a table that fits into its primary extent (`space.cxx`).  The space header has one bit for
each of the first 32 pages behind the root; pages behind these are never given out while the space
is small.  Page numbers are at most `pgnoSysMax`, so that sums of them do not wrap.
-/

namespace EseLinux.SmallSpace

open List

def cpgSmallSpaceAvailMost : Nat := 32

/-- `SPACE_HEADER` of a single extent. -/
structure SpaceHeader where
  cpgPrimary : Nat
  rgbitAvail : BitVec 32

def rgbitMask (cpg : Nat) : BitVec 32 :=
  (fun rgbitT : BitVec 32 => (rgbitT <<< 1) + 1#32)^[cpg - 1] 1#32

def SpaceHeader.cpgSingleExtent (sph : SpaceHeader) : Nat :=
  min sph.cpgPrimary (cpgSmallSpaceAvailMost + 1)

/-- First fit in `ErrSPISmallGetExt`. -/
def findExt (rgbitAvail : BitVec 32) (pgnoEnd cpgMin pgnoAvail : Nat) (rgbitT : BitVec 32) :
    Option (Nat × BitVec 32) :=
  if pgnoAvail + cpgMin ≤ pgnoEnd then
    if rgbitT &&& rgbitAvail = rgbitT then some (pgnoAvail, rgbitT)
    else findExt rgbitAvail pgnoEnd cpgMin (pgnoAvail + 1) (rgbitT <<< 1)
  else none
termination_by pgnoEnd + 1 - pgnoAvail

/-- The new header and the first page of the extent, or none for `errSPNoSpaceForYou`. -/
def SpaceHeader.errSPISmallGetExt (sph : SpaceHeader) (pgnoFDP cpgMin : Nat) :
    Option (SpaceHeader × Nat) :=
  if cpgMin ≤ cpgSmallSpaceAvailMost then
    (findExt sph.rgbitAvail (pgnoFDP + sph.cpgSingleExtent) cpgMin (pgnoFDP + 1)
      (rgbitMask cpgMin)).map fun (pgnoAvail, rgbitT) =>
        ({ sph with rgbitAvail := sph.rgbitAvail ^^^ rgbitT }, pgnoAvail)
  else none

def findPage (rgbitAvail : BitVec 32) (pgnoLast pgnoAvail : Nat) (rgbitT : BitVec 32) :
    Option (Nat × BitVec 32) :=
  if pgnoAvail ≤ pgnoLast then
    if rgbitT &&& rgbitAvail ≠ 0 then some (pgnoAvail, rgbitT)
    else findPage rgbitAvail pgnoLast (pgnoAvail + 1) (rgbitT <<< 1)
  else none
termination_by pgnoLast + 1 - pgnoAvail

def SpaceHeader.errSPISmallGetPage (sph : SpaceHeader) (pgnoFDP : Nat) :
    Option (SpaceHeader × Nat) :=
  (findPage sph.rgbitAvail (pgnoFDP + sph.cpgSingleExtent - 1) (pgnoFDP + 1) 1).map
    fun (pgnoAvail, rgbitT) =>
      ({ sph with rgbitAvail := sph.rgbitAvail ^^^ rgbitT }, pgnoAvail)

def SpaceHeader.errSPISmallFreeExt (sph : SpaceHeader) (pgnoFDP pgnoFirst cpgSize : Nat) :
    SpaceHeader :=
  { sph with
    rgbitAvail := sph.rgbitAvail ||| (rgbitMask cpgSize <<< (pgnoFirst - pgnoFDP - 1)) }

structure ExtentInfo where
  pgnoLast : Nat
  cpgExtent : Nat
  deriving DecidableEq, Repr

def ExtentInfo.pgnoFirst (ext : ExtentInfo) : Nat := ext.pgnoLast - ext.cpgExtent + 1

def ExtentInfo.pages (ext : ExtentInfo) : Set Nat := Set.Icc ext.pgnoFirst ext.pgnoLast

theorem toNat_ushiftRight_lt {rgbit : BitVec 32} (h : ¬ rgbit = 0) :
    (rgbit >>> 1).toNat < rgbit.toNat := by
  have hpos : rgbit.toNat ≠ 0 := fun hzero => h (BitVec.eq_of_toNat_eq hzero)
  rw [BitVec.toNat_ushiftRight, Nat.shiftRight_eq_div_pow]
  omega

/-- The search of `SPIConvertCalcExtents` for a first extent.  The extents stand with the last of
them first. -/
def calcFirst (rgbitAvail : BitVec 32) (pgno : Nat) (rgbit : BitVec 32) :
    List ExtentInfo × Nat × BitVec 32 :=
  if rgbit = 0 then ([], pgno, rgbit)
  else if rgbit &&& rgbitAvail ≠ 0 then ([⟨pgno, 1⟩], pgno - 1, rgbit >>> 1)
  else calcFirst rgbitAvail (pgno - 1) (rgbit >>> 1)
termination_by rgbit.toNat
decreasing_by exact toNat_ushiftRight_lt ‹_›

/-- An available page extends the last extent or starts a new one; without a last extent the array
is read out of bounds. -/
def addPage (pgno : Nat) : List ExtentInfo → Option (List ExtentInfo)
  | [] => none
  | ext :: rgext =>
    if ext.pgnoFirst - 1 = pgno then some ({ ext with cpgExtent := ext.cpgExtent + 1 } :: rgext)
    else some (⟨pgno, 1⟩ :: ext :: rgext)

def calcMore (rgbitAvail : BitVec 32) (rgext : List ExtentInfo) (pgno : Nat) (rgbit : BitVec 32) :
    Option (List ExtentInfo) :=
  if rgbit = 0 then some rgext
  else if rgbit &&& rgbitAvail ≠ 0 then
    match addPage pgno rgext with
    | none => none
    | some rgext => calcMore rgbitAvail rgext (pgno - 1) (rgbit >>> 1)
  else calcMore rgbitAvail rgext (pgno - 1) (rgbit >>> 1)
termination_by rgbit.toNat
decreasing_by all_goals exact toNat_ushiftRight_lt ‹_›

def SpaceHeader.spiConvertCalcExtents (sph : SpaceHeader) (pgnoFDP : Nat) :
    Option (List ExtentInfo) :=
  let (rgext, pgno, rgbit) :=
    if cpgSmallSpaceAvailMost < sph.cpgPrimary - 1 then
      ([⟨pgnoFDP + sph.cpgPrimary - 1, sph.cpgPrimary - cpgSmallSpaceAvailMost - 1⟩],
        pgnoFDP + sph.cpgPrimary - 1 - (sph.cpgPrimary - cpgSmallSpaceAvailMost - 1),
        0x80000000)
    else calcFirst sph.rgbitAvail (pgnoFDP + cpgSmallSpaceAvailMost) 0x80000000
  (calcMore sph.rgbitAvail rgext pgno rgbit).map reverse

variable {cpg : Nat}

theorem rgbitMask_succ (hpos : 0 < cpg) : rgbitMask (cpg + 1) = (rgbitMask cpg <<< 1) + 1#32 := by
  obtain ⟨n, rfl⟩ : ∃ n, cpg = n + 1 := ⟨cpg - 1, by omega⟩
  exact Function.iterate_succ_apply' (fun rgbitT : BitVec 32 => (rgbitT <<< 1) + 1#32) n 1#32

variable {i : Nat}

theorem getLsbD_rgbitMask (hpos : 0 < cpg) (hi : i < 32) :
    (rgbitMask cpg).getLsbD i = decide (i < cpg) := by
  induction cpg, hpos using Nat.le_induction generalizing i with
  | base => simp [rgbitMask, BitVec.getLsbD_one]
  | succ cpg hpos ih =>
    have hor : (rgbitMask cpg <<< 1) + 1#32 = (rgbitMask cpg <<< 1) ||| 1#32 := by
      apply BitVec.add_eq_or_of_and_eq_zero
      apply BitVec.eq_of_getLsbD_eq
      intro j hj
      cases j <;> simp
    rw [rgbitMask_succ hpos, hor, BitVec.getLsbD_or, BitVec.getLsbD_shiftLeft]
    cases i with
    | zero => simp
    | succ i =>
      rw [Nat.add_sub_cancel, ih (by omega)]
      simp [hi]

theorem getLsbD_mask_shift (hpos : 0 < cpg) (k : Nat) (hi : i < 32) :
    (rgbitMask cpg <<< k).getLsbD i = decide (k ≤ i ∧ i < k + cpg) := by
  rw [BitVec.getLsbD_shiftLeft, getLsbD_rgbitMask hpos (by omega)]
  by_cases hk : i < k
  · simp [hk, not_le.mpr hk]
  · simp only [hi, hk, decide_true, decide_false, Bool.not_false, Bool.true_and, decide_eq_decide]
    omega

def RunAt (rgbitAvail : BitVec 32) (cpg k : Nat) : Prop :=
  ∀ i, k ≤ i → i < k + cpg → rgbitAvail.getLsbD i = true

variable {rgbitAvail : BitVec 32} {cpg k : Nat}

theorem and_mask_eq_iff (hpos : 0 < cpg) (hk : k + cpg ≤ 32) :
    (rgbitMask cpg <<< k) &&& rgbitAvail = rgbitMask cpg <<< k ↔ RunAt rgbitAvail cpg k := by
  constructor
  · intro h i hik hicpg
    have hbit := congrArg (BitVec.getLsbD · i) h
    simpa [getLsbD_mask_shift hpos k (by omega : i < 32), hik, hicpg] using hbit
  · intro h
    apply BitVec.eq_of_getLsbD_eq
    intro i hi
    rw [BitVec.getLsbD_and, getLsbD_mask_shift hpos k hi]
    by_cases hin : k ≤ i ∧ i < k + cpg
    · simp [hin, h i hin.1 hin.2]
    · simp [hin]

/-- The search stops at the first run from `k` on. -/
def Finds (rgbitAvail : BitVec 32) (pgnoFDP cpgSingle cpg k : Nat) :
    Option (Nat × BitVec 32) → Prop
  | some found => ∃ k', k ≤ k' ∧ k' + 1 + cpg ≤ cpgSingle ∧ RunAt rgbitAvail cpg k' ∧
      (∀ j, k ≤ j → j < k' → ¬ RunAt rgbitAvail cpg j) ∧
      found = (pgnoFDP + 1 + k', rgbitMask cpg <<< k')
  | none => ∀ j, k ≤ j → j + 1 + cpg ≤ cpgSingle → ¬ RunAt rgbitAvail cpg j

theorem findExt_finds (hpos : 0 < cpg) (pgnoFDP cpgSingle k : Nat) (hsingle : cpgSingle ≤ 33) :
    Finds rgbitAvail pgnoFDP cpgSingle cpg k
      (findExt rgbitAvail (pgnoFDP + cpgSingle) cpg (pgnoFDP + 1 + k) (rgbitMask cpg <<< k)) := by
  obtain ⟨n, hn⟩ : ∃ n, cpgSingle - k ≤ n := ⟨_, le_rfl⟩
  induction n generalizing k with
  | zero =>
    rw [findExt, if_neg (by omega)]
    exact fun j _ _ => by omega
  | succ n ih =>
    rw [findExt]
    split_ifs with hend hmask
    · exact ⟨k, le_rfl, by omega, (and_mask_eq_iff hpos (by omega)).mp hmask,
        fun j _ _ => by omega, rfl⟩
    · have hlater {j : Nat} (hkj : k ≤ j) (hrun : RunAt rgbitAvail cpg j) : k + 1 ≤ j := by
        refine Nat.lt_of_le_of_ne hkj ?_
        rintro rfl
        exact hmask ((and_mask_eq_iff hpos (by omega)).mpr hrun)
      have hnext := ih (k + 1) (by omega)
      rw [BitVec.shiftLeft_add, ← Nat.add_assoc] at hnext
      generalize findExt rgbitAvail _ _ _ _ = found at hnext ⊢
      cases found with
      | none => exact fun j hkj hj hrun => hnext j (hlater hkj hrun) hj hrun
      | some found =>
        obtain ⟨k', hk', hend', hrun', hfirst, hpgno⟩ := hnext
        exact ⟨k', by omega, hend', hrun',
          fun j hkj hj hrun => hfirst j (hlater hkj hrun) hj hrun, hpgno⟩
    · exact fun j _ _ => by omega

/-- The bit of page `pgnoFDP + k`; there is none for the root. -/
def bitOf (k : Nat) : BitVec 32 := BitVec.ofNat 32 (2 ^ k / 2)

theorem bitOf_zero : bitOf 0 = 0 := rfl

theorem bitOf_succ (k : Nat) : bitOf (k + 1) = BitVec.twoPow 32 k := by
  rw [bitOf, Nat.pow_succ, Nat.mul_div_cancel _ Nat.two_pos]
  apply BitVec.eq_of_toNat_eq
  rw [BitVec.toNat_ofNat, BitVec.toNat_twoPow]

theorem bitOf_succ_ne_zero (hk : k < 32) : ¬ bitOf (k + 1) = 0 := by
  intro hzero
  have hbit := congrArg (BitVec.getLsbD · k) hzero
  simp [bitOf_succ, hk] at hbit

theorem bitOf_succ_and_ne_zero_iff (hk : k < 32) :
    bitOf (k + 1) &&& rgbitAvail ≠ 0 ↔ rgbitAvail.getLsbD k = true := by
  have hne := bitOf_succ_ne_zero hk
  rw [bitOf_succ] at hne ⊢
  rw [BitVec.twoPow_and]
  cases rgbitAvail.getLsbD k <;> simp_all

theorem bitOf_succ_shift (hk : k < 32) : bitOf (k + 1) >>> 1 = bitOf k := by
  apply BitVec.eq_of_toNat_eq
  have hlt : 2 ^ k < 2 ^ 32 := Nat.pow_lt_pow_right Nat.one_lt_two hk
  rw [BitVec.toNat_ushiftRight, Nat.shiftRight_eq_div_pow, bitOf_succ, BitVec.toNat_twoPow, bitOf,
    BitVec.toNat_ofNat, Nat.mod_eq_of_lt hlt, Nat.mod_eq_of_lt (by omega), Nat.pow_one]

theorem mask_one_and_ne_zero_iff (hk : k < 32) :
    (rgbitMask 1 <<< k) &&& rgbitAvail ≠ 0 ↔
      (rgbitMask 1 <<< k) &&& rgbitAvail = rgbitMask 1 <<< k := by
  have hbit := @bitOf_succ_and_ne_zero_iff rgbitAvail k hk
  rw [bitOf_succ] at hbit
  rw [and_mask_eq_iff Nat.one_pos (by omega)]
  refine hbit.trans ⟨?_, ?_⟩
  · intro hset i hki hik
    obtain rfl : i = k := by omega
    exact hset
  · intro hrun
    exact hrun k le_rfl (Nat.lt_succ_self k)

theorem findPage_eq_findExt (rgbitAvail : BitVec 32) (pgnoFDP k : Nat) {cpgSingle : Nat}
    (hpos : 0 < cpgSingle) (hsingle : cpgSingle ≤ 33) :
    findPage rgbitAvail (pgnoFDP + cpgSingle - 1) (pgnoFDP + 1 + k) (rgbitMask 1 <<< k) =
      findExt rgbitAvail (pgnoFDP + cpgSingle) 1 (pgnoFDP + 1 + k) (rgbitMask 1 <<< k) := by
  obtain ⟨n, hn⟩ : ∃ n, cpgSingle - k ≤ n := ⟨_, Nat.le_refl _⟩
  induction n generalizing k with
  | zero => rw [findPage, findExt, if_neg (by omega), if_neg (by omega)]
  | succ n ih =>
    rw [findPage, findExt]
    by_cases hend : k + 1 < cpgSingle
    · simp only [if_pos (show pgnoFDP + 1 + k ≤ pgnoFDP + cpgSingle - 1 by omega),
        if_pos (show pgnoFDP + 1 + k + 1 ≤ pgnoFDP + cpgSingle by omega),
        mask_one_and_ne_zero_iff (show k < 32 by omega)]
      rw [← BitVec.shiftLeft_add, Nat.add_assoc (pgnoFDP + 1), ih (k + 1) (by omega)]
    · rw [if_neg (by omega), if_neg (by omega)]

theorem errSPISmallGetPage_eq {sph : SpaceHeader} (hpos : 0 < sph.cpgPrimary) (pgnoFDP : Nat) :
    sph.errSPISmallGetPage pgnoFDP = sph.errSPISmallGetExt pgnoFDP 1 := by
  have hfind := @findPage_eq_findExt sph.rgbitAvail pgnoFDP 0 sph.cpgSingleExtent
    (Nat.lt_min.mpr ⟨hpos, by decide⟩) (min_le_right _ _)
  exact congrArg _ hfind

structure SpaceHeader.Valid (sph : SpaceHeader) : Prop where
  pos : 0 < sph.cpgPrimary
  clear : ∀ i, sph.rgbitAvail.getLsbD i = true → i + 1 < sph.cpgPrimary

def SpaceHeader.pages (sph : SpaceHeader) (pgnoFDP : Nat) : Set Nat :=
  {pgno | ∃ i, pgno = pgnoFDP + 1 + i ∧ i + 1 < sph.cpgPrimary}

def SpaceHeader.avail (sph : SpaceHeader) (pgnoFDP : Nat) : Set Nat :=
  {pgno | ∃ i, pgno = pgnoFDP + 1 + i ∧ i + 1 < sph.cpgPrimary ∧
    (sph.rgbitAvail.getLsbD i = true ∨ cpgSmallSpaceAvailMost ≤ i)}

variable {sph : SpaceHeader} {pgnoFDP : Nat}

theorem SpaceHeader.mem_avail : pgnoFDP + 1 + i ∈ sph.avail pgnoFDP ↔ i + 1 < sph.cpgPrimary ∧
      (sph.rgbitAvail.getLsbD i = true ∨ cpgSmallSpaceAvailMost ≤ i) := by
  constructor
  · rintro ⟨j, hj, h⟩
    obtain rfl : i = j := by omega
    exact h
  · rintro h
    exact ⟨i, rfl, h⟩

theorem SpaceHeader.avail_subset_pages : sph.avail pgnoFDP ⊆ sph.pages pgnoFDP := by
  rintro _ ⟨i, rfl, hi, -⟩
  exact ⟨i, rfl, hi⟩

theorem exists_of_run_subset_pages {pgno : Nat} (hpos : 0 < cpg)
    (h : Set.Ico pgno (pgno + cpg) ⊆ sph.pages pgnoFDP) :
    ∃ k, pgno = pgnoFDP + 1 + k ∧ k + cpg < sph.cpgPrimary := by
  obtain ⟨k, rfl, -⟩ := h (Set.mem_Ico.mpr ⟨le_rfl, by omega⟩)
  obtain ⟨i, hi, hlt⟩ := h (Set.mem_Ico.mpr
    ⟨(by omega : pgnoFDP + 1 + k ≤ pgnoFDP + 1 + k + (cpg - 1)), by omega⟩)
  exact ⟨k, rfl, by omega⟩

theorem SpaceHeader.Valid.run_subset_avail_iff (h : sph.Valid) (hk : k + cpg ≤ 32) :
    Set.Ico (pgnoFDP + 1 + k) (pgnoFDP + 1 + k + cpg) ⊆ sph.avail pgnoFDP ↔
      RunAt sph.rgbitAvail cpg k := by
  constructor
  · intro hsub i hki hicpg
    have hmem := hsub (Set.mem_Ico.mpr
      ⟨(by omega : pgnoFDP + 1 + k ≤ pgnoFDP + 1 + i), by omega⟩)
    refine (SpaceHeader.mem_avail.mp hmem).2.resolve_right ?_
    rw [cpgSmallSpaceAvailMost]
    omega
  · intro hrun pgno hpgno
    rw [Set.mem_Ico] at hpgno
    have hbit := hrun (pgno - (pgnoFDP + 1)) (by omega) (by omega)
    exact ⟨pgno - (pgnoFDP + 1), by omega, h.clear _ hbit, .inl hbit⟩

/-- What a request for so many pages has to do: the lowest run of available pages is taken; there
is no answer only if every run reaches behind the map. -/
def Gives (sph : SpaceHeader) (pgnoFDP cpg : Nat) : Option (SpaceHeader × Nat) → Prop
  | some (sph', pgno) =>
    IsLeast {p | Set.Ico p (p + cpg) ⊆ sph.avail pgnoFDP} pgno ∧
      sph'.cpgPrimary = sph.cpgPrimary ∧ sph'.Valid ∧
      sph'.avail pgnoFDP = sph.avail pgnoFDP \ Set.Ico pgno (pgno + cpg)
  | none => ∀ p, Set.Ico p (p + cpg) ⊆ sph.avail pgnoFDP →
      pgnoFDP + cpgSmallSpaceAvailMost + 1 < p + cpg

theorem SpaceHeader.Valid.take (h : sph.Valid) (hpos : 0 < cpg) (hk : k + cpg ≤ 32)
    (hrun : RunAt sph.rgbitAvail cpg k) :
    (⟨sph.cpgPrimary, sph.rgbitAvail ^^^ rgbitMask cpg <<< k⟩ : SpaceHeader).Valid ∧
      (⟨sph.cpgPrimary, sph.rgbitAvail ^^^ rgbitMask cpg <<< k⟩ : SpaceHeader).avail pgnoFDP =
        sph.avail pgnoFDP \ Set.Ico (pgnoFDP + 1 + k) (pgnoFDP + 1 + k + cpg) := by
  have hbit : ∀ i, (sph.rgbitAvail ^^^ rgbitMask cpg <<< k).getLsbD i = true ↔
      sph.rgbitAvail.getLsbD i = true ∧ ¬ (k ≤ i ∧ i < k + cpg) := by
    intro i
    by_cases hi : i < 32
    · rw [BitVec.getLsbD_xor, getLsbD_mask_shift hpos k hi]
      by_cases hin : k ≤ i ∧ i < k + cpg
      · simp [hin, hrun i hin.1 hin.2]
      · simp [hin]
    · simp [BitVec.getLsbD_of_ge _ i (Nat.le_of_not_lt hi)]
  refine ⟨⟨h.pos, fun i hi => h.clear i ((hbit i).mp hi).1⟩, ?_⟩
  ext pgno
  constructor
  · rintro ⟨i, rfl, hi, hor⟩
    refine ⟨⟨i, rfl, hi, hor.imp_left fun hset => ((hbit i).mp hset).1⟩, ?_⟩
    rw [Set.mem_Ico]
    rcases hor with hset | hbehind
    · have := ((hbit i).mp hset).2
      omega
    · rw [cpgSmallSpaceAvailMost] at hbehind
      omega
  · rintro ⟨⟨i, rfl, hi, hor⟩, hout⟩
    rw [Set.mem_Ico] at hout
    exact ⟨i, rfl, hi, hor.imp_left fun hset => (hbit i).mpr ⟨hset, by omega⟩⟩

theorem SpaceHeader.Valid.errSPISmallGetExt_gives (h : sph.Valid) (pgnoFDP : Nat)
    (hpos : 0 < cpg) : Gives sph pgnoFDP cpg (sph.errSPISmallGetExt pgnoFDP cpg) := by
  have hwhere : ∀ p, Set.Ico p (p + cpg) ⊆ sph.avail pgnoFDP →
      ¬ pgnoFDP + cpgSmallSpaceAvailMost + 1 < p + cpg →
      ∃ k, p = pgnoFDP + 1 + k ∧ k + 1 + cpg ≤ sph.cpgSingleExtent ∧
        RunAt sph.rgbitAvail cpg k := by
    intro p hsub hin
    obtain ⟨k, rfl, hlt⟩ :=
      exists_of_run_subset_pages hpos (hsub.trans SpaceHeader.avail_subset_pages)
    rw [cpgSmallSpaceAvailMost] at hin
    refine ⟨k, rfl, Nat.le_min.mpr ⟨by omega, ?_⟩, (h.run_subset_avail_iff (by omega)).mp hsub⟩
    rw [cpgSmallSpaceAvailMost]
    omega
  unfold SpaceHeader.errSPISmallGetExt
  by_cases hmost : cpg ≤ cpgSmallSpaceAvailMost
  · rw [if_pos hmost]
    have hsingle : sph.cpgSingleExtent ≤ 33 := Nat.min_le_right _ _
    have hfinds := @findExt_finds sph.rgbitAvail cpg hpos pgnoFDP _ 0 hsingle
    rw [BitVec.shiftLeft_zero, Nat.add_zero] at hfinds
    generalize findExt sph.rgbitAvail _ _ _ _ = found at hfinds ⊢
    cases found with
    | some found =>
      obtain ⟨k, -, hend, hrun, hfirst, rfl⟩ := hfinds
      obtain ⟨hvalid, havail⟩ := @SpaceHeader.Valid.take cpg k sph pgnoFDP h hpos (by omega) hrun
      refine ⟨⟨(h.run_subset_avail_iff (by omega)).mpr hrun, ?_⟩, rfl, hvalid, havail⟩
      intro p hsub
      by_contra hlt
      obtain ⟨j, rfl, -, hrunj⟩ := hwhere p hsub (by rw [cpgSmallSpaceAvailMost]; omega)
      exact hfirst j (Nat.zero_le j) (by omega) hrunj
    | none =>
      intro p hsub
      by_contra hin
      obtain ⟨j, rfl, hend, hrunj⟩ := hwhere p hsub hin
      exact hfinds j (Nat.zero_le j) hend hrunj
  · rw [if_neg hmost]
    intro p hsub
    obtain ⟨k, rfl, -⟩ :=
      exists_of_run_subset_pages hpos (hsub.trans SpaceHeader.avail_subset_pages)
    omega

theorem SpaceHeader.Valid.errSPISmallFreeExt_frees (h : sph.Valid) {pgnoFirst : Nat}
    (hpos : 0 < cpg)
    (hsub : Set.Ico pgnoFirst (pgnoFirst + cpg) ⊆ sph.pages pgnoFDP \ sph.avail pgnoFDP) :
    (sph.errSPISmallFreeExt pgnoFDP pgnoFirst cpg).Valid ∧
      (sph.errSPISmallFreeExt pgnoFDP pgnoFirst cpg).avail pgnoFDP =
        sph.avail pgnoFDP ∪ Set.Ico pgnoFirst (pgnoFirst + cpg) := by
  obtain ⟨k, rfl, hlt⟩ := exists_of_run_subset_pages hpos (hsub.trans Set.sdiff_subset)
  have hk : k + cpg ≤ 32 := by
    by_contra hbehind
    have hlast := hsub (Set.mem_Ico.mpr
      ⟨(by omega : pgnoFDP + 1 + k ≤ pgnoFDP + 1 + (k + cpg - 1)), by omega⟩)
    exact hlast.2 (SpaceHeader.mem_avail.mpr
      ⟨by omega, .inr (by rw [cpgSmallSpaceAvailMost]; omega)⟩)
  have hbit i : (sph.errSPISmallFreeExt pgnoFDP (pgnoFDP + 1 + k) cpg).rgbitAvail.getLsbD i = true ↔
      sph.rgbitAvail.getLsbD i = true ∨ (k ≤ i ∧ i < k + cpg) := by
    rw [SpaceHeader.errSPISmallFreeExt, show pgnoFDP + 1 + k - pgnoFDP - 1 = k by omega]
    by_cases hi : i < 32
    · rw [BitVec.getLsbD_or, getLsbD_mask_shift hpos k hi, Bool.or_eq_true, decide_eq_true_iff]
    · have hout : ¬ (k ≤ i ∧ i < k + cpg) := by omega
      simp [BitVec.getLsbD_of_ge _ i (Nat.le_of_not_lt hi), hout]
  refine ⟨⟨h.pos, fun i hi => ?_⟩, ?_⟩
  · rcases (hbit i).mp hi with hset | hin
    · exact h.clear i hset
    · exact lt_of_le_of_lt (by omega) hlt
  · ext pgno
    constructor
    · rintro ⟨i, rfl, hi, hset | hbehind⟩
      · rcases (hbit i).mp hset with hset | hin
        · exact .inl ⟨i, rfl, hi, .inl hset⟩
        · exact .inr (Set.mem_Ico.mpr (by omega))
      · exact .inl ⟨i, rfl, hi, .inr hbehind⟩
    · rintro (⟨i, rfl, hi, hor⟩ | hin)
      · exact ⟨i, rfl, hi, hor.imp_left fun hset => (hbit i).mpr (.inl hset)⟩
      · rw [Set.mem_Ico] at hin
        obtain ⟨i, rfl⟩ : ∃ i, pgno = pgnoFDP + 1 + i := ⟨pgno - (pgnoFDP + 1), by omega⟩
        exact ⟨i, rfl, lt_of_le_of_lt (by omega) hlt, .inl ((hbit i).mpr (.inr (by omega)))⟩

/-- The extents, the lowest first, are the available pages behind page `pgnoFDP + k`. -/
structure Listed (sph : SpaceHeader) (pgnoFDP k : Nat) (rgext : List ExtentInfo) : Prop where
  size : ∀ ext ∈ rgext, 0 < ext.cpgExtent ∧ ext.cpgExtent ≤ ext.pgnoLast
  apart : rgext.Pairwise fun ext later => ext.pgnoLast + 1 < later.pgnoFirst
  mem_iff : ∀ pgno, (∃ ext ∈ rgext, pgno ∈ ext.pages) ↔
    pgno ∈ sph.avail pgnoFDP ∧ pgnoFDP + k < pgno

variable {rgext : List ExtentInfo} {ext : ExtentInfo}

theorem Listed.skip (h : Listed sph pgnoFDP (k + 1) rgext)
    (hbit : ¬ sph.rgbitAvail.getLsbD k = true) (hk : k < 32) : Listed sph pgnoFDP k rgext := by
  refine ⟨h.size, h.apart, fun pgno => (h.mem_iff pgno).trans (and_congr_right fun hmem => ?_)⟩
  constructor
  · omega
  · intro hlt
    by_contra hle
    obtain rfl : pgno = pgnoFDP + 1 + k := by omega
    rcases (SpaceHeader.mem_avail.mp hmem).2 with hset | hbehind
    · exact hbit hset
    · rw [cpgSmallSpaceAvailMost] at hbehind
      omega

theorem Listed.cons (h : Listed sph pgnoFDP (k + 1) rgext) (hvalid : sph.Valid)
    (hbit : sph.rgbitAvail.getLsbD k = true) {rgext' : List ExtentInfo}
    (hsize : ∀ ext ∈ rgext', 0 < ext.cpgExtent ∧ ext.cpgExtent ≤ ext.pgnoLast)
    (hapart : rgext'.Pairwise fun ext later => ext.pgnoLast + 1 < later.pgnoFirst)
    (hmem : ∀ pgno, (∃ ext ∈ rgext', pgno ∈ ext.pages) ↔
      pgno = pgnoFDP + (k + 1) ∨ ∃ ext ∈ rgext, pgno ∈ ext.pages) :
    Listed sph pgnoFDP k rgext' := by
  refine ⟨hsize, hapart, fun pgno => ?_⟩
  rw [hmem, h.mem_iff]
  constructor
  · rintro (rfl | ⟨hin, hlt⟩)
    · exact ⟨⟨k, by omega, hvalid.clear k hbit, .inl hbit⟩, by omega⟩
    · exact ⟨hin, by omega⟩
  · rintro ⟨hin, hlt⟩
    by_cases heq : pgno = pgnoFDP + (k + 1)
    · exact .inl heq
    · exact .inr ⟨hin, by omega⟩

theorem Listed.first (h : Listed sph pgnoFDP (k + 1) []) (hvalid : sph.Valid)
    (hbit : sph.rgbitAvail.getLsbD k = true) :
    Listed sph pgnoFDP k [⟨pgnoFDP + (k + 1), 1⟩] := by
  refine h.cons hvalid hbit ?_ (pairwise_singleton _ _) fun pgno => ?_
  · rintro ext hext
    obtain rfl := mem_singleton.mp hext
    exact ⟨Nat.one_pos, by dsimp only; omega⟩
  · simp only [mem_singleton, exists_eq_left, ExtentInfo.pages, ExtentInfo.pgnoFirst,
      Set.mem_Icc, not_mem_nil, false_and, exists_false, or_false]
    omega

theorem Listed.addPage (h : Listed sph pgnoFDP (k + 1) (ext :: rgext)) (hvalid : sph.Valid)
    (hbit : sph.rgbitAvail.getLsbD k = true) :
    ∃ rgext', addPage (pgnoFDP + (k + 1)) (ext :: rgext) = some rgext' ∧ rgext' ≠ [] ∧
      Listed sph pgnoFDP k rgext' := by
  obtain ⟨hsize, hsizes⟩ := forall_mem_cons.mp h.size
  obtain ⟨hhead, hapart⟩ := pairwise_cons.mp h.apart
  have hfirst : pgnoFDP + (k + 1) < ext.pgnoFirst := by
    refine ((h.mem_iff ext.pgnoFirst).mp ⟨ext, mem_cons_self, ?_⟩).2
    rw [ExtentInfo.pages, Set.mem_Icc, ExtentInfo.pgnoFirst]
    omega
  rw [ExtentInfo.pgnoFirst] at hfirst
  rw [EseLinux.SmallSpace.addPage, ExtentInfo.pgnoFirst]
  by_cases hnext : ext.pgnoLast - ext.cpgExtent + 1 - 1 = pgnoFDP + (k + 1)
  · rw [if_pos hnext]
    refine ⟨_, rfl, cons_ne_nil _ _, h.cons hvalid hbit ?_ ?_ fun pgno => ?_⟩
    · exact forall_mem_cons.mpr ⟨⟨Nat.succ_pos _, by dsimp only; omega⟩, hsizes⟩
    · exact pairwise_cons.mpr ⟨hhead, hapart⟩
    · simp only [mem_cons, exists_eq_or_imp, ExtentInfo.pages, ExtentInfo.pgnoFirst,
        Set.mem_Icc, ← or_assoc]
      refine or_congr_left ?_
      omega
  · rw [if_neg hnext]
    refine ⟨_, rfl, cons_ne_nil _ _, h.cons hvalid hbit ?_ ?_ fun pgno => ?_⟩
    · exact forall_mem_cons.mpr ⟨⟨Nat.one_pos, by dsimp only; omega⟩, h.size⟩
    · refine pairwise_cons.mpr ⟨fun later hlater => ?_, h.apart⟩
      dsimp only
      rcases mem_cons.mp hlater with rfl | hlater
      · rw [ExtentInfo.pgnoFirst]
        omega
      · have := hhead later hlater
        omega
    · simp only [mem_cons, exists_eq_or_imp, ExtentInfo.pages, ExtentInfo.pgnoFirst,
        Set.mem_Icc]
      refine or_congr_left ?_
      omega

theorem Listed.calcMore (h : Listed sph pgnoFDP k rgext) (hvalid : sph.Valid) (hk : k ≤ 32)
    (hext : rgext ≠ [] ∨ k = 0) :
    ∃ out, calcMore sph.rgbitAvail rgext (pgnoFDP + k) (bitOf k) = some out ∧
      Listed sph pgnoFDP 0 out := by
  induction k generalizing rgext with
  | zero => exact ⟨rgext, by rw [EseLinux.SmallSpace.calcMore, if_pos bitOf_zero], h⟩
  | succ k ih =>
    rw [EseLinux.SmallSpace.calcMore, if_neg (bitOf_succ_ne_zero hk), bitOf_succ_shift hk]
    by_cases hbit : sph.rgbitAvail.getLsbD k = true
    · rw [if_pos ((bitOf_succ_and_ne_zero_iff hk).mpr hbit)]
      obtain ⟨ext, rest, rfl⟩ :=
        exists_cons_of_ne_nil (hext.resolve_right (Nat.succ_ne_zero k))
      obtain ⟨rgext', hadd, hne, hlisted⟩ := h.addPage hvalid hbit
      simp only [hadd]
      exact ih hlisted (by omega) (.inl hne)
    · rw [if_neg (mt (bitOf_succ_and_ne_zero_iff hk).mp hbit)]
      exact ih (h.skip hbit hk) (by omega)
        (.inl (hext.resolve_right (Nat.succ_ne_zero k)))

theorem Listed.calcFirst (h : Listed sph pgnoFDP k []) (hvalid : sph.Valid) (hk : k ≤ 32) :
    ∃ rgext k', calcFirst sph.rgbitAvail (pgnoFDP + k) (bitOf k) = (rgext, pgnoFDP + k', bitOf k') ∧
      Listed sph pgnoFDP k' rgext ∧ k' ≤ 32 ∧ (rgext ≠ [] ∨ k' = 0) := by
  induction k with
  | zero =>
    exact ⟨[], 0, by rw [EseLinux.SmallSpace.calcFirst, if_pos bitOf_zero], h, hk, .inr rfl⟩
  | succ k ih =>
    rw [EseLinux.SmallSpace.calcFirst, if_neg (bitOf_succ_ne_zero hk), bitOf_succ_shift hk]
    by_cases hbit : sph.rgbitAvail.getLsbD k = true
    · rw [if_pos ((bitOf_succ_and_ne_zero_iff hk).mpr hbit)]
      exact ⟨_, k, rfl, h.first hvalid hbit, by omega, .inl (cons_ne_nil _ _)⟩
    · rw [if_neg (mt (bitOf_succ_and_ne_zero_iff hk).mp hbit)]
      exact ih (h.skip hbit hk) (by omega)

/-- Nonempty extents in descending order that are disjoint and maximal and have the available
pages. -/
structure Lists (rgext : List ExtentInfo) (avail : Set Nat) : Prop where
  nonempty : ∀ ext ∈ rgext, ext.pages.Nonempty
  descending : rgext.Pairwise fun ext next => next.pgnoLast < ext.pgnoFirst
  maximal : ∀ ext ∈ rgext, ext.pgnoFirst - 1 ∉ avail ∧ ext.pgnoLast + 1 ∉ avail
  union : ∀ pgno, pgno ∈ avail ↔ ∃ ext ∈ rgext, pgno ∈ ext.pages

theorem Listed.apart_of_ne (h : Listed sph pgnoFDP k rgext) {other : ExtentInfo}
    (hext : ext ∈ rgext) (hother : other ∈ rgext) (hne : ext ≠ other) :
    ext.pgnoLast + 1 < other.pgnoFirst ∨ other.pgnoLast + 1 < ext.pgnoFirst := by
  obtain ⟨i, hi, rfl⟩ := getElem_of_mem hext
  obtain ⟨j, hj, rfl⟩ := getElem_of_mem hother
  have hapart := pairwise_iff_getElem.mp h.apart
  rcases Nat.lt_trichotomy i j with hlt | rfl | hgt
  · exact .inl (hapart i j hi hj hlt)
  · exact absurd rfl hne
  · exact .inr (hapart j i hj hi hgt)

theorem Listed.maximal (h : Listed sph pgnoFDP 0 rgext) (hext : ext ∈ rgext) :
    ext.pgnoFirst - 1 ∉ sph.avail pgnoFDP ∧ ext.pgnoLast + 1 ∉ sph.avail pgnoFDP := by
  have hout : ∀ pgno, ext.pgnoFirst ≤ pgno + 1 → pgno ≤ ext.pgnoLast + 1 →
      ¬ (ext.pgnoFirst ≤ pgno ∧ pgno ≤ ext.pgnoLast) → pgno ∉ sph.avail pgnoFDP := by
    rintro pgno hge hle hnot ⟨i, rfl, hi⟩
    obtain ⟨other, hother, hmem⟩ := (h.mem_iff _).mpr ⟨⟨i, rfl, hi⟩, by omega⟩
    rw [ExtentInfo.pages, Set.mem_Icc] at hmem
    by_cases heq : ext = other
    · exact hnot (heq ▸ hmem)
    · have := h.apart_of_ne hext hother heq
      omega
  rw [ExtentInfo.pgnoFirst] at hout ⊢
  exact ⟨hout _ (by omega) (by omega) (by omega), hout _ (by omega) (by omega) (by omega)⟩

theorem Listed.lists_reverse (h : Listed sph pgnoFDP 0 rgext) :
    Lists rgext.reverse (sph.avail pgnoFDP) where
  nonempty := by
    intro ext hext
    obtain ⟨hpos, hle⟩ := h.size ext (mem_reverse.mp hext)
    refine ⟨ext.pgnoLast, Set.mem_Icc.mpr ⟨?_, le_rfl⟩⟩
    rw [ExtentInfo.pgnoFirst]
    omega
  descending := by
    rw [pairwise_reverse]
    exact h.apart.imp fun hlt => Nat.lt_of_succ_lt hlt
  maximal := fun ext hext => h.maximal (mem_reverse.mp hext)
  union := by
    intro pgno
    simp only [mem_reverse, h.mem_iff]
    refine (and_iff_left_of_imp ?_).symm
    rintro ⟨i, rfl, -⟩
    omega

theorem listed_behind (hlt : 32 < sph.cpgPrimary - 1) :
    Listed sph pgnoFDP 32 [⟨pgnoFDP + sph.cpgPrimary - 1, sph.cpgPrimary - 32 - 1⟩] := by
  refine ⟨?_, pairwise_singleton _ _, fun pgno => ?_⟩
  · rintro ext hext
    obtain rfl := mem_singleton.mp hext
    dsimp only
    omega
  · simp only [mem_singleton, exists_eq_left, ExtentInfo.pages, ExtentInfo.pgnoFirst,
      Set.mem_Icc]
    constructor
    · intro hin
      exact ⟨⟨pgno - (pgnoFDP + 1), by omega, by omega,
        .inr (by rw [cpgSmallSpaceAvailMost]; omega)⟩, by omega⟩
    · rintro ⟨⟨i, rfl, hi, -⟩, hbehind⟩
      omega

theorem listed_nil (hle : sph.cpgPrimary - 1 ≤ 32) :
    Listed sph pgnoFDP 32 [] := by
  refine ⟨nofun, Pairwise.nil, fun pgno => ⟨fun hnil => ?_, ?_⟩⟩
  · obtain ⟨ext, hext, -⟩ := hnil
    cases hext
  · rintro ⟨⟨i, rfl, hi, -⟩, hbehind⟩
    omega

theorem SpaceHeader.Valid.spiConvertCalcExtents_lists (h : sph.Valid) (pgnoFDP : Nat) :
    ∃ rgext, sph.spiConvertCalcExtents pgnoFDP = some rgext ∧ Lists rgext (sph.avail pgnoFDP) := by
  have hmore {rgext : List ExtentInfo} {k : Nat} (hlisted : Listed sph pgnoFDP k rgext)
      (hk : k ≤ 32) (hext : rgext ≠ [] ∨ k = 0) :
      ∃ out, (calcMore sph.rgbitAvail rgext (pgnoFDP + k) (bitOf k)).map reverse = some out ∧
        Lists out (sph.avail pgnoFDP) := by
    obtain ⟨out, hout, hall⟩ := hlisted.calcMore h hk hext
    exact ⟨out.reverse, congrArg _ hout, hall.lists_reverse⟩
  unfold SpaceHeader.spiConvertCalcExtents
  rw [cpgSmallSpaceAvailMost]
  by_cases hlt : 32 < sph.cpgPrimary - 1
  · rw [if_pos hlt, show pgnoFDP + sph.cpgPrimary - 1 - (sph.cpgPrimary - 32 - 1) = pgnoFDP + 32
      by omega]
    exact hmore (listed_behind hlt) le_rfl (.inl (cons_ne_nil _ _))
  · obtain ⟨rgext, k, heq, hlisted, hk, hext⟩ :=
      (@listed_nil sph pgnoFDP (Nat.le_of_not_lt hlt)).calcFirst h le_rfl
    rw [if_neg hlt, show (0x80000000 : BitVec 32) = bitOf 32 from rfl, heq]
    exact hmore hlisted hk hext

/-- What is reached from a header by requests and frees, with the pages that were handed out on the
way and not freed since.  A request without an answer leaves the header as it is. -/
inductive Reaches (pgnoFDP : Nat) (sph₀ : SpaceHeader) : SpaceHeader → Set Nat → Prop
  | start : Reaches pgnoFDP sph₀ sph₀ ∅
  | getExt {sph sph' : SpaceHeader} {held : Set Nat} {cpgMin pgno : Nat} :
      Reaches pgnoFDP sph₀ sph held → 0 < cpgMin →
      sph.errSPISmallGetExt pgnoFDP cpgMin = some (sph', pgno) →
      Reaches pgnoFDP sph₀ sph' (held ∪ Set.Ico pgno (pgno + cpgMin))
  | getPage {sph sph' : SpaceHeader} {held : Set Nat} {pgno : Nat} :
      Reaches pgnoFDP sph₀ sph held → sph.errSPISmallGetPage pgnoFDP = some (sph', pgno) →
      Reaches pgnoFDP sph₀ sph' (held ∪ Set.Ico pgno (pgno + 1))
  | freeExt {sph : SpaceHeader} {held : Set Nat} {pgnoFirst cpgSize : Nat} :
      Reaches pgnoFDP sph₀ sph held → 0 < cpgSize →
      Set.Ico pgnoFirst (pgnoFirst + cpgSize) ⊆ sph.pages pgnoFDP \ sph.avail pgnoFDP →
      Reaches pgnoFDP sph₀ (sph.errSPISmallFreeExt pgnoFDP pgnoFirst cpgSize)
        (held \ Set.Ico pgnoFirst (pgnoFirst + cpgSize))

variable {sph₀ : SpaceHeader} {held : Set Nat}

theorem Gives.disjoint {sph' : SpaceHeader} {pgno : Nat}
    (h : Gives sph pgnoFDP cpg (some (sph', pgno))) (hheld : Disjoint held (sph.avail pgnoFDP)) :
    Disjoint (held ∪ Set.Ico pgno (pgno + cpg)) (sph'.avail pgnoFDP) := by
  rw [h.2.2.2, Set.disjoint_union_left]
  exact ⟨hheld.mono_right Set.sdiff_subset, Set.disjoint_sdiff_right⟩

theorem Reaches.valid (hvalid : sph₀.Valid) (h : Reaches pgnoFDP sph₀ sph held) :
    sph.Valid ∧ sph.cpgPrimary = sph₀.cpgPrimary ∧ Disjoint held (sph.avail pgnoFDP) := by
  induction h with
  | start => exact ⟨hvalid, rfl, Set.empty_disjoint _⟩
  | getExt _ hpos hget ih =>
    have hgives := ih.1.errSPISmallGetExt_gives pgnoFDP hpos
    rw [hget] at hgives
    exact ⟨hgives.2.2.1, hgives.2.1.trans ih.2.1, hgives.disjoint ih.2.2⟩
  | getPage _ hget ih =>
    have hgives := ih.1.errSPISmallGetExt_gives pgnoFDP Nat.one_pos
    rw [← errSPISmallGetPage_eq ih.1.pos, hget] at hgives
    exact ⟨hgives.2.2.1, hgives.2.1.trans ih.2.1, hgives.disjoint ih.2.2⟩
  | freeExt _ hpos hsub ih =>
    obtain ⟨hvalid', havail⟩ := ih.1.errSPISmallFreeExt_frees hpos hsub
    refine ⟨hvalid', ih.2.1, ?_⟩
    rw [havail, Set.disjoint_union_right]
    exact ⟨ih.2.2.mono_left Set.sdiff_subset, Set.disjoint_sdiff_left⟩

/-- Small space is a set of pages of the primary extent: a request takes the lowest run of it that
fits, and never a page that is held; a free gives the pages back; and the extents listed for the
conversion are those of the set. -/
theorem smallSpace_refines_pages (hvalid : sph₀.Valid) (h : Reaches pgnoFDP sph₀ sph held) :
    sph.avail pgnoFDP ⊆ sph₀.pages pgnoFDP ∧ Disjoint held (sph.avail pgnoFDP) ∧
      (∀ cpgMin, 0 < cpgMin → Gives sph pgnoFDP cpgMin (sph.errSPISmallGetExt pgnoFDP cpgMin)) ∧
      Gives sph pgnoFDP 1 (sph.errSPISmallGetPage pgnoFDP) ∧
      (∀ pgnoFirst cpgSize, 0 < cpgSize →
        Set.Ico pgnoFirst (pgnoFirst + cpgSize) ⊆ sph.pages pgnoFDP \ sph.avail pgnoFDP →
        (sph.errSPISmallFreeExt pgnoFDP pgnoFirst cpgSize).avail pgnoFDP =
          sph.avail pgnoFDP ∪ Set.Ico pgnoFirst (pgnoFirst + cpgSize)) ∧
      ∃ rgext, sph.spiConvertCalcExtents pgnoFDP = some rgext ∧
        Lists rgext (sph.avail pgnoFDP) := by
  obtain ⟨hsph, hprimary, hheld⟩ := h.valid hvalid
  have hpages : sph.pages pgnoFDP = sph₀.pages pgnoFDP := by
    simp only [SpaceHeader.pages, hprimary]
  refine ⟨hpages ▸ SpaceHeader.avail_subset_pages, hheld, ?_, ?_, ?_, ?_⟩
  · intro cpgMin hpos
    exact hsph.errSPISmallGetExt_gives pgnoFDP hpos
  · rw [errSPISmallGetPage_eq hsph.pos]
    exact hsph.errSPISmallGetExt_gives pgnoFDP Nat.one_pos
  · intro pgnoFirst cpgSize hpos hsub
    exact (hsph.errSPISmallFreeExt_frees hpos hsub).2
  · exact hsph.spiConvertCalcExtents_lists pgnoFDP

/-- A primary extent of 40 pages with the first two behind the root in use: a page is taken, and
then three. -/
theorem fortyPages_refine :
    Disjoint (∅ ∪ Set.Ico 10 11 ∪ Set.Ico 11 14) ((⟨40, 0xffffffc0⟩ : SpaceHeader).avail 7) ∧
      Gives ⟨40, 0xffffffc0⟩ 7 1 ((⟨40, 0xffffffc0⟩ : SpaceHeader).errSPISmallGetPage 7) := by
  have hpage : Reaches 7 ⟨40, 0xfffffffc⟩ ⟨40, 0xfffffff8⟩ (∅ ∪ Set.Ico 10 11) :=
    .getPage .start (by simp [SpaceHeader.errSPISmallGetPage, findPage,
      SpaceHeader.cpgSingleExtent, cpgSmallSpaceAvailMost])
  have hext : Reaches 7 ⟨40, 0xfffffffc⟩ ⟨40, 0xffffffc0⟩ (∅ ∪ Set.Ico 10 11 ∪ Set.Ico 11 14) :=
    .getExt hpage (show 0 < 3 by decide) (by simp [SpaceHeader.errSPISmallGetExt, findExt,
      SpaceHeader.cpgSingleExtent, rgbitMask, cpgSmallSpaceAvailMost])
  obtain ⟨-, hdisjoint, -, hgives, -⟩ := smallSpace_refines_pages
    ⟨by decide, fun i hi => lt_of_lt_of_le
      (Nat.succ_lt_succ (BitVec.lt_of_getLsbD hi)) (by decide : 33 ≤ 40)⟩ hext
  exact ⟨hdisjoint, hgives⟩

end EseLinux.SmallSpace
