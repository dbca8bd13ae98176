import EseLinux.EditScript
import EseLinux.PageFormat

/-!
The differences a replace logs: how `FLGAppendDiff` writes one, and how `ErrLGGetAfterImage`
rebuilds the new image from the old one.
-/

namespace EseLinux.LogDiff

open BitField EditScript PageFormat List

namespace DiffHdr

def ibOffsetMask : Nat := 0x1fff
def fReplaceWithSameLength : Nat := 0x2000
def fInsert : Nat := 0x4000
def fUseTwoBytesForDataLength : Nat := 0x8000

def bitField (ibOffsetOld cbDataOld cbDataNew : Nat) : Nat :=
  (ibOffsetOld &&& ibOffsetMask) |||
  (if cbDataOld ≠ 0 ∧ cbDataOld = cbDataNew then fReplaceWithSameLength else 0) |||
  (if cbDataOld = 0 then fInsert else 0) |||
  (if 255 < cbDataOld ∨ 255 < cbDataNew then fUseTwoBytesForDataLength else 0)

end DiffHdr

/-- `DIFFHDR2`: an offset of sixteen bits, and the flags of a `DIFFHDR` in a byte. -/
structure DiffHdr2 where
  ib : Nat
  flags : Nat

namespace DiffHdr2

def shfFlag : Nat := 8

def ofDiffHdr (bitField : Nat) : DiffHdr2 :=
  ⟨bitField &&& DiffHdr.ibOffsetMask, (bitField >>> shfFlag) % 256⟩

def fReplaceWithSameLength (hdr : DiffHdr2) : Bool := decide (hdr.flags &&& 0x20 ≠ 0)

def fInsert (hdr : DiffHdr2) : Bool := decide (hdr.flags &&& 0x40 ≠ 0)

def fUseTwoBytesForDataLength (hdr : DiffHdr2) : Bool := decide (hdr.flags &&& 0x80 ≠ 0)

end DiffHdr2

/-- Size of the persisted header: a `DIFFHDR2` for large pages. -/
def cbDiffHdr (fDiff2 : Bool) : Nat := if fDiff2 then 3 else 2

def byteAt (bytes : List UInt8) (ib : Nat) : Nat := (bytes.getD ib 0).toNat

def wordAt (bytes : List UInt8) (ib : Nat) : Nat := byteAt bytes ib + 256 * byteAt bytes (ib + 1)

def wordBytes (n : Nat) : List UInt8 := [UInt8.ofNat n, UInt8.ofNat (n / 256)]

def lengthBytes (fTwoBytes : Bool) (n : Nat) : List UInt8 :=
  if fTwoBytes then wordBytes n else [UInt8.ofNat n]

def lengthAt (fTwoBytes : Bool) (bytes : List UInt8) (ib : Nat) : Nat :=
  if fTwoBytes then wordAt bytes ib else byteAt bytes ib

def cbLength (fTwoBytes : Bool) : Nat := if fTwoBytes then 2 else 1

def headerBytes (fDiff2 : Bool) (ibOffsetOld bitField : Nat) : List UInt8 :=
  if fDiff2 then
    wordBytes ibOffsetOld ++ [UInt8.ofNat (DiffHdr2.ofDiffHdr bitField).flags]
  else wordBytes bitField

namespace DiffHdr

def fTwoBytes (bitField : Nat) : Bool := decide (bitField &&& fUseTwoBytesForDataLength ≠ 0)

def fReplaceWithDiffLength (bitField : Nat) : Bool :=
  decide (bitField &&& fReplaceWithSameLength = 0) && decide (bitField &&& fInsert = 0)

end DiffHdr

/-- A difference as it is logged: the header, the new length, the old length if it is another
one, and the new data. -/
def diffBytes (fDiff2 : Bool) (ibOffsetOld cbDataOld : Nat) (dataNew : List UInt8) : List UInt8 :=
  let bitField := DiffHdr.bitField ibOffsetOld cbDataOld dataNew.length
  let fTwoBytes := DiffHdr.fTwoBytes bitField
  headerBytes fDiff2 ibOffsetOld bitField ++ (lengthBytes fTwoBytes dataNew.length ++
    ((if DiffHdr.fReplaceWithDiffLength bitField then lengthBytes fTwoBytes cbDataOld else []) ++
      dataNew))

/-- Append one difference to those written so far, unless it ends behind `cbMax`. -/
def flgAppendDiff (fDiff2 : Bool) (diff : List UInt8) (cbMax ibOffsetOld cbDataOld : Nat)
    (dataNew : List UInt8) : Option (List UInt8) :=
  let bitField := DiffHdr.bitField ibOffsetOld cbDataOld dataNew.length
  let cbBytesForDataLength := cbLength (DiffHdr.fTwoBytes bitField) *
    if DiffHdr.fReplaceWithDiffLength bitField then 2 else 1
  if cbMax < diff.length + cbDiffHdr fDiff2 + cbBytesForDataLength + dataNew.length then none
  else some (diff ++ diffBytes fDiff2 ibOffsetOld cbDataOld dataNew)

def readHeader (fDiff2 : Bool) (diff : List UInt8) : DiffHdr2 :=
  if fDiff2 then ⟨wordAt diff 0, byteAt diff 2⟩ else .ofDiffHdr (wordAt diff 0)

/-- One difference, and the bytes of the log it takes.  Bytes that are not there count as zero. -/
def readDiff (fDiff2 : Bool) (diff : List UInt8) : Edit UInt8 × Nat :=
  let hdr := readHeader fDiff2 diff
  let fTwoBytes := hdr.fUseTwoBytesForDataLength
  let cur := cbDiffHdr fDiff2
  let cbDataNew := lengthAt fTwoBytes diff cur
  let cur := cur + cbLength fTwoBytes
  if hdr.fInsert then (⟨hdr.ib, 0, part diff cur cbDataNew⟩, cur + cbDataNew)
  else if hdr.fReplaceWithSameLength then
    (⟨hdr.ib, cbDataNew, part diff cur cbDataNew⟩, cur + cbDataNew)
  else
    let cbDataOld := lengthAt fTwoBytes diff cur
    let cur := cur + cbLength fTwoBytes
    (⟨hdr.ib, cbDataOld, part diff cur cbDataNew⟩, cur + cbDataNew)

theorem readDiff_pos (fDiff2 : Bool) (diff : List UInt8) : 0 < (readDiff fDiff2 diff).2 := by
  have hpos : 0 < cbDiffHdr fDiff2 := by cases fDiff2 <;> decide
  simp only [readDiff]
  split
  · omega
  · split <;> omega

/-- The loop of `ErrLGGetAfterImage` where the log record is followed by the bytes `beyond`; `none`
is `JET_errLogFileCorrupt`. -/
def afterImageLoop (fDiff2 : Bool) (cbPage : Nat) (old beyond diff : List UInt8)
    (st : Patch UInt8) : Option (Patch UInt8) :=
  if diff = [] then some st
  else
    let edit := (readDiff fDiff2 (diff ++ beyond)).1
    let cbEdit := (readDiff fDiff2 (diff ++ beyond)).2
    if edit.ib < st.pos then none
    else if cbPage < st.out.length + (edit.ib - st.pos) then none
    else if cbPage < st.out.length + (edit.ib - st.pos) + edit.data.length then none
    else if diff.length < cbEdit then none
    else if old.length < edit.ib + edit.cbOld then none
    else afterImageLoop fDiff2 cbPage old beyond (diff.drop cbEdit) (st.step old edit)
termination_by diff.length
decreasing_by
  have hpos := readDiff_pos fDiff2 (diff ++ beyond)
  rw [length_drop]
  omega

def errLGGetAfterImageIn (fDiff2 : Bool) (cbPage : Nat) (beyond diff old : List UInt8) :
    Option (List UInt8) :=
  match afterImageLoop fDiff2 cbPage old beyond diff .start with
  | none => none
  | some st => if cbPage < (st.finish old).length then none else some (st.finish old)

def errLGGetAfterImage (fDiff2 : Bool) (cbPage : Nat) (diff old : List UInt8) :
    Option (List UInt8) :=
  errLGGetAfterImageIn fDiff2 cbPage [] diff old

section Bits

variable {k a : Nat} (fSame fInsert fTwo : Bool)

def hdrFlags : Nat := fSame.toNat + 2 * fInsert.toNat + 4 * fTwo.toNat

theorem and_flags (ha : a < 2 ^ k) (f g : Nat) : (a + 2 ^ k * f) &&& (2 ^ k * g) =
    2 ^ k * (f &&& g) := by
  have hand := and_add_two_pow_mul ha (Nat.two_pow_pos k) f g
  rwa [zero_add, Nat.and_zero, zero_add] at hand

theorem and_hdrFlags_eq_zero (ha : a < 2 ^ k) (g : Nat) :
    (a + 2 ^ k * hdrFlags fSame fInsert fTwo) &&& (2 ^ k * g) = 0 ↔
      hdrFlags fSame fInsert fTwo &&& g = 0 := by
  rw [and_flags ha, Nat.mul_eq_zero]
  constructor
  · rintro (hzero | hzero)
    · omega
    · exact hzero
  · exact .inr

theorem hdrFlags_same : hdrFlags fSame fInsert fTwo &&& 1 = 0 ↔ fSame = false := by
  rw [hdrFlags]
  cases fSame <;> cases fInsert <;> cases fTwo <;> decide

theorem hdrFlags_insert : hdrFlags fSame fInsert fTwo &&& 2 = 0 ↔ fInsert = false := by
  rw [hdrFlags]
  cases fSame <;> cases fInsert <;> cases fTwo <;> decide

theorem hdrFlags_two : hdrFlags fSame fInsert fTwo &&& 4 = 0 ↔ fTwo = false := by
  rw [hdrFlags]
  cases fSame <;> cases fInsert <;> cases fTwo <;> decide

theorem hdrFlags_lt : hdrFlags fSame fInsert fTwo < 8 := by
  rw [hdrFlags]
  cases fSame <;> cases fInsert <;> cases fTwo <;> decide

end Bits

section Codec

variable (ib cbOld cbNew : Nat)

def flagsOf : Nat :=
  hdrFlags (decide (cbOld ≠ 0 ∧ cbOld = cbNew)) (decide (cbOld = 0))
    (decide (255 < cbOld ∨ 255 < cbNew))

theorem or_ifs {o : Nat} (ho : o < 2 ^ 13) (p q r : Prop)
    [Decidable p] [Decidable q] [Decidable r] :
    o ||| (if p then 0x2000 else 0) ||| (if q then 0x4000 else 0) ||| (if r then 0x8000 else 0) =
      o + 2 ^ 13 * hdrFlags (decide p) (decide q) (decide r) := by
  have hbit : ∀ (p : Prop) [Decidable p] (g f : Nat), (o + 2 ^ 13 * f) |||
      (if p then 2 ^ 13 * g else 0) = o + 2 ^ 13 * (f ||| if p then g else 0) := by
    intro p _ g f
    by_cases hp : p
    · simpa [hp] using or_add_two_pow_mul ho (Nat.two_pow_pos 13) f g
    · rw [if_neg hp, if_neg hp, Nat.or_zero, Nat.or_zero]
  have hzero : o = o + 2 ^ 13 * 0 := rfl
  rw [hzero, show (0x2000 : Nat) = 2 ^ 13 * 1 from rfl, show (0x4000 : Nat) = 2 ^ 13 * 2 from rfl,
    show (0x8000 : Nat) = 2 ^ 13 * 4 from rfl, hbit, hbit, hbit, ← hzero, hdrFlags]
  by_cases hp : p <;> by_cases hq : q <;> by_cases hr : r <;> simp [hp, hq, hr]

theorem bitField_eq :
    DiffHdr.bitField ib cbOld cbNew = ib % 2 ^ 13 + 2 ^ 13 * flagsOf cbOld cbNew := by
  have hmask : ib &&& DiffHdr.ibOffsetMask = ib % 2 ^ 13 := Nat.and_two_pow_sub_one_eq_mod ib 13
  rw [DiffHdr.bitField, hmask]
  exact or_ifs (Nat.mod_lt _ (by decide)) _ _ _

theorem fTwoBytes_bitField :
    DiffHdr.fTwoBytes (DiffHdr.bitField ib cbOld cbNew) = decide (255 < cbOld ∨ 255 < cbNew) := by
  have hlt : ib % 2 ^ 13 < 2 ^ 13 := Nat.mod_lt _ (by decide)
  rw [DiffHdr.fTwoBytes, bitField_eq, flagsOf,
    show DiffHdr.fUseTwoBytesForDataLength = 2 ^ 13 * 4 from rfl, decide_eq_decide, ne_eq,
    and_hdrFlags_eq_zero _ _ _ hlt, hdrFlags_two, decide_eq_false_iff_not, not_not]

theorem fReplaceWithDiffLength_bitField :
    DiffHdr.fReplaceWithDiffLength (DiffHdr.bitField ib cbOld cbNew) =
      decide (cbOld ≠ 0 ∧ cbOld ≠ cbNew) := by
  have hlt : ib % 2 ^ 13 < 2 ^ 13 := Nat.mod_lt _ (by decide)
  rw [DiffHdr.fReplaceWithDiffLength, bitField_eq, flagsOf,
    show DiffHdr.fReplaceWithSameLength = 2 ^ 13 * 1 from rfl,
    show DiffHdr.fInsert = 2 ^ 13 * 2 from rfl]
  simp only [and_hdrFlags_eq_zero _ _ _ hlt, hdrFlags_same, hdrFlags_insert, ← Bool.decide_and,
    decide_eq_decide, decide_eq_false_iff_not]
  tauto

theorem ofDiffHdr_bitField :
    DiffHdr2.ofDiffHdr (DiffHdr.bitField ib cbOld cbNew) =
      ⟨ib % 2 ^ 13, ib % 2 ^ 13 / 256 + 2 ^ 5 * flagsOf cbOld cbNew⟩ := by
  have hflags : flagsOf cbOld cbNew < 8 := hdrFlags_lt _ _ _
  rw [DiffHdr2.ofDiffHdr, bitField_eq, DiffHdr2.mk.injEq]
  constructor
  · rw [show DiffHdr.ibOffsetMask = 2 ^ 13 - 1 from rfl, Nat.and_two_pow_sub_one_eq_mod]
    omega
  · rw [Nat.shiftRight_eq_div_pow, show 2 ^ DiffHdr2.shfFlag = 256 from rfl]
    omega

end Codec

variable {data : List UInt8}

section Reading

variable {pre rest : List UInt8} {n : Nat}

theorem byteAt_append (pre rest : List UInt8) (b : UInt8) (k : Nat) (hk : k = pre.length) :
    byteAt (pre ++ b :: rest) k = b.toNat := by
  subst hk
  rw [byteAt, getD_append_right _ _ _ _ (le_rfl), Nat.sub_self]
  rfl

theorem wordAt_append (pre rest : List UInt8) (hn : n < 65536) (k : Nat) (hk : k = pre.length) :
    wordAt (pre ++ (wordBytes n ++ rest)) k = n := by
  have hlow := byteAt_append pre (UInt8.ofNat (n / 256) :: rest) (UInt8.ofNat n) k hk
  have hhigh := byteAt_append (pre ++ [UInt8.ofNat n]) rest (UInt8.ofNat (n / 256)) (k + 1)
    (by simp [hk])
  rw [append_assoc] at hhigh
  rw [wordAt, wordBytes]
  simp only [cons_append, nil_append] at hlow hhigh ⊢
  rw [hlow, hhigh, UInt8.toNat_ofNat', UInt8.toNat_ofNat']
  omega

theorem lengthAt_append (pre rest : List UInt8) {fTwo : Bool}
    (hn : n < if fTwo then 65536 else 256) (k : Nat) (hk : k = pre.length) :
    lengthAt fTwo (pre ++ (lengthBytes fTwo n ++ rest)) k = n := by
  cases fTwo
  · have hbyte := byteAt_append pre rest (UInt8.ofNat n) k hk
    have hmod : n % 2 ^ 8 = n := Nat.mod_eq_of_lt hn
    rw [UInt8.toNat_ofNat', hmod] at hbyte
    exact hbyte
  · exact wordAt_append pre rest hn k hk

theorem lengthBytes_length (fTwo : Bool) (n : Nat) :
    (lengthBytes fTwo n).length = cbLength fTwo := by
  cases fTwo <;> rfl

theorem headerBytes_length (fDiff2 : Bool) (ib bitField : Nat) :
    (headerBytes fDiff2 ib bitField).length = cbDiffHdr fDiff2 := by
  cases fDiff2 <;> rfl

def ibMax (fDiff2 : Bool) : Nat := if fDiff2 then 65536 else 8192

variable {fDiff2 : Bool} {ib cbOld cbNew : Nat}

theorem readHeader_headerBytes (hib : ib < ibMax fDiff2) (cbOld cbNew : Nat) (rest : List UInt8) :
    ∃ a, a < 2 ^ 5 ∧
      readHeader fDiff2 (headerBytes fDiff2 ib (DiffHdr.bitField ib cbOld cbNew) ++ rest) =
        ⟨ib, a + 2 ^ 5 * flagsOf cbOld cbNew⟩ := by
  have hflags : flagsOf cbOld cbNew < 8 := hdrFlags_lt _ _ _
  refine ⟨ib % 2 ^ 13 / 256, by omega, ?_⟩
  cases fDiff2
  · have hword := wordAt_append [] rest (n := DiffHdr.bitField ib cbOld cbNew)
      (by rw [bitField_eq]; omega) 0 rfl
    have hmod : ib % 2 ^ 13 = ib := Nat.mod_eq_of_lt hib
    rw [nil_append] at hword
    simp only [readHeader, headerBytes, Bool.false_eq_true, if_false]
    rw [hword, ofDiffHdr_bitField, hmod]
  · have hword := wordAt_append [] (UInt8.ofNat (DiffHdr2.ofDiffHdr
      (DiffHdr.bitField ib cbOld cbNew)).flags :: rest) hib 0 rfl
    have hbyte := byteAt_append (wordBytes ib) rest (UInt8.ofNat (DiffHdr2.ofDiffHdr
      (DiffHdr.bitField ib cbOld cbNew)).flags) 2 rfl
    simp only [readHeader, headerBytes, if_true, append_assoc, cons_append,
      nil_append] at hword hbyte ⊢
    rw [hword, hbyte, ofDiffHdr_bitField, UInt8.toNat_ofNat']
    dsimp only
    rw [Nat.mod_eq_of_lt (by omega)]

section Flags

variable {a : Nat} (ha : a < 2 ^ 5)
include ha

theorem fUseTwoBytesForDataLength_eq :
    DiffHdr2.fUseTwoBytesForDataLength ⟨ib, a + 2 ^ 5 * flagsOf cbOld cbNew⟩ =
      decide (255 < cbOld ∨ 255 < cbNew) := by
  rw [DiffHdr2.fUseTwoBytesForDataLength, flagsOf, show (0x80 : Nat) = 2 ^ 5 * 4 from rfl,
    decide_eq_decide, ne_eq, and_hdrFlags_eq_zero _ _ _ ha, hdrFlags_two, decide_eq_false_iff_not,
    not_not]

theorem fInsert_eq :
    DiffHdr2.fInsert ⟨ib, a + 2 ^ 5 * flagsOf cbOld cbNew⟩ = decide (cbOld = 0) := by
  rw [DiffHdr2.fInsert, flagsOf, show (0x40 : Nat) = 2 ^ 5 * 2 from rfl, decide_eq_decide, ne_eq,
    and_hdrFlags_eq_zero _ _ _ ha, hdrFlags_insert, decide_eq_false_iff_not, not_not]

theorem fReplaceWithSameLength_eq :
    DiffHdr2.fReplaceWithSameLength ⟨ib, a + 2 ^ 5 * flagsOf cbOld cbNew⟩ =
      decide (cbOld ≠ 0 ∧ cbOld = cbNew) := by
  rw [DiffHdr2.fReplaceWithSameLength, flagsOf, show (0x20 : Nat) = 2 ^ 5 * 1 from rfl,
    decide_eq_decide, ne_eq, and_hdrFlags_eq_zero _ _ _ ha, hdrFlags_same, decide_eq_false_iff_not,
    not_not]

end Flags

theorem part_data (pre data rest : List UInt8) (k : Nat) (hk : k = pre.length) :
    part (pre ++ (data ++ rest)) k data.length = data := by
  rw [hk, part, drop_left, take_left]

theorem readDiff_diffBytes (hib : ib < ibMax fDiff2) (hold : cbOld < 65536)
    (hnew : data.length < 65536) (rest : List UInt8) :
    readDiff fDiff2 (diffBytes fDiff2 ib cbOld data ++ rest) =
      (⟨ib, cbOld, data⟩, (diffBytes fDiff2 ib cbOld data).length) := by
  have htwo := fTwoBytes_bitField ib cbOld data.length
  have hdiff := fReplaceWithDiffLength_bitField ib cbOld data.length
  have hcur := headerBytes_length fDiff2 ib (DiffHdr.bitField ib cbOld data.length)
  simp only [diffBytes, htwo, hdiff]
  obtain ⟨fTwo, hfTwo⟩ : ∃ fTwo, fTwo = decide (255 < cbOld ∨ 255 < data.length) := ⟨_, rfl⟩
  have hlt : data.length < (if fTwo then 65536 else 256) ∧ cbOld < if fTwo then 65536 else 256 := by
    rw [hfTwo]
    split
    · exact ⟨hnew, hold⟩
    case isFalse hsmall => simp only [decide_eq_true_eq] at hsmall; omega
  rw [← hfTwo]
  obtain ⟨a, ha, hread⟩ :=
    readHeader_headerBytes hib cbOld data.length (lengthBytes fTwo data.length ++
    ((if decide (cbOld ≠ 0 ∧ cbOld ≠ data.length) then lengthBytes fTwo cbOld else []) ++
      (data ++ rest)))
  generalize headerBytes fDiff2 ib (DiffHdr.bitField ib cbOld data.length) = H at hcur hread ⊢
  have hlength := lengthBytes_length fTwo data.length
  have hlen := lengthAt_append H
    ((if decide (cbOld ≠ 0 ∧ cbOld ≠ data.length) then lengthBytes fTwo cbOld else []) ++
      (data ++ rest)) hlt.1 (cbDiffHdr fDiff2) hcur.symm
  simp only [readDiff, append_assoc, hread, fUseTwoBytesForDataLength_eq ha, fInsert_eq ha,
    fReplaceWithSameLength_eq ha, ← hfTwo, hlen]
  generalize lengthBytes fTwo data.length = L at hlength
  -- only a replace with another length has the second length
  by_cases hone : cbOld = 0 ∨ cbOld = data.length
  · have hmid : ¬ (decide (cbOld ≠ 0 ∧ cbOld ≠ data.length)) = true := by
      simp only [decide_eq_true_eq]
      omega
    have hdata := part_data (H ++ L) data rest (cbDiffHdr fDiff2 + cbLength fTwo)
      (by rw [length_append, hcur, hlength])
    rw [append_assoc] at hdata
    simp only [if_neg hmid, nil_append, hdata, length_append, hcur, hlength]
    by_cases hzero : cbOld = 0
    · rw [if_pos (by simp [hzero]), hzero, add_assoc]
    · have hsame := hone.resolve_left hzero
      rw [if_neg (by simp [hzero]), if_pos (decide_eq_true ⟨hzero, hsame⟩), hsame, add_assoc]
  · have hmid : (decide (cbOld ≠ 0 ∧ cbOld ≠ data.length)) = true := by
      simp only [decide_eq_true_eq]
      omega
    have hlen' := lengthAt_append (H ++ L) (data ++ rest) hlt.2 (cbDiffHdr fDiff2 + cbLength fTwo)
      (by rw [length_append, hcur, hlength])
    have hdata := part_data (H ++ (L ++ lengthBytes fTwo cbOld)) data rest
      (cbDiffHdr fDiff2 + cbLength fTwo + cbLength fTwo)
      (by simp only [length_append, hcur, hlength, lengthBytes_length]; omega)
    simp only [append_assoc] at hlen' hdata
    simp only [if_pos hmid, hlen', hdata, length_append, hcur, hlength, lengthBytes_length]
    rw [if_neg (by simp only [decide_eq_true_eq]; omega),
      if_neg (by simp only [decide_eq_true_eq]; omega)]
    simp only [add_assoc]

theorem afterImageLoop_diffBytes {cbPage : Nat} {old beyond : List UInt8} {st : Patch UInt8}
    (hib : ib < ibMax fDiff2) (hold : cbOld < 65536) (hnew : data.length < 65536)
    (hpos : st.pos ≤ ib) (hpage : st.out.length + (ib - st.pos) + data.length ≤ cbPage)
    (hend : ib + cbOld ≤ old.length) (rest : List UInt8) :
    afterImageLoop fDiff2 cbPage old beyond (diffBytes fDiff2 ib cbOld data ++ rest) st =
      afterImageLoop fDiff2 cbPage old beyond rest (st.step old ⟨ib, cbOld, data⟩) := by
  have hne : diffBytes fDiff2 ib cbOld data ++ rest ≠ [] := by
    cases fDiff2 <;> simp [diffBytes, headerBytes, wordBytes]
  rw [afterImageLoop, if_neg hne, append_assoc, readDiff_diffBytes hib hold hnew]
  dsimp only
  rw [if_neg (by omega), if_neg (by omega), if_neg (by omega),
    if_neg (by rw [length_append]; omega), if_neg (by omega), drop_left]

end Reading

structure Images (cbPage : Nat) where
  old : List UInt8
  new : List UInt8
  page_le : cbPage ≤ 32768
  old_lt : old.length < cbPage
  new_lt : new.length < cbPage

def fDiff2 (cbPage : Nat) : Bool := !fIsSmallPage cbPage

/-- The differences logged so far lead from the first `i` bytes of the old image to the first `j`
bytes of the new one. -/
def Logged {cbPage : Nat} (images : Images cbPage) (diff : List UInt8) (i j : Nat) : Prop :=
  ∃ st : Patch UInt8,
    (∀ rest, afterImageLoop (fDiff2 cbPage) cbPage images.old [] (diff ++ rest) .start =
      afterImageLoop (fDiff2 cbPage) cbPage images.old [] rest st) ∧
    Synced images.old images.new st i j

section Images

variable {cbPage : Nat} {images : Images cbPage} {diff diff' : List UInt8} {i j n : Nat}

theorem Images.lt_ibMax (images : Images cbPage) (hi : i ≤ images.old.length) :
    i < ibMax (fDiff2 cbPage) := by
  have hold := images.old_lt
  have hpage := images.page_le
  simp only [ibMax, fDiff2, fIsSmallPage, Bool.not_eq_true', decide_eq_false_iff_not]
  split <;> omega

theorem logged_start (images : Images cbPage) : Logged images [] 0 0 :=
  ⟨.start, fun _ => rfl, synced_start _ _⟩

theorem Logged.keep (h : Logged images diff i j) (hold : i + n ≤ images.old.length)
    (hnew : j + n ≤ images.new.length) (heq : part images.old i n = part images.new j n) :
    Logged images diff (i + n) (j + n) := by
  obtain ⟨st, hloop, hsynced⟩ := h
  exact ⟨st, hloop, hsynced.keep hold hnew heq⟩

theorem flgAppendDiff_eq {fDiff2 : Bool} {cbMax ib cbOld : Nat}
    (h : flgAppendDiff fDiff2 diff cbMax ib cbOld data = some diff') :
    diff' = diff ++ diffBytes fDiff2 ib cbOld data := by
  simp only [flgAppendDiff, Option.ite_none_left_eq_some, Option.some.injEq] at h
  exact h.2.symm

theorem Logged.append (h : Logged images diff i j) {cbMax cbOld : Nat}
    (happend : flgAppendDiff (fDiff2 cbPage) diff cbMax i cbOld data = some diff')
    (hdata : data = part images.new j n) (hold : i + cbOld ≤ images.old.length)
    (hnew : j + n ≤ images.new.length) : Logged images diff' (i + cbOld) (j + n) := by
  obtain ⟨st, hloop, hsynced⟩ := h
  have hpage := images.page_le
  have holdLt := images.old_lt
  have hnewLt := images.new_lt
  have hlen : data.length = n := by rw [hdata, part_length hnew]
  have hout := hsynced.length_eq
  refine ⟨st.step images.old ⟨i, cbOld, data⟩, fun rest => ?_, hdata ▸ hsynced.edit hold hnew⟩
  rw [flgAppendDiff_eq happend, append_assoc, hloop]
  exact afterImageLoop_diffBytes (images.lt_ibMax (by omega)) (by omega) (by omega) hsynced.pos_le
    (by omega) hold rest

theorem Logged.finish (h : Logged images diff i j)
    (hrest : images.old.drop i = images.new.drop j) :
    errLGGetAfterImage (fDiff2 cbPage) cbPage diff images.old = some images.new := by
  obtain ⟨st, hloop, hsynced⟩ := h
  have hend := hloop []
  rw [append_nil, afterImageLoop.eq_def _ _ _ _ [], if_pos rfl] at hend
  have hnew := images.new_lt
  simp only [errLGGetAfterImage, errLGGetAfterImageIn, hend, hsynced.finish hrest]
  exact if_neg (by omega)

end Images

end EseLinux.LogDiff
