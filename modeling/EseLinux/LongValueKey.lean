import EseLinux.KeyOrder

/-!
The keys of the long-value tree (lv.hxx): ids of 32 and of 64 bits side by side, each root before
its own chunks.
-/

namespace EseLinux.LongValueKey

open KeySegment KeyOrder OrderCode

def lid32Max : Nat := 0x7fffffff

def lid64Flag : Nat := 2 ^ 63

def lid64Max : Nat := 0x80ffffffffffffff

def fIsLid64 (lid : Nat) : Bool := lid &&& lid64Flag != 0

def fValid (lid : Nat) : Bool :=
  if fIsLid64 lid then 0 < lid && lid ≤ lid64Max else 0 < lid && lid ≤ lid32Max

/-- `KEY`: the bytes in two parts. -/
structure Key where
  prefixData : List UInt8
  suffixData : List UInt8

def Key.bytes (key : Key) : List UInt8 := key.prefixData ++ key.suffixData

def Key.cb (key : Key) : Nat := key.prefixData.length + key.suffixData.length

def Key.copyIntoBuffer (key : Key) (cbMax : Nat) : List UInt8 :=
  key.prefixData.take cbMax ++ key.suffixData.take (cbMax - key.prefixData.length)

/-- The high bit of the first byte of an `LVKEY_BUFFER`. -/
def fLid64 (lvkeyBuff : List UInt8) : Bool := (lvkeyBuff.headD 0).toNat.testBit 7

def fIsLVRootKey (key : Key) : Bool :=
  if key.cb = 12 then false
  else if key.cb = 8 then fLid64 (key.copyIntoBuffer 12)
  else if key.cb = 4 then true
  else false

def fIsLVChunkKey (key : Key) : Bool :=
  if key.cb = 12 then true
  else if key.cb = 8 then !fLid64 (key.copyIntoBuffer 12)
  else false

/-- The members of `LVKEY64` and `LVKEY32` that begin at the byte. -/
def member (lvkeyBuff : List UInt8) (ib cb : Nat) : Nat := ofBigEndian ((lvkeyBuff.drop ib).take cb)

def lvRootKeyFromLid (lid : Nat) : Key :=
  if fIsLid64 lid then ⟨[], bigEndian 8 lid⟩ else ⟨[], bigEndian 4 (lid % 2 ^ 32)⟩

def lvKeyFromLidOffset (lid ulOffset : Nat) : Key :=
  if fIsLid64 lid then ⟨[], bigEndian 8 lid ++ bigEndian 4 ulOffset⟩
  else ⟨[], bigEndian 4 (lid % 2 ^ 32) ++ bigEndian 4 ulOffset⟩

def offsetFromKey (key : Key) : Nat :=
  let lvkeyBuff := key.copyIntoBuffer 12
  if key.cb = 12 then member lvkeyBuff 8 4
  else if key.cb = 8 then member lvkeyBuff 4 4
  else 0

def lidFromKey (key : Key) : Nat :=
  let lvkeyBuff := key.copyIntoBuffer 12
  if key.cb = 12 then member lvkeyBuff 0 8
  else if key.cb = 8 then
    if fLid64 lvkeyBuff then member lvkeyBuff 0 8 else member lvkeyBuff 0 4
  else if key.cb = 4 then member lvkeyBuff 0 4
  else 0

def lidOffsetFromKey (key : Key) : Nat × Nat :=
  let lvkeyBuff := key.copyIntoBuffer 12
  if key.cb = 12 then (member lvkeyBuff 0 8, member lvkeyBuff 8 4)
  else if key.cb = 8 then (member lvkeyBuff 0 4, member lvkeyBuff 4 4)
  else (0, 0)

def lvKey (lid : Nat) : Option Nat → Key
  | none => lvRootKeyFromLid lid
  | some ulOffset => lvKeyFromLidOffset lid ulOffset

def cbLid (lid : Nat) : Nat := if fIsLid64 lid then 8 else 4

def offsetBytes : Option Nat → List UInt8
  | none => []
  | some ulOffset => bigEndian 4 ulOffset

variable {lid lid' : Nat} {off off' : Option Nat} {key : Key}

theorem range_of_valid (h : fValid lid = true) :
    (fIsLid64 lid = true ∧ 2 ^ 63 ≤ lid ∧ lid < 2 ^ 64) ∨
      (fIsLid64 lid = false ∧ lid < 2 ^ 31) := by
  unfold fValid at h
  split at h
  case isTrue hkind =>
    have hbit : lid.testBit 63 = true := by
      have hand : lid &&& lid64Flag ≠ 0 := by simpa [fIsLid64] using hkind
      rw [lid64Flag, Nat.and_two_pow] at hand
      cases hb : lid.testBit 63 with
      | false => simp [hb] at hand
      | true => rfl
    have hle : lid ≤ lid64Max := by simpa using (Bool.and_eq_true_iff.mp h).2
    unfold lid64Max at hle
    exact .inl ⟨hkind, Nat.ge_two_pow_of_testBit hbit, by omega⟩
  case isFalse hkind =>
    have hle : lid ≤ lid32Max := by simpa using (Bool.and_eq_true_iff.mp h).2
    unfold lid32Max at hle
    exact .inr ⟨by simpa using hkind, by omega⟩

theorem lvKey_bytes (h : fValid lid = true) (off : Option Nat) :
    (lvKey lid off).bytes = bigEndian (cbLid lid) lid ++ offsetBytes off := by
  rcases range_of_valid h with ⟨hkind, -, -⟩ | ⟨hkind, hlt⟩
  · cases off <;>
      simp [lvKey, lvRootKeyFromLid, lvKeyFromLidOffset, hkind, cbLid, Key.bytes, offsetBytes]
  · have hmod : lid % 4294967296 = lid := Nat.mod_eq_of_lt (by omega)
    cases off <;>
      simp [lvKey, lvRootKeyFromLid, lvKeyFromLidOffset, hkind, cbLid, Key.bytes, offsetBytes, hmod]

theorem fLid64_bigEndian (h : fValid lid = true) (tail : List UInt8) :
    fLid64 (bigEndian (cbLid lid) lid ++ tail) = fIsLid64 lid := by
  rcases range_of_valid h with ⟨hkind, hle, hlt⟩ | ⟨hkind, hlt⟩
  · rw [cbLid, hkind, if_pos rfl, bigEndian_succ, List.cons_append, fLid64, List.headD_cons,
      UInt8.toNat_ofNat', Nat.testBit_eq_decide_div_mod_eq]
    exact decide_eq_true (by omega)
  · rw [cbLid, hkind, if_neg Bool.false_ne_true, bigEndian_succ, List.cons_append, fLid64,
      List.headD_cons, UInt8.toNat_ofNat', Nat.testBit_eq_decide_div_mod_eq]
    exact decide_eq_false (by omega)

theorem ordered_lid (h : fValid lid = true) (h' : fValid lid' = true) :
    Ordered (compare lid lid') (bigEndian (cbLid lid) lid) (bigEndian (cbLid lid') lid') := by
  have hmixed {small large : Nat} (hsmall : small < 2 ^ 31) (hle : 2 ^ 63 ≤ large)
      (hlarge : large < 2 ^ 64) : Before (bigEndian 4 small) (bigEndian 8 large) := by
    rw [bigEndian_succ, bigEndian_succ]
    refine .head ?_ _ _
    rw [compare_ofNat (by omega) (by omega)]
    exact Nat.compare_eq_lt.mpr (by omega)
  rcases range_of_valid h with ⟨hkind, hle, hlt⟩ | ⟨hkind, hlt⟩ <;>
    rcases range_of_valid h' with ⟨hkind', hle', hlt'⟩ | ⟨hkind', hlt'⟩ <;>
    simp only [cbLid, hkind, hkind', if_true, Bool.false_eq_true, if_false]
  · exact ordered_bigEndian hlt hlt'
  · rw [Nat.compare_eq_gt.mpr (by omega)]
    exact hmixed hlt' hle hlt
  · rw [Nat.compare_eq_lt.mpr (by omega)]
    exact hmixed hlt hle' hlt'
  · exact ordered_bigEndian (by omega) (by omega)

theorem compare_offsetBytes (hoff : ∀ o ∈ off, o < 2 ^ 32) (hoff' : ∀ o ∈ off', o < 2 ^ 32) :
    compare (offsetBytes off) (offsetBytes off') = compare off off' := by
  cases off with
  | none =>
    cases off' with
    | none => rfl
    | some o' =>
      rw [offsetBytes, offsetBytes, bigEndian_succ]
      rfl
  | some o =>
    cases off' with
    | none =>
      rw [offsetBytes, offsetBytes, bigEndian_succ]
      rfl
    | some o' => exact (ordered_bigEndian (hoff o rfl) (hoff' o' rfl)).compare_eq

theorem compare_lvKey (h : fValid lid = true) (h' : fValid lid' = true)
    (hoff : ∀ o ∈ off, o < 2 ^ 32) (hoff' : ∀ o ∈ off', o < 2 ^ 32) :
    compare (lvKey lid off).bytes (lvKey lid' off').bytes =
      (compare lid lid').then (compare off off') := by
  have hlid := ordered_lid h h'
  rw [lvKey_bytes h, lvKey_bytes h']
  rcases hcompare : compare lid lid' with _ | _ | _ <;> rw [hcompare] at hlid
  · exact Before.compare_eq (Before.append hlid _ _)
  · obtain rfl := Nat.compare_eq_eq.mp hcompare
    rw [compare_append rfl, Std.ReflOrd.compare_self]
    exact compare_offsetBytes hoff hoff'
  · exact Std.OrientedCmp.gt_iff_lt.mpr (Before.compare_eq (Before.append hlid _ _))

theorem copyIntoBuffer_eq (key : Key) {cbMax : Nat} (h : key.bytes.length ≤ cbMax) :
    key.copyIntoBuffer cbMax = key.bytes := by
  rw [Key.copyIntoBuffer, ← List.take_append]
  exact List.take_of_length_le h

theorem take_bigEndian (cb w : Nat) : (bigEndian cb w).take cb = bigEndian cb w :=
  List.take_of_length_le (by rw [bigEndian_length])

theorem decode_lvKey (h : fValid lid = true) (hoff : ∀ o ∈ off, o < 2 ^ 32)
    (hkey : key.bytes = (lvKey lid off).bytes) :
    fIsLVRootKey key = off.isNone ∧ fIsLVChunkKey key = off.isSome ∧ lidFromKey key = lid ∧
      ∀ o ∈ off, offsetFromKey key = o ∧ lidOffsetFromKey key = (lid, o) := by
  rw [lvKey_bytes h] at hkey
  have hlen : (offsetBytes off).length ≤ 4 := by cases off <;> simp [offsetBytes]
  have hcb : key.cb = cbLid lid + (offsetBytes off).length := by
    rw [Key.cb, ← List.length_append, ← Key.bytes, hkey, List.length_append, bigEndian_length]
  have hcopy : key.copyIntoBuffer 12 = bigEndian (cbLid lid) lid ++ offsetBytes off := by
    rw [← hkey]
    refine copyIntoBuffer_eq key ?_
    have hle : cbLid lid ≤ 8 := by
      unfold cbLid
      split <;> decide
    rw [hkey, List.length_append, bigEndian_length]
    omega
  have hflag := fLid64_bigEndian h (offsetBytes off)
  have hid : ofBigEndian (bigEndian (cbLid lid) lid) = lid := by
    refine ofBigEndian_bigEndian ?_
    rcases range_of_valid h with ⟨hkind, -, hlt⟩ | ⟨hkind, hlt⟩ <;>
      simp only [cbLid, hkind, if_true, Bool.false_eq_true, if_false] <;> omega
  unfold fIsLVRootKey fIsLVChunkKey lidFromKey offsetFromKey lidOffsetFromKey
  rw [hcb, hcopy, hflag]
  have hoffset : ∀ o ∈ off, ofBigEndian (bigEndian 4 o) = o := fun o ho =>
    ofBigEndian_bigEndian (hoff o ho)
  cases hkind : fIsLid64 lid <;> cases off <;>
    simp_all [cbLid, offsetBytes, member, take_bigEndian]

/-- The order of the keys is that of the ids, then a root before its chunks and these by offset; the
keys are distinct, and each is told apart and read back from its bytes. -/
theorem lvKey_embeds (lid lid' : Nat) (off off' : Option Nat) (h : fValid lid = true)
    (h' : fValid lid' = true) (hoff : ∀ o ∈ off, o < 2 ^ 32) (hoff' : ∀ o ∈ off', o < 2 ^ 32) :
    compare (lvKey lid off).bytes (lvKey lid' off').bytes =
        (compare lid lid').then (compare off off') ∧
      ((lvKey lid off).bytes = (lvKey lid' off').bytes → lid = lid' ∧ off = off') ∧
      ∀ key : Key, key.bytes = (lvKey lid off).bytes →
        fIsLVRootKey key = off.isNone ∧ fIsLVChunkKey key = off.isSome ∧ lidFromKey key = lid ∧
          ∀ o ∈ off, offsetFromKey key = o ∧ lidOffsetFromKey key = (lid, o) := by
  refine ⟨compare_lvKey h h' hoff hoff', fun heq => ?_, fun key hkey => decode_lvKey h hoff hkey⟩
  obtain ⟨hroot, -, hlid, hoffset⟩ := decode_lvKey h hoff rfl
  obtain ⟨hroot', -, hlid', hoffset'⟩ := decode_lvKey h' hoff' heq
  refine ⟨hlid.symm.trans hlid', ?_⟩
  cases off with
  | none => exact (Option.isNone_iff_eq_none.mp (hroot'.symm.trans hroot)).symm
  | some o =>
    cases off' with
    | none => cases hroot.symm.trans hroot'
    | some o' => rw [← (hoffset o rfl).1, ← (hoffset' o' rfl).1]

/-- The root of the first id of 64 bits and a chunk of the last one of 32 bits, both of 8 bytes. -/
theorem mixed_keys_embed :
    compare (lvKey 0x7fffffff (some 0)).bytes (lvKey 0x8000000080000001 none).bytes = .lt ∧
      fIsLVRootKey ⟨[0x80, 0, 0], [0, 0x80, 0, 0, 1]⟩ = true :=
  have h := lvKey_embeds 0x8000000080000001 0x7fffffff none (some 0) (by decide) (by decide)
    (fun _ ho => by cases ho) (fun _ ho => by cases ho; decide)
  ⟨Std.OrientedCmp.gt_iff_lt.mp h.1, (h.2.2 ⟨[0x80, 0, 0], [0, 0x80, 0, 0, 1]⟩ (by decide)).1⟩

end EseLinux.LongValueKey
