import EseLinux.DigitList

/-!
The normalised form of one column in an index key: a prefix byte, then bytes whose order is the
order of the column.  Text columns are normalised by the operating system and have no place here.
The machine is little-endian, so data passed by the user and data of a record read alike.
-/

namespace EseLinux.KeySegment

open DigitList List

def bPrefixNull : UInt8 := 0x00
def bPrefixZeroLength : UInt8 := 0x40
def bPrefixNullHigh : UInt8 := 0xc0
def bPrefixData : UInt8 := 0x7f

def cbFLDBinaryChunk : Nat := 8
def cbFLDBinaryChunkNormalized : Nat := cbFLDBinaryChunk + 1

inductive Coltyp
  | bit
  | unsignedByte
  | short
  | unsignedShort
  | long
  | unsignedLong
  | longLong
  | unsignedLongLong
  | currency
  | ieeeSingle
  | ieeeDouble
  | dateTime
  | guid
  | binary
  | longBinary
  deriving DecidableEq, Repr

def fRECBinaryColumn : Coltyp → Bool
  | .binary | .longBinary => true
  | _ => false

def Coltyp.size : Coltyp → Option Nat
  | .bit | .unsignedByte => some 1
  | .short | .unsignedShort => some 2
  | .long | .unsignedLong | .ieeeSingle => some 4
  | .longLong | .unsignedLongLong | .currency | .ieeeDouble | .dateTime => some 8
  | .guid => some 16
  | .binary | .longBinary => none

/-- A column of a key: its type, its place in the record and its direction.  A long value is
never a fixed column, and a fixed column has the size of its type. -/
structure IdxSeg where
  coltyp : Coltyp
  fFixedField : Bool
  cbMaxLen : Nat
  fDescending : Bool
  hlong : coltyp = .longBinary → fFixedField = false
  hcbMaxLen : fFixedField = true → 0 < cbMaxLen ∧ ∀ n ∈ coltyp.size, cbMaxLen = n

/-- The values a column can hold, `none` for NULL.  A column that is not fixed may hold the
zero-length value, whatever its type. -/
def IdxSeg.Holds (seg : IdxSeg) : Option (List UInt8) → Prop
  | none => True
  | some pbField =>
    (seg.fFixedField = true → pbField.length = seg.cbMaxLen) ∧
      ∀ n ∈ seg.coltyp.size, pbField = [] ∨ pbField.length = n

structure Limits where
  cbKeyMost : Nat
  cbVarSegMac : Nat
  fSortNullsHigh : Bool
  fDotNetGuid : Bool
  hcbVarSegMac : 0 < cbVarSegMac
  hcbVarSegMac_le : cbVarSegMac ≤ cbKeyMost

/-- The limit on a variable segment, one more than the key when none was set. -/
def Limits.cbVarSegMacT (idb : Limits) : Nat :=
  if idb.cbKeyMost = idb.cbVarSegMac then idb.cbKeyMost + 1 else idb.cbVarSegMac

def Limits.bPrefixNullT (idb : Limits) : UInt8 :=
  if idb.fSortNullsHigh then bPrefixNullHigh else bPrefixNull

def bigEndian (cb w : Nat) : List UInt8 := (leBytes cb w).reverse

def ofBigEndian (bytes : List UInt8) : Nat := leNat bytes.reverse

def maskHighBit (cb : Nat) : Nat := 2 ^ (8 * cb - 1)

def flipHighBit (cb w : Nat) : Nat := w ^^^ maskHighBit cb

def maskAll (cb : Nat) : Nat := 2 ^ (8 * cb) - 1

def rgibDotNetGuid : List Nat := [3, 2, 1, 0, 5, 4, 7, 6, 8, 9, 10, 11, 12, 13, 14, 15]

def rgibGuid : List Nat := [10, 11, 12, 13, 14, 15, 8, 9, 6, 7, 4, 5, 0, 1, 2, 3]

def rgibOfGuid (fDotNetGuid : Bool) : List Nat := if fDotNetGuid then rgibDotNetGuid else rgibGuid

def normalizeReal (cb w : Nat) : Nat :=
  if w &&& maskHighBit cb ≠ 0 then w ^^^ maskAll cb else flipHighBit cb w

def normalizeFixedSegment (coltyp : Coltyp) (fDotNetGuid : Bool) (pbField : List UInt8) :
    List UInt8 :=
  bPrefixData ::
    match coltyp with
    | .bit => [if pbField.getD 0 0 = 0 then 0x00 else 0xff]
    | .unsignedByte => [pbField.getD 0 0]
    | .short => bigEndian 2 (flipHighBit 2 (leNat pbField))
    | .unsignedShort => bigEndian 2 (leNat pbField)
    | .long => bigEndian 4 (flipHighBit 4 (leNat pbField))
    | .unsignedLong => bigEndian 4 (leNat pbField)
    | .longLong | .currency => bigEndian 8 (flipHighBit 8 (leNat pbField))
    | .unsignedLongLong => bigEndian 8 (leNat pbField)
    | .ieeeSingle => bigEndian 4 (normalizeReal 4 (leNat pbField))
    | .ieeeDouble | .dateTime => bigEndian 8 (normalizeReal 8 (leNat pbField))
    | .guid => (rgibOfGuid fDotNetGuid).map fun ib => pbField.getD ib 0
    | .binary | .longBinary => []

structure Segment where
  bytes : List UInt8
  fColumnTruncated : Bool
  deriving DecidableEq, Repr

/-- The bytes a value of `cb` normalised bytes may take of the key. -/
def cbSegWithin (idb : Limits) (cbKeyAvail cb : Nat) : Nat :=
  min (if idb.cbVarSegMacT < idb.cbKeyMost ∧ cb > idb.cbVarSegMacT then idb.cbVarSegMacT else cb)
    cbKeyAvail

def fTruncatedWithin (idb : Limits) (cbKeyAvail cb : Nat) : Bool :=
  (if idb.cbVarSegMacT < idb.cbKeyMost ∧ cb > idb.cbVarSegMacT then idb.cbVarSegMacT else cb) >
    cbKeyAvail

/-- The last chunk of a field: zeroes up to a full chunk, and the bytes that count. -/
def lastChunk (fNormalisedEntireColumn : Bool) (pbField : List UInt8) : List UInt8 :=
  pbField ++ replicate (cbFLDBinaryChunk - pbField.length) 0 ++
    [if pbField.length = cbFLDBinaryChunk then
        if fNormalisedEntireColumn then UInt8.ofNat (cbFLDBinaryChunkNormalized - 1)
        else UInt8.ofNat cbFLDBinaryChunkNormalized
      else UInt8.ofNat pbField.length]

def partChunk (cbSegRemaining : Nat) (pbField : List UInt8) : List UInt8 :=
  if pbField.length ≥ cbSegRemaining then pbField.take cbSegRemaining
  else pbField ++ replicate (cbSegRemaining - pbField.length) 0

/-- The loop over the chunks that fit whole, then the part of the next one.  The last chunk
leaves the field where it is; nothing is left of the segment then. -/
def normalizeChunks (fNormalisedEntireColumn : Bool) (cbTail : Nat) :
    Nat → List UInt8 → List UInt8
  | 0, pbField => partChunk cbTail pbField
  | cChunks + 1, pbField =>
    if pbField.length ≤ cbFLDBinaryChunk then
      lastChunk fNormalisedEntireColumn pbField ++
        normalizeChunks fNormalisedEntireColumn cbTail cChunks pbField
    else
      pbField.take cbFLDBinaryChunk ++ [UInt8.ofNat cbFLDBinaryChunkNormalized] ++
        normalizeChunks fNormalisedEntireColumn cbTail cChunks (pbField.drop cbFLDBinaryChunk)

/-- The normalised size of a variable binary value of `cbField` bytes. -/
def cbChunked (cbField : Nat) : Nat :=
  (cbField + (cbFLDBinaryChunk - 1)) / cbFLDBinaryChunk * cbFLDBinaryChunkNormalized + 1

def normalizeBinarySegment (idb : Limits) (cbKeyAvail : Nat) (fFixedField : Bool)
    (pbField : List UInt8) : Segment :=
  if fFixedField then
    let cbSeg := cbSegWithin idb cbKeyAvail (pbField.length + 1)
    ⟨bPrefixData :: pbField.take (cbSeg - 1), fTruncatedWithin idb cbKeyAvail (pbField.length + 1)⟩
  else
    let cbSeg := cbSegWithin idb cbKeyAvail (cbChunked pbField.length)
    let fNormalisedEntireColumn := decide (cbSeg = cbChunked pbField.length)
    ⟨bPrefixData :: normalizeChunks fNormalisedEntireColumn
        ((cbSeg - 1) % cbFLDBinaryChunkNormalized) ((cbSeg - 1) / cbFLDBinaryChunkNormalized)
        pbField,
      fTruncatedWithin idb cbKeyAvail (cbChunked pbField.length)⟩

def normalizeNullSegment (idb : Limits) (coltyp : Coltyp) (fZeroLength : Bool) : List UInt8 :=
  [if fRECBinaryColumn coltyp && fZeroLength then bPrefixZeroLength else idb.bPrefixNullT]

/-- The value of a column as a segment of a key with `cbKeyAvail` bytes left. -/
def normalizeColumn (idb : Limits) (cbKeyAvail : Nat) (seg : IdxSeg) : Option (List UInt8) → Segment
  | none => ⟨normalizeNullSegment idb seg.coltyp false, false⟩
  | some [] => ⟨normalizeNullSegment idb seg.coltyp true, false⟩
  | some (b :: pbField) =>
    if fRECBinaryColumn seg.coltyp then
      normalizeBinarySegment idb cbKeyAvail seg.fFixedField (b :: pbField)
    else ⟨normalizeFixedSegment seg.coltyp idb.fDotNetGuid (b :: pbField), false⟩

def flipBits (fDescending : Bool) (bytes : List UInt8) : List UInt8 :=
  if fDescending then bytes.map (· ^^^ 0xff) else bytes

def chunked (pbField : List UInt8) : List UInt8 :=
  normalizeChunks true 0 ((pbField.length + (cbFLDBinaryChunk - 1)) / cbFLDBinaryChunk) pbField

def wholeSegment (idb : Limits) (seg : IdxSeg) : Option (List UInt8) → List UInt8
  | none => normalizeNullSegment idb seg.coltyp false
  | some [] => normalizeNullSegment idb seg.coltyp true
  | some (b :: pbField) =>
    if fRECBinaryColumn seg.coltyp then
      bPrefixData :: if seg.fFixedField then b :: pbField else chunked (b :: pbField)
    else normalizeFixedSegment seg.coltyp idb.fDotNetGuid (b :: pbField)

/-- The segment fits in the key space that is left, and a binary value also within the limit on
variable segments where one was set. -/
def Whole (idb : Limits) (cbKeyAvail : Nat) (seg : IdxSeg) (v : Option (List UInt8)) : Prop :=
  (wholeSegment idb seg v).length ≤ cbKeyAvail ∧
    (fRECBinaryColumn seg.coltyp = true → v ≠ none → v ≠ some [] →
      idb.cbVarSegMac ≠ idb.cbKeyMost → (wholeSegment idb seg v).length ≤ idb.cbVarSegMac)

variable {pbField : List UInt8}

theorem chunked_last (hpos : pbField ≠ [])
    (hle : pbField.length ≤ cbFLDBinaryChunk) : chunked pbField = lastChunk true pbField := by
  have hlen : 0 < pbField.length := length_pos_iff.mpr hpos
  have hcount : (pbField.length + (cbFLDBinaryChunk - 1)) / cbFLDBinaryChunk = 0 + 1 := by
    simp only [cbFLDBinaryChunk] at hle ⊢
    omega
  rw [chunked, hcount, normalizeChunks, if_pos hle, normalizeChunks, partChunk]
  simp

theorem chunked_next (hlt : cbFLDBinaryChunk < pbField.length) :
    chunked pbField = pbField.take cbFLDBinaryChunk ++
      UInt8.ofNat cbFLDBinaryChunkNormalized :: chunked (pbField.drop cbFLDBinaryChunk) := by
  have hcount : (pbField.length + (cbFLDBinaryChunk - 1)) / cbFLDBinaryChunk =
      (pbField.length - cbFLDBinaryChunk + (cbFLDBinaryChunk - 1)) / cbFLDBinaryChunk + 1 := by
    simp only [cbFLDBinaryChunk] at hlt ⊢
    omega
  rw [chunked, chunked, hcount, normalizeChunks, if_neg (not_le.mpr hlt), length_drop,
    append_assoc, singleton_append]

theorem drop_chunk_ne_nil (hlt : cbFLDBinaryChunk < pbField.length) :
    pbField.drop cbFLDBinaryChunk ≠ [] :=
  length_pos_iff.mp (by rw [length_drop]; omega)

theorem chunk_induction {motive : (pbField : List UInt8) → pbField ≠ [] → Prop}
    (last : ∀ (pbField : List UInt8) (hpos : pbField ≠ []),
      pbField.length ≤ cbFLDBinaryChunk → motive pbField hpos)
    (next : ∀ (pbField : List UInt8) (hpos : pbField ≠ [])
      (hlt : cbFLDBinaryChunk < pbField.length),
      motive (pbField.drop cbFLDBinaryChunk) (drop_chunk_ne_nil hlt) → motive pbField hpos)
    (pbField : List UInt8) (hpos : pbField ≠ []) : motive pbField hpos := by
  rcases lt_or_ge cbFLDBinaryChunk pbField.length with hlt | hle
  · apply next pbField hpos hlt
    exact chunk_induction last next (pbField.drop cbFLDBinaryChunk) (drop_chunk_ne_nil hlt)
  · exact last pbField hpos hle
termination_by pbField.length
decreasing_by
  rw [length_drop]
  simp only [cbFLDBinaryChunk] at hlt ⊢
  omega

theorem lastChunk_true (pbField : List UInt8) : lastChunk true pbField =
    pbField ++ replicate (cbFLDBinaryChunk - pbField.length) 0 ++
      [UInt8.ofNat pbField.length] := by
  rw [lastChunk]
  split
  case isTrue hfull =>
    rw [hfull]
    rfl
  case isFalse => rfl

theorem lastChunk_length {fNormalisedEntireColumn : Bool}
    (hle : pbField.length ≤ cbFLDBinaryChunk) :
    (lastChunk fNormalisedEntireColumn pbField).length = cbFLDBinaryChunkNormalized := by
  simp only [lastChunk, length_append, length_replicate, length_singleton,
    cbFLDBinaryChunkNormalized]
  omega

theorem chunked_length (hpos : pbField ≠ []) :
    (chunked pbField).length + 1 = cbChunked pbField.length := by
  induction pbField, hpos using chunk_induction with
  | last pbField hpos hle =>
    have hlen : 0 < pbField.length := length_pos_iff.mpr hpos
    rw [chunked_last hpos hle, lastChunk_length hle]
    simp only [cbChunked, cbFLDBinaryChunk, cbFLDBinaryChunkNormalized] at hle ⊢
    omega
  | next pbField hpos hlt ih =>
    rw [length_drop] at ih
    rw [chunked_next hlt, length_append, length_cons, length_take]
    simp only [cbChunked, cbFLDBinaryChunk, cbFLDBinaryChunkNormalized] at hlt ih ⊢
    omega

theorem cbSegWithin_eq {idb : Limits} {cbKeyAvail cb : Nat} (havail : cb ≤ cbKeyAvail)
    (hvar : idb.cbVarSegMac ≠ idb.cbKeyMost → cb ≤ idb.cbVarSegMac) :
    cbSegWithin idb cbKeyAvail cb = cb ∧ fTruncatedWithin idb cbKeyAvail cb = false := by
  have hfree : ¬ (idb.cbVarSegMacT < idb.cbKeyMost ∧ cb > idb.cbVarSegMacT) := by
    rintro ⟨hlt, hgt⟩
    simp only [Limits.cbVarSegMacT] at hlt hgt
    split at hlt
    · omega
    · rename_i hne
      rw [if_neg hne] at hgt
      omega
  rw [cbSegWithin, fTruncatedWithin, if_neg hfree]
  exact ⟨min_eq_left havail, decide_eq_false (not_lt.mpr havail)⟩

theorem normalizeColumn_whole {idb : Limits} {cbKeyAvail : Nat} {seg : IdxSeg}
    {v : Option (List UInt8)} (h : Whole idb cbKeyAvail seg v) :
    normalizeColumn idb cbKeyAvail seg v = ⟨wholeSegment idb seg v, false⟩ := by
  rcases v with _ | _ | ⟨b, pbField⟩
  · rfl
  · rfl
  · obtain ⟨havail, hvar⟩ := h
    rw [normalizeColumn]
    rcases hbinary : fRECBinaryColumn seg.coltyp with _ | _
    · simp [wholeSegment, hbinary]
    · have hlimit := hvar hbinary (by simp) (by simp)
      rw [if_pos rfl, normalizeBinarySegment]
      rcases hfixed : seg.fFixedField with _ | _
      · have hseg : wholeSegment idb seg (some (b :: pbField)) =
            bPrefixData :: chunked (b :: pbField) := by
          simp [wholeSegment, hbinary, hfixed]
        have hcb : (wholeSegment idb seg (some (b :: pbField))).length =
            cbChunked (b :: pbField).length := by
          rw [hseg, length_cons, chunked_length (cons_ne_nil b pbField)]
        obtain ⟨hwithin, htruncated⟩ := cbSegWithin_eq (hcb ▸ havail) (hcb ▸ hlimit)
        have hdiv : (cbChunked (b :: pbField).length - 1) / cbFLDBinaryChunkNormalized =
            ((b :: pbField).length + (cbFLDBinaryChunk - 1)) / cbFLDBinaryChunk := by
          rw [cbChunked, Nat.add_sub_cancel, Nat.mul_div_cancel _ (by decide)]
        have hmod : (cbChunked (b :: pbField).length - 1) % cbFLDBinaryChunkNormalized = 0 := by
          rw [cbChunked, Nat.add_sub_cancel, Nat.mul_mod_left]
        simp only [Bool.false_eq_true, if_false, hwithin, htruncated, hdiv, hmod, decide_true,
          hseg, chunked]
      · have hseg : wholeSegment idb seg (some (b :: pbField)) = bPrefixData :: b :: pbField := by
          simp [wholeSegment, hbinary, hfixed]
        have hcb : (wholeSegment idb seg (some (b :: pbField))).length =
            (b :: pbField).length + 1 := by
          rw [hseg, length_cons]
        obtain ⟨hwithin, htruncated⟩ := cbSegWithin_eq (hcb ▸ havail) (hcb ▸ hlimit)
        simp only [if_true, hwithin, htruncated, hseg, Nat.add_sub_cancel, take_length]

end EseLinux.KeySegment
