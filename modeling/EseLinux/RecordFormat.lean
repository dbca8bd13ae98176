import EseLinux.TaggedImage

/-!
Records: a header, the fixed columns with their null bits, the offsets and the data of the variable
columns, and the tagged columns.  Addresses count from the first byte of the record.
-/

namespace EseLinux.RecordFormat

open ByteMemory TaggedColumns

def fidFixedLeast : Nat := 1
def fidFixedMost : Nat := 127
def fidVarLeast : Nat := 128
def fidVarNone : Nat := 127
def fidTaggedLeast : Nat := 256

/-- The part of a table's `FIELD` for a fixed column that is used here. -/
structure Field where
  ibRecordOffset : Nat
  cbMaxLen : Nat
  /-- The type of the column is `JET_coltypNil`. -/
  fDeleted : Bool

structure Tdb where
  pfieldFixed : Nat → Field

structure Rec where
  buf : Memory
  cb : Nat

def ibVarOffset (ibVarOffs : Nat) : Nat := ibVarOffs &&& 0x7fff

namespace Rec

def cbRecordHeader : Nat := 4
def cbVarOffset : Nat := 2

variable (r : Rec)

def fidFixedLastInRec : Nat := (r.buf 0).toNat

def fidVarLastInRec : Nat := (r.buf 1).toNat

def ibEndOfFixedData : Nat := word r.buf 2

def cFixedColumns : Nat := r.fidFixedLastInRec + 1 - fidFixedLeast

def cVarColumns : Nat := r.fidVarLastInRec + 1 - fidVarLeast

def cbFixedNullBitMap : Nat := (r.cFixedColumns + 7) / 8

def ibFixedNullBitMap : Nat := r.ibEndOfFixedData - r.cbFixedNullBitMap

def fFixedNullBit (ifid : Nat) : Bool :=
  (r.buf (r.ibFixedNullBitMap + ifid / 8)).toNat.testBit (ifid % 8)

def ibVarOffs (ifid : Nat) : Nat := r.ibEndOfFixedData + cbVarOffset * ifid

def varOffs (ifid : Nat) : Nat := word r.buf (r.ibVarOffs ifid)

def ibVarOffsetStart (fidVar : Nat) : Nat :=
  if fidVar = fidVarLeast then 0 else ibVarOffset (r.varOffs (fidVar - fidVarLeast - 1))

def ibVarOffsetEnd (fidVar : Nat) : Nat := ibVarOffset (r.varOffs (fidVar - fidVarLeast))

def ibVarData : Nat := r.ibVarOffs r.cVarColumns

def ibEndOfVarData : Nat :=
  if r.fidVarLastInRec = fidVarNone then 0
  else ibVarOffset (r.varOffs (r.fidVarLastInRec - fidVarLeast))

def ibTaggedData : Nat := r.ibVarData + r.ibEndOfVarData

/-- The constructor of `TAGFIELDS`. -/
def tagFields (fSmallPage : Bool) : TagFields :=
  let buf := fun i => r.buf (r.ibTaggedData + i)
  let cbTaggedColumns := r.cb - r.ibTaggedData
  ⟨fSmallPage, buf, cbTaggedColumns,
    if cbTaggedColumns = 0 then 0 else (tagfldFormat fSmallPage).ib buf 0 0 / cbTagfld⟩

end Rec

/-- A record of a table: its parts follow one another, and the fixed columns it has lie in front of
the null bits. -/
structure Valid (fSmallPage : Bool) (tdb : Tdb) (r : Rec) : Prop where
  cb_lt : r.cb < 32768
  fidFixed_le : r.fidFixedLastInRec ≤ fidFixedMost
  fidVar_ge : fidVarNone ≤ r.fidVarLastInRec
  bitMap : Rec.cbRecordHeader + r.cbFixedNullBitMap ≤ r.ibEndOfFixedData
  fixed : ∀ fid, fidFixedLeast ≤ fid → fid ≤ r.fidFixedLastInRec →
    Rec.cbRecordHeader ≤ (tdb.pfieldFixed fid).ibRecordOffset ∧
      (tdb.pfieldFixed fid).ibRecordOffset + (tdb.pfieldFixed fid).cbMaxLen ≤ r.ibFixedNullBitMap
  var : ∀ fid, fidVarLeast ≤ fid → fid ≤ r.fidVarLastInRec →
    r.ibVarOffsetStart fid ≤ r.ibVarOffsetEnd fid
  tagged_le : r.ibTaggedData ≤ r.cb
  tagged : ∃ items, Holds (r.tagFields fSmallPage) items

/-- The record of a row before and after an update: an update does not take columns away from the
fixed and the variable ones. -/
structure Update where
  fSmallPage : Bool
  tdb : Tdb
  old : Rec
  new : Rec
  old_valid : Valid fSmallPage tdb old
  new_valid : Valid fSmallPage tdb new
  fixed_le : old.fidFixedLastInRec ≤ new.fidFixedLastInRec
  var_le : old.fidVarLastInRec ≤ new.fidVarLastInRec
  bitMap_le : old.ibFixedNullBitMap ≤ new.ibFixedNullBitMap

def cbitFixed : Nat := 32
def cbitVariable : Nat := 32
def cbitFixedVariable : Nat := cbitFixed + cbitVariable
def cbitTagged : Nat := 192
def cbRgbitIndex : Nat := 32

/-- `FID::IbHash` and `FID::IbitHash`: columns share the bits in which they are recorded as set. -/
def ibHash (fid : Nat) : Nat :=
  if fid < fidVarLeast then (fid - fidFixedLeast) % cbitFixed / 8
  else if fid < fidTaggedLeast then ((fid - fidVarLeast) % cbitVariable + cbitFixed) / 8
  else ((fid - fidTaggedLeast) % cbitTagged + cbitFixedVariable) / 8

def ibitHash (fid : Nat) : Nat :=
  if fid < fidVarLeast then (fid - fidFixedLeast) % 8
  else if fid < fidTaggedLeast then (fid - fidVarLeast) % 8
  else (fid - fidTaggedLeast) % 8

structure Fucb where
  rgbitSet : Memory
  fTagImplicitOp : Bool

namespace Fucb

variable (fucb : Fucb)

def fColumnSet (fid : Nat) : Bool := (fucb.rgbitSet (ibHash fid)).toNat.testBit (ibitHash fid)

def fTaggedColumnSet : Bool :=
  (List.range' (cbitFixedVariable / 8) (cbRgbitIndex - cbitFixedVariable / 8)).any
    fun ib => fucb.rgbitSet ib != 0

end Fucb

end EseLinux.RecordFormat
