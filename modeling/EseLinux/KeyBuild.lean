import EseLinux.KeySegment

/-!
The two ways to build a key: from the columns of a record, for an entry of the index, and one
column after the other, for a search.  What a column of the record holds is given with the way
it was retrieved; the record formats and the long-value tree are modelled elsewhere.
-/

namespace EseLinux.KeyBuild

open KeySegment

def cbKeyMostOld : Nat := 255

/-- An index without text columns.  A tuple index cuts pieces from its first column, which is
binary, and sets no limit on variable segments. -/
structure Idb extends Limits where
  rgidxseg : List IdxSeg
  fTuples : Bool
  cchTuplesLengthMin : Nat
  cchTuplesLengthMax : Nat
  fNestedTable : Bool
  fDisallowTruncation : Bool
  fHasPlaceholderColumn : Bool
  htuples : fTuples = true → 0 < cchTuplesLengthMin ∧ cbVarSegMac = cbKeyMost ∧
    ∀ seg ∈ rgidxseg.head?, fRECBinaryColumn seg.coltyp = true

inductive Source
  | inRecord
  | userDefinedDefault
  | compressed
  | separatedLV
  | intrinsicLV
  deriving DecidableEq, Repr

/-- A column of the record for an index entry: which instance of it, and its value. -/
structure Column where
  fTagged : Bool
  itag : Nat
  source : Source
  value : Option (List UInt8)

/-- The entry of a record in an index: its conditional columns (which must be null, and which
are), its key columns and, for a tuple index, where the tuple starts. -/
structure Entry where
  rgConditional : List (Bool × Bool)
  columns : List Column
  ichOffset : Nat

inductive Stop
  | wrnFLDNotPresentInIndex
  | wrnFLDOutOfKeys (iidxseg : Nat)
  | wrnFLDOutOfTuples
  | errKeyTruncated
  deriving DecidableEq, Repr

structure KeyState where
  key : List UInt8
  fKeyTruncated : Bool
  fAllNulls : Bool
  fNullFirstSeg : Bool
  fNullSeg : Bool
  fNeedMoreData : Bool
  fAllMVOutOfValues : Bool
  deriving DecidableEq, Repr

def KeyState.start : KeyState := ⟨[], false, true, false, false, false, true⟩

def Idb.cbKeyAvail (idb : Idb) (st : KeyState) : Nat := idb.cbKeyMost - st.key.length

/-- A value trimmed to `cb` bytes.  A value of a sized type is read at its full size from where
it lies, whatever length it was trimmed to. -/
def trim (seg : IdxSeg) (cb : Nat) (pb : List UInt8) : List UInt8 :=
  if fRECBinaryColumn seg.coltyp then pb.take cb else pb

/-- The data of a column for the key.  A long value is read from the start of the tuple; any
other value is trimmed before the tuple is taken from it. -/
def dataField (idb : Idb) (cbDataMost ichOffset : Nat) (fTuple : Bool) (seg : IdxSeg)
    (source : Source) (pb : List UInt8) : List UInt8 :=
  if fTuple then
    match source with
    | .inRecord | .userDefinedDefault =>
      ((trim seg cbDataMost pb).drop ichOffset).take idb.cchTuplesLengthMax
    | .compressed | .separatedLV | .intrinsicLV =>
      (trim seg cbDataMost (pb.drop ichOffset)).take idb.cchTuplesLengthMax
  else trim seg cbDataMost pb

/-- A NULL column where nothing is left of the key, or a later instance that does not exist. -/
def nullColumn (fFirst : Bool) (st : KeyState) : KeyState :=
  { st with fNullFirstSeg := st.fNullFirstSeg || fFirst, fNullSeg := true }

def appendSegment (idb : Idb) (cbDataMost : Nat) (seg : IdxSeg) (v : Option (List UInt8))
    (st : KeyState) : Except Stop KeyState :=
  let cbKeyAvail := idb.cbKeyAvail st
  let segment := normalizeColumn idb.toLimits cbKeyAvail seg v
  let cbSeg := segment.bytes.length
  let cbField := min (v.getD []).length cbDataMost
  let fNeedMoreData := cbField == cbDataMost && cbSeg < idb.cbKeyMost &&
    cbSeg < cbKeyAvail && cbSeg < idb.cbVarSegMac && idb.cbKeyMost != cbKeyMostOld
  let st := { st with fNeedMoreData := st.fNeedMoreData || fNeedMoreData }
  if st.fKeyTruncated then .ok st
  else
    let fTruncated := segment.fColumnTruncated || cbSeg > cbKeyAvail
    if fTruncated && idb.fDisallowTruncation then .error .errKeyTruncated
    else .ok { st with
      key := st.key ++ flipBits seg.fDescending (segment.bytes.take cbKeyAvail)
      fKeyTruncated := fTruncated }

def retrieveSegment (idb : Idb) (cbDataMost ichOffset iidxseg : Nat) (seg : IdxSeg) (col : Column)
    (st : KeyState) : Except Stop KeyState :=
  let fFirst := iidxseg == 0
  let fTuple := idb.fTuples && fFirst
  -- whether a user-defined default is NULL is known only after its callback
  let fColumnNull := col.value.isNone && col.source != .userDefinedDefault
  let st := if col.fTagged then
      { st with fAllMVOutOfValues := st.fAllMVOutOfValues && (col.itag > 1 && fColumnNull) }
    else st
  if idb.cbKeyAvail st = 0 then
    if idb.fDisallowTruncation then .error .errKeyTruncated
    else if col.itag > 1 && fColumnNull && !idb.fNestedTable then .error (.wrnFLDOutOfKeys iidxseg)
    else
      let st := { st with fKeyTruncated := true }
      .ok (if fColumnNull then nullColumn fFirst st else st)
  else if col.itag > 1 && col.value.isNone && !idb.fNestedTable then
    .error (.wrnFLDOutOfKeys iidxseg)
  else
    match col.value with
    | none =>
      if fTuple && 0 < idb.cchTuplesLengthMin then .error .wrnFLDOutOfTuples
      else appendSegment idb cbDataMost seg none (nullColumn fFirst st)
    | some pb =>
      let pbField := dataField idb cbDataMost ichOffset fTuple seg col.source pb
      if fTuple && pbField.length < idb.cchTuplesLengthMin then .error .wrnFLDOutOfTuples
      else appendSegment idb cbDataMost seg (some pbField) { st with fAllNulls := false }

def retrieveSegments (idb : Idb) (cbDataMost ichOffset : Nat) :
    Nat → List (IdxSeg × Column) → KeyState → Except Stop KeyState
  | _, [], st => .ok st
  | iidxseg, (seg, col) :: rest, st => do
      let st ← retrieveSegment idb cbDataMost ichOffset iidxseg seg col st
      retrieveSegments idb cbDataMost ichOffset (iidxseg + 1) rest st

inductive Warning
  | success
  | wrnFLDNullKey
  | wrnFLDNullFirstSeg
  | wrnFLDNullSeg
  deriving DecidableEq, Repr

def KeyState.warning (st : KeyState) : Warning :=
  if st.fAllNulls then .wrnFLDNullKey
  else if st.fNullFirstSeg then .wrnFLDNullFirstSeg
  else if st.fNullSeg then .wrnFLDNullSeg
  else .success

/-- The key of an entry from at most `cbDataMost` bytes of each column. -/
def recIIRetrieveKey (idb : Idb) (entry : Entry) (cbDataMost : Nat) : Except Stop KeyState :=
  if entry.rgConditional.any fun c => c.1 != c.2 then .error .wrnFLDNotPresentInIndex
  else do
    let st ← retrieveSegments idb cbDataMost entry.ichOffset 0
      (idb.rgidxseg.zip entry.columns) .start
    if idb.fNestedTable && st.fAllMVOutOfValues then .error (.wrnFLDOutOfKeys 0) else .ok st

/-- The data is doubled as long as it may not have been enough; `none` when `fuel` runs out. -/
def retrieveKeyFrom (idb : Idb) (entry : Entry) :
    Nat → Nat → Option (Except Stop (Warning × List UInt8))
  | 0, _ => none
  | fuel + 1, cbDataMost =>
    match recIIRetrieveKey idb entry cbDataMost with
    | .error stop => some (.error stop)
    | .ok st =>
      if st.fNeedMoreData then retrieveKeyFrom idb entry fuel (2 * cbDataMost)
      else some (.ok (st.warning, st.key))

def recIRetrieveKey (idb : Idb) (entry : Entry) (fuel : Nat) :
    Option (Except Stop (Warning × List UInt8)) :=
  retrieveKeyFrom idb entry fuel idb.cbKeyMost

inductive KeyErr
  | errKeyIsMade
  | errKeyNotMade
  | errInvalidBufferSize
  | errInvalidGrbit
  | errIndexTuplesKeyTooSmall
  deriving DecidableEq, Repr

/-- The last column of a search key may be given as a limit: the key then stands before or after all
entries with this column, or with a column that begins with the data. -/
inductive LimitOptions
  | none
  | fullColumnStartLimit
  | fullColumnEndLimit
  | partialColumnStartLimit
  | partialColumnEndLimit
  | several
  deriving DecidableEq, Repr

structure Grbit where
  fNewKey : Bool
  fKeyDataZeroLength : Bool
  fKeyOverridePrimaryIndexPlaceholder : Bool
  limitOptions : LimitOptions
  fStrLimit : Bool

structure SearchKey where
  dataSearchKey : List UInt8
  cColumnsInSearchKey : Nat
  fPrepared : Bool
  fTooBig : Bool
  fLimit : Bool
  deriving DecidableEq, Repr

def SearchKey.reset : SearchKey := ⟨[], 0, false, false, false⟩

def normalisePlaceholder (seg : IdxSeg) (sk : SearchKey) : SearchKey :=
  { sk with
    dataSearchKey := flipBits seg.fDescending [bPrefixData, 0x00]
    cColumnsInSearchKey := 1 }

def normalizeSegment (idb : Idb) (cbAvail : Nat) (seg : IdxSeg) (fTupleField : Bool)
    (grbit : Grbit) (column : List UInt8) : Except KeyErr (List UInt8 × Bool) :=
  if column = [] then
    if fTupleField then .error .errIndexTuplesKeyTooSmall
    else if grbit.fKeyDataZeroLength && (seg.fFixedField || !fRECBinaryColumn seg.coltyp) then
      .error .errInvalidBufferSize
    else .ok (flipBits seg.fDescending
      (normalizeNullSegment idb.toLimits seg.coltyp grbit.fKeyDataZeroLength), false)
  else if fRECBinaryColumn seg.coltyp then
    let segment := normalizeBinarySegment idb.toLimits cbAvail seg.fFixedField column
    .ok (flipBits seg.fDescending segment.bytes, segment.fColumnTruncated)
  else
    let bytes := normalizeFixedSegment seg.coltyp idb.fDotNetGuid column
    .ok (flipBits seg.fDescending (bytes.take cbAvail), decide (bytes.length > cbAvail))

def bSentinel : UInt8 := 0xff

/-- The end of the data in the chunks from the offset `ib` on, zero where the data is cut off. -/
def ibDelimiterFrom (cbTail : Nat) : Nat → Nat → List UInt8 → Nat
  | 0, ib, pbField => if pbField.length ≥ cbTail then 0 else ib + pbField.length
  | cChunks + 1, ib, pbField =>
    if pbField.length ≤ cbFLDBinaryChunk then ib + pbField.length
    else ibDelimiterFrom cbTail cChunks (ib + cbFLDBinaryChunkNormalized)
      (pbField.drop cbFLDBinaryChunk)

/-- What the normalisation of a column sets as the delimiter: only a variable binary value that
fits has one. -/
def ibBinaryColumnDelimiter (idb : Limits) (cbKeyAvail : Nat) (seg : IdxSeg)
    (pbField : List UInt8) : Nat :=
  if pbField = [] || !fRECBinaryColumn seg.coltyp || seg.fFixedField then 0
  else
    let cbSeg := cbSegWithin idb cbKeyAvail (cbChunked pbField.length)
    ibDelimiterFrom ((cbSeg - 1) % cbFLDBinaryChunkNormalized)
      ((cbSeg - 1) / cbFLDBinaryChunkNormalized) 1 pbField

def setFullColumnLimit (norm : List UInt8) (cbAvailWithSuffix : Nat) (fNeedSentinel : Bool) :
    List UInt8 :=
  if fNeedSentinel then norm ++ List.replicate (cbAvailWithSuffix - norm.length) bSentinel
  else norm

def trySetPartialColumnLimitOnBinaryColumn (norm : List UInt8)
    (cbAvailWithSuffix ibBinaryColumnDelimiter : Nat) (fNeedSentinel : Bool) : List UInt8 :=
  if ibBinaryColumnDelimiter = 0 then setFullColumnLimit norm cbAvailWithSuffix fNeedSentinel
  else if fNeedSentinel then
    -- the data stays, and the sentinel goes one byte past the segment
    norm.take ibBinaryColumnDelimiter ++
      List.replicate (norm.length + 1 - ibBinaryColumnDelimiter) bSentinel
  else norm.take ibBinaryColumnDelimiter

/-- The segment with the limit that is asked for, and whether there is one. -/
def setLimit (grbit : Grbit) (norm : List UInt8)
    (cbAvailWithSuffix ibBinaryColumnDelimiter : Nat) : List UInt8 × Bool :=
  let partialLimit := trySetPartialColumnLimitOnBinaryColumn norm cbAvailWithSuffix
    ibBinaryColumnDelimiter
  match grbit.limitOptions with
  | .fullColumnStartLimit => (setFullColumnLimit norm cbAvailWithSuffix false, true)
  | .fullColumnEndLimit => (setFullColumnLimit norm cbAvailWithSuffix true, true)
  | .partialColumnStartLimit => (partialLimit false, true)
  | .partialColumnEndLimit => (partialLimit true, true)
  | .none | .several => if grbit.fStrLimit then (partialLimit true, true) else (norm, false)

def fInvalidGrbit (seg : IdxSeg) : LimitOptions → Bool
  | .partialColumnStartLimit | .partialColumnEndLimit =>
    seg.fFixedField || !fRECBinaryColumn seg.coltyp
  | .none | .fullColumnStartLimit | .fullColumnEndLimit => false
  | .several => true

def appendKeySegment (idb : Idb) (seg : IdxSeg) (grbit : Grbit) (pbKeySeg : List UInt8)
    (sk : SearchKey) : Except KeyErr SearchKey :=
  -- the legacy key size also limits the data
  let lineKeySeg :=
    if idb.cbKeyMost = cbKeyMostOld then trim seg cbKeyMostOld pbKeySeg else pbKeySeg
  if seg.fFixedField && 0 < pbKeySeg.length && pbKeySeg.length != seg.cbMaxLen then
    .error .errInvalidBufferSize
  else if fInvalidGrbit seg grbit.limitOptions then .error .errInvalidGrbit
  else if !sk.fTooBig && sk.dataSearchKey.length < idb.cbKeyMost then do
    let cbAvail := idb.cbKeyMost - sk.dataSearchKey.length
    let (norm, fTooBig) ← normalizeSegment idb cbAvail seg
      (sk.cColumnsInSearchKey == 0 && idb.fTuples) grbit lineKeySeg
    let limited := setLimit grbit norm (cbAvail + 1)
      (ibBinaryColumnDelimiter idb.toLimits cbAvail seg lineKeySeg)
    .ok ⟨sk.dataSearchKey ++ limited.1.take (idb.cbKeyMost + 1 - sk.dataSearchKey.length),
      sk.cColumnsInSearchKey + 1, true, fTooBig, sk.fLimit || limited.2⟩
  else .ok { sk with cColumnsInSearchKey := sk.cColumnsInSearchKey + 1, fPrepared := true }

/-- The search key after a call with one more column.  A key that ends in a limit is made. -/
def makeKey (idb : Idb) (grbit : Grbit) (pbKeySeg : List UInt8) (sk : SearchKey) :
    Except KeyErr SearchKey :=
  if !grbit.fNewKey && sk.fLimit then .error .errKeyIsMade
  else if !grbit.fNewKey && !sk.fPrepared then .error .errKeyNotMade
  else
    let sk := if grbit.fNewKey then SearchKey.reset else sk
    let sk :=
      if !sk.fPrepared && idb.fHasPlaceholderColumn &&
          !grbit.fKeyOverridePrimaryIndexPlaceholder then
        match idb.rgidxseg with
        | seg :: _ => normalisePlaceholder seg sk
        | [] => sk
      else sk
    match idb.rgidxseg[sk.cColumnsInSearchKey]? with
    | none => .error .errKeyIsMade
    | some seg => appendKeySegment idb seg grbit pbKeySeg sk

end EseLinux.KeyBuild
