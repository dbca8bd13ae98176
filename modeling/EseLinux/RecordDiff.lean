import EseLinux.LogDiffLV
import EseLinux.RecordFormat

/-!
`LGSetColumnDiffs`: the differences between the records before and after an update.  Each kind of
column gives its own differences; they are appended one after the other, until one does not fit.
-/

namespace EseLinux.RecordDiff

open ByteMemory EditScript LogDiff RecordFormat
open EseLinux.TaggedColumns hiding Rec

structure Buf where
  diff : List UInt8
  cbTouched : Nat
  le_touched : diff.length ≤ cbTouched

/-- `FLGAppendDiff`, which writes nothing if it fails; the error is how far the buffer has been
written. -/
def append (fDiff2 : Bool) (cbMax : Nat) (buf : Buf) (e : Edit UInt8) : Except Nat Buf :=
  match flgAppendDiff fDiff2 buf.diff cbMax e.ib e.cbOld e.data with
  | none => .error buf.cbTouched
  | some diff => .ok ⟨diff, max buf.cbTouched diff.length, Nat.le_max_right _ _⟩

theorem nil_touched : ([] : List UInt8).length ≤ 0 := le_rfl

def Buf.start : Buf := ⟨[], 0, nil_touched⟩

def appendAll (fDiff2 : Bool) (cbMax : Nat) (buf : Buf) (edits : List (Edit UInt8)) :
    Except Nat Buf :=
  edits.foldlM (append fDiff2 cbMax) buf

section Columns

variable (fucb : Fucb) (tdb : Tdb) (old new : Rec)

def headerDiffs : List (Edit UInt8) :=
  if slice old.buf 0 Rec.cbRecordHeader = slice new.buf 0 Rec.cbRecordHeader then []
  else [⟨0, Rec.cbRecordHeader, slice new.buf 0 Rec.cbRecordHeader⟩]

def fidsFixed : List Nat := List.range' fidFixedLeast old.fidFixedLastInRec

def fixedDiff (fid : Nat) : Option (Edit UInt8) :=
  let field := tdb.pfieldFixed fid
  if fucb.fColumnSet fid && !new.fFixedNullBit (fid - fidFixedLeast) && !field.fDeleted then
    some ⟨field.ibRecordOffset, field.cbMaxLen, slice new.buf field.ibRecordOffset field.cbMaxLen⟩
  else none

def fixedDiffs : List (Edit UInt8) := (fidsFixed old).filterMap (fixedDiff fucb tdb new)

def extendedDiffs : List (Edit UInt8) :=
  if old.fidFixedLastInRec < new.fidFixedLastInRec then
    [⟨old.ibFixedNullBitMap, 0,
      slice new.buf old.ibFixedNullBitMap (new.ibFixedNullBitMap - old.ibFixedNullBitMap)⟩]
  else []

def fNullityChanged (fid : Nat) : Bool :=
  fucb.fColumnSet fid &&
    (old.fFixedNullBit (fid - fidFixedLeast) ^^ new.fFixedNullBit (fid - fidFixedLeast))

def fLogFixedNullBitMap : Bool :=
  (fidsFixed old).any (fNullityChanged fucb old new) ||
    decide (old.fidFixedLastInRec < new.fidFixedLastInRec)

def bitMapDiffs : List (Edit UInt8) :=
  if fLogFixedNullBitMap fucb old new then
    [⟨old.ibFixedNullBitMap, (old.fidFixedLastInRec + 7) / 8,
      slice new.buf new.ibFixedNullBitMap ((new.fidFixedLastInRec + 7) / 8)⟩]
  else []

def fidsVar : List Nat := List.range' fidVarLeast old.cVarColumns

/-- The first variable column whose offset has changed, or the one behind the last. -/
def fidVarFirstDiff : Nat :=
  ((fidsVar old).find? fun fid =>
    old.varOffs (fid - fidVarLeast) != new.varOffs (fid - fidVarLeast)).getD
      (old.fidVarLastInRec + 1)

def varOffsDiffs : List (Edit UInt8) :=
  let fid := fidVarFirstDiff old new
  if fid ≤ new.fidVarLastInRec then
    [⟨old.ibVarOffs (fid - fidVarLeast), (old.fidVarLastInRec + 1 - fid) * Rec.cbVarOffset,
      slice new.buf (new.ibVarOffs (fid - fidVarLeast))
        ((new.fidVarLastInRec + 1 - fid) * Rec.cbVarOffset)⟩]
  else []

def varDiff (fid : Nat) : Option (Edit UInt8) :=
  if fucb.fColumnSet fid then
    some ⟨old.ibVarData + old.ibVarOffsetStart fid,
      old.ibVarOffsetEnd fid - old.ibVarOffsetStart fid,
      slice new.buf (new.ibVarData + new.ibVarOffsetStart fid)
        (new.ibVarOffsetEnd fid - new.ibVarOffsetStart fid)⟩
  else none

def varDiffs : List (Edit UInt8) := (fidsVar old).filterMap (varDiff fucb old new)

def newVarDiffs : List (Edit UInt8) :=
  let fid := old.fidVarLastInRec + 1
  if fid ≤ new.fidVarLastInRec then
    [⟨old.ibVarData + old.ibEndOfVarData, 0,
      slice new.buf (new.ibVarData + new.ibVarOffsetStart fid)
        (new.ibEndOfVarData - new.ibVarOffsetStart fid)⟩]
  else []

/-- The differences in front of the tagged columns, in the order in which they are logged. -/
def columnDiffs : List (Edit UInt8) :=
  headerDiffs old new ++ fixedDiffs fucb tdb old new ++ extendedDiffs old new ++
    bitMapDiffs fucb old new ++ varOffsDiffs old new ++ varDiffs fucb old new ++ newVarDiffs old new

end Columns

section Array

def cbDword : Nat := 4

/-- Two arrays of `cbOld` and `cbNew` bytes; offsets are logged from the start of the record. -/
structure Arrays where
  pbOld : Memory
  pbNew : Memory
  cbOld : Nat
  cbNew : Nat
  ibOld : Nat

variable (a : Arrays)

def Arrays.cbMin : Nat := min a.cbOld a.cbNew

def Arrays.same (idw : Nat) : Bool := dword a.pbOld (cbDword * idw) == dword a.pbNew (cbDword * idw)

/-- From `idw` on, the first word that is the same in both arrays. -/
def Arrays.resync : Nat → Nat → Nat
  | 0, idw => idw
  | fuel + 1, idw =>
    if idw < a.cbMin / cbDword ∧ !a.same idw then resync fuel (idw + 1) else idw

/-- A difference of the words from `idw` up to `idwEnd`; the last one takes the rest of the longer
array along. -/
def Arrays.edit (idw idwEnd : Nat) : Edit UInt8 :=
  let fEnd := decide (idwEnd = a.cbMin / cbDword)
  let fTruncate := decide (a.cbNew < a.cbOld)
  let cb := cbDword * (idwEnd - idw)
  ⟨a.ibOld + cbDword * idw, if fEnd && fTruncate then cb + (a.cbOld - a.cbMin) else cb,
    slice a.pbNew (cbDword * idw) (if fEnd && !fTruncate then cb + (a.cbNew - a.cbMin) else cb)⟩

def Arrays.loop : Nat → Nat → Bool → List (Edit UInt8)
  | 0, _, _ => []
  | fuel + 1, idw, fEndIsReached =>
    if idw < a.cbMin / cbDword then
      if a.same idw then loop fuel (idw + 1) fEndIsReached
      else
        let idwEnd := a.resync fuel (idw + 1)
        if idwEnd = a.cbMin / cbDword then a.edit idw idwEnd :: loop fuel idwEnd true
        else a.edit idw idwEnd :: loop fuel (idwEnd + 1) fEndIsReached
    else if fEndIsReached then []
    else [⟨a.cbMin + a.ibOld, a.cbOld - a.cbMin, slice a.pbNew (cbDword * idw) (a.cbNew - a.cbMin)⟩]

def Arrays.diffs : List (Edit UInt8) :=
  a.loop (a.cbMin / cbDword + 1) 0 (decide (a.cbOld = a.cbNew))

/-- `FLGSetArrayDiff`. The differences may take as many bytes as the new array; else the whole array
is logged. -/
def flgSetArrayDiff (fDiff2 : Bool) (cbMaxTotal : Nat) (buf : Buf) : Except Nat Buf :=
  match appendAll fDiff2 (buf.diff.length + a.cbNew) buf a.diffs with
  | .ok buf => .ok buf
  | .error cbTouched =>
    append fDiff2 cbMaxTotal
      ⟨buf.diff, max cbTouched buf.diff.length, Nat.le_max_right _ _⟩
      ⟨a.ibOld, a.cbOld, slice a.pbNew 0 a.cbNew⟩

end Array

section Tagged

variable (fSmallPage : Bool) (fucb : Fucb) (old new : Rec)

/-- The `TAGFLD` arrays of the two records. -/
def tagArrays : Arrays where
  pbOld := (old.tagFields fSmallPage).buf
  pbNew := (new.tagFields fSmallPage).buf
  cbOld := (old.tagFields fSmallPage).cTaggedColumns * cbTagfld
  cbNew := (new.tagFields fSmallPage).cTaggedColumns * cbTagfld
  ibOld := old.ibTaggedData

/-- `TAGFIELDS::TagFldCmp`: derived columns come first, then the fids decide. -/
def tagFldCmp (t : TagFields) (i : Nat) (t' : TagFields) (j : Nat) : Ordering :=
  if t.fDerived i = t'.fDerived j then compare (t.fid i) (t'.fid j)
  else if t.fDerived i then .lt else .gt

def ibDataOffset (r : Rec) (itagfld : Nat) : Nat :=
  r.ibTaggedData + (r.tagFields fSmallPage).pbData itagfld

def tagData (r : Rec) (itagfld : Nat) : List UInt8 :=
  slice r.buf (ibDataOffset fSmallPage r itagfld) ((r.tagFields fSmallPage).cbData itagfld)

/-- The data of the columns: both records are passed through in the order of their columns. -/
def tagDiffs : Nat → Nat → Nat → List (Edit UInt8)
  | 0, _, _ => []
  | fuel + 1, i, j =>
    let t := old.tagFields fSmallPage
    let t' := new.tagFields fSmallPage
    if i < t.cTaggedColumns ∧ j < t'.cTaggedColumns then
      match tagFldCmp t i t' j with
      | .eq =>
        let rest := tagDiffs fuel (i + 1) (j + 1)
        if fucb.fColumnSet (t.fid i) && tagData fSmallPage old i != tagData fSmallPage new j then
          ⟨ibDataOffset fSmallPage old i, t.cbData i, tagData fSmallPage new j⟩ :: rest
        else rest
      | .gt => ⟨ibDataOffset fSmallPage old i, 0, tagData fSmallPage new j⟩ ::
        tagDiffs fuel i (j + 1)
      | .lt => ⟨ibDataOffset fSmallPage old i, t.cbData i, []⟩ :: tagDiffs fuel (i + 1) j
    else if j < t'.cTaggedColumns then
      [⟨old.cb, 0, slice new.buf (ibDataOffset fSmallPage new j)
        (new.cb - ibDataOffset fSmallPage new j)⟩]
    else if i < t.cTaggedColumns then
      [⟨ibDataOffset fSmallPage old i, old.cb - ibDataOffset fSmallPage old i, []⟩]
    else []

def tagDataDiffs : List (Edit UInt8) :=
  tagDiffs fSmallPage fucb old new
    ((old.tagFields fSmallPage).cTaggedColumns + (new.tagFields fSmallPage).cTaggedColumns + 1) 0 0

def implicitDiff : Edit UInt8 :=
  ⟨old.ibTaggedData, old.cb - old.ibTaggedData,
    slice new.buf new.ibTaggedData (new.cb - new.ibTaggedData)⟩

def taggedDiffs (fDiff2 : Bool) (cbMax : Nat) (buf : Buf) : Except Nat Buf :=
  if fucb.fTagImplicitOp then append fDiff2 cbMax buf (implicitDiff old new)
  else if fucb.fTaggedColumnSet then do
    let buf ← flgSetArrayDiff (tagArrays fSmallPage old new) fDiff2 cbMax buf
    appendAll fDiff2 cbMax buf (tagDataDiffs fSmallPage fucb old new)
  else .ok buf

end Tagged

structure Outcome where
  fOverflow : Bool
  diff : List UInt8
  cbTouched : Nat

def lgSetColumnDiffs (fucb : Fucb) (u : Update) : Outcome :=
  let fDiff2 := !u.fSmallPage
  let cbMax := u.new.cb
  let result := do
    let buf ← appendAll fDiff2 cbMax .start (columnDiffs fucb u.tdb u.old u.new)
    taggedDiffs u.fSmallPage fucb u.old u.new fDiff2 cbMax buf
  match result with
  | .error cbTouched => ⟨true, [], cbTouched⟩
  | .ok buf => ⟨false, buf.diff, buf.cbTouched⟩

end EseLinux.RecordDiff
