import EseLinux.TaggedImage

/-!
The check of the tagged columns of a record, `TAGFIELDS::FIsValidTagfields`, and which header
bytes a retrieval interprets.
-/

namespace EseLinux.TaggedColumns

open ByteMemory DigitList OffsetTable

/-- `REC::PbTaggedData`, from the start of the record: behind the variable offsets and the
variable data. -/
def ibTaggedData (m : Memory) (prec : Nat) : Nat :=
  let fidVarLastInRec := (m (prec + 1)).toNat
  let ibEndOfFixedData := word m (prec + 2)
  let ibVarData := (ibEndOfFixedData + 65536 + 2 * fidVarLastInRec - 2 * 127) % 65536
  let ibEndOfVarData :=
    if fidVarLastInRec = 127 then 0
    else word m (prec + ibEndOfFixedData + 2 * fidVarLastInRec - 2 * 128) &&& 0x7fff
  ibVarData + ibEndOfVarData

/-- The record of `cbRec` bytes at `prec`; the least key takes four bytes. -/
def recAt (cbPage : Nat) (m : Memory) (prec cbRec : Nat) : Rec where
  cbPage := cbPage
  cbKeyMost := 4
  ibTagged := ibTaggedData m prec
  buf := fun k => m (prec + ibTaggedData m prec + k)
  cbRec := cbRec

def lid64Flag : Nat := 2 ^ 63

/-- `LidOfSeparatedLV`; 0 is `lidMin`, which is never used. -/
def lidOfSeparatedLV (m : Memory) (pb : Nat) (cb : Int) : Nat :=
  if cb = 8 then leNat (slice m pb 8) else if cb = 4 then leNat (slice m pb 4) else 0

def lidCb (lid : Nat) : Nat := if lid &&& lid64Flag ≠ 0 then 8 else 4

def fValidLid (m : Memory) (pb : Nat) (cb : Int) : Bool :=
  let lid := lidOfSeparatedLV m pb cb
  decide (lid ≠ 0 ∧ cb = lidCb lid)

def cbColumnMost : Nat := 255

def TwoValues.fIsValid (m : Memory) (pb cb : Nat) : Bool :=
  decide (2 ≤ cb ∧ cb ≤ 2 + 2 * cbColumnMost ∧ cbFirstValue m pb ≤ cb - 2 ∧
    cb - 2 - cbFirstValue m pb ≤ cbColumnMost)

namespace MultiValues

def ibNext (m : Memory) (pb cb imv : Nat) : Nat :=
  if imv + 1 < cMultiValues m pb then ib m pb (imv + 1) else cbMultiValues cb

/-- What `MULTIVALUES::FValidate` checks of one instance. -/
def fValidInstance (m : Memory) (pb cb imv : Nat) : Bool :=
  let fLongValue := Header.has (m pb) Header.fLongValue
  decide (ib m pb imv ≤ ibNext m pb cb imv ∧ ib m pb imv ≤ cbMultiValues cb) &&
    (fLongValue || decide (ibNext m pb cb imv - ib m pb imv ≤ cbColumnMost)) &&
    (!fSeparatedInstance m pb imv ||
      fLongValue && fValidLid m (pbData m pb imv) (ibNext m pb cb imv - ib m pb imv : Nat))

def fIsValid (m : Memory) (pb cb : Nat) : Bool :=
  decide (1 + 2 * cbMVOffset ≤ cb ∧ 2 * cbMVOffset ≤ ib m pb 0 ∧ ib m pb 0 ≤ cbMultiValues cb ∧
    ib m pb 0 % cbMVOffset = 0) &&
    (List.range (cMultiValues m pb)).all (fValidInstance m pb cb)

end MultiValues

namespace TagFields

variable (t : TagFields)

/-- What is checked of the header byte `hdr` of a column. -/
def fValidHeader (itagfld : Nat) (hdr : UInt8) : Bool :=
  let pb := t.pbData itagfld
  let cb := t.cbData itagfld
  decide (hdr &&& ~~~Header.maskFlags = 0) &&
    (Header.has hdr Header.fLongValue || Header.has hdr Header.fMultiValues || !t.fSmallPage) &&
    (if Header.has hdr Header.fTwoValues then
      Header.has hdr Header.fMultiValues &&
        !(Header.has hdr Header.fLongValue || Header.has hdr Header.fSeparated) &&
        TwoValues.fIsValid t.buf pb cb
    else if Header.has hdr Header.fMultiValues then
      !Header.has hdr Header.fSeparated && MultiValues.fIsValid t.buf pb cb
    else if Header.has hdr Header.fSeparated then
      Header.has hdr Header.fLongValue &&
        fValidLid t.buf (pb + 1) ((t.ibNext itagfld : Int) - t.ib itagfld - 1)
    else true)

def fValidColumn (itagfld : Nat) : Bool :=
  decide (t.ib itagfld ≤ t.ibNext itagfld) &&
    (!t.fNull itagfld ||
      !(t.fExtendedInfo itagfld && t.fSmallPage) &&
        decide (t.ibNext itagfld = t.ib itagfld + if t.fSmallPage then 0 else 1)) &&
    (match t.header itagfld with
    | some hdr => t.fValidHeader itagfld hdr
    | none => decide (t.ibNext itagfld - t.ib itagfld ≤ cbColumnMost))

def fTagged (fid : Nat) : Bool := decide (256 ≤ fid ∧ fid ≤ 0xfee0)

/-- `TAGFIELDS::FValidate` for the last `n` columns, the first of them `itagfld`. -/
def fValidateFrom : Nat → Nat → Bool → Nat → Bool
  | 0, _, _, _ => true
  | n + 1, itagfld, fSawNonDerived, fidPrev =>
    fTagged (t.fid itagfld) &&
      (if t.fDerived itagfld then !fSawNonDerived && decide (fidPrev < t.fid itagfld)
      else !fSawNonDerived || decide (fidPrev < t.fid itagfld)) &&
      t.fValidColumn itagfld &&
      fValidateFrom n (itagfld + 1) (fSawNonDerived || !t.fDerived itagfld) (t.fid itagfld)

def fValidate : Bool := t.fValidateFrom t.cTaggedColumns 0 false 0

end TagFields

def cbRecordMin : Nat := 4

def Rec.fIsValidTagfields (r : Rec) : Bool :=
  decide (cbRecordMin ≤ r.cbRec ∧ r.cbRec ≤ cbRecordMost r.cbPage 4) &&
    decide (cbRecordMin ≤ r.ibTagged ∧ r.ibTagged ≤ r.cbRec) &&
    (decide (r.cbRec - r.ibTagged = 0) ||
      decide (cbTagfld ≤ r.tagFields.ib 0 ∧ r.tagFields.ib 0 ≤ r.cbRec - r.ibTagged ∧
        r.tagFields.ib 0 % cbTagfld = 0)) &&
    r.tagFields.fValidate

namespace TagFields

variable (t : TagFields)

def offsetReads (pb imv : Nat) : List Nat :=
  [mvFormat.pword (MultiValues.pbMultiValues pb) imv,
    mvFormat.pword (MultiValues.pbMultiValues pb) imv + 1]

/-- What is interpreted besides the header byte to find an instance: the length of the first of two
values, or the offset that counts the instances and those around the instance. -/
def severalReads (itagfld : Nat) (hdr : UInt8) (itagSequence : Nat) : List Nat :=
  let pb := t.pbData itagfld
  if Header.has hdr Header.fTwoValues then
    if itagSequence ≤ 2 then [pb + 1] else []
  else
    offsetReads pb 0 ++ if itagSequence ≤ MultiValues.cMultiValues t.buf pb then
        offsetReads pb (ulPred itagSequence) ++
          if ulPred itagSequence + 1 < MultiValues.cMultiValues t.buf pb then
            offsetReads pb (ulPred itagSequence + 1)
          else []
      else []

/-- The addresses of the header bytes of column `itagfld` that the retrieval of an instance
interprets. -/
def headerReads (itagfld itagSequence : Nat) : List Nat :=
  (if !t.fSmallPage || !t.fNull itagfld && t.fExtendedInfo itagfld then [t.pbData itagfld]
    else []) ++
    if t.fNull itagfld then []
    else
      match t.header itagfld with
      | some hdr =>
        if Header.has hdr Header.fMultiValues then t.severalReads itagfld hdr itagSequence
        else []
      | none => []

def InColumn (itagfld a : Nat) : Prop :=
  t.pbData itagfld ≤ a ∧ a < t.pbData itagfld + t.cbData itagfld

/-- What is retrieved lies in the record, which ends with the tagged columns. -/
def Retrieved.Within (cbTaggedColumns : Nat) : Retrieved → Prop
  | .data pb cb _ => 0 ≤ cb ∧ (pb : Int) + cb ≤ cbTaggedColumns
  | _ => True

/-- A retrieval returns no bytes outside the record, and interprets no header byte outside its
column. -/
def Safe (fidFind : Nat) (fUseDerivedBit : Bool) (itagSequence : Nat) (d : Defaults) : Prop :=
  (t.errRetrieveColumn fidFind fUseDerivedBit itagSequence d).Within t.cbTaggedColumns ∧
    (t.itagfldFind fidFind fUseDerivedBit < t.cTaggedColumns ∧
      t.fIsEqual (t.itagfldFind fidFind fUseDerivedBit) fidFind fUseDerivedBit →
      ∀ a ∈ t.headerReads (t.itagfldFind fidFind fUseDerivedBit) itagSequence,
        t.InColumn (t.itagfldFind fidFind fUseDerivedBit) a)

end TagFields

end EseLinux.TaggedColumns
