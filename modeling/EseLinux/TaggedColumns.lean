import EseLinux.DigitList
import EseLinux.ByteMemory

/-!
A table of variable-sized items in a byte memory: a directory of entries, each with some key
bytes and a 16-bit word that holds the offset of the item's data, followed by the data of all
items in directory order.  An item ends where the next one starts, so changing the size of one
item changes the offsets of all later ones.
-/

namespace EseLinux.OffsetTable

open BitField ByteMemory

/-- An entry has `cbKey` key bytes and then the word; `bits` low bits of the word are the
offset, the bits above it are flags. -/
structure Format where
  cbKey : Nat
  bits : Nat
  bits_le : bits ≤ 16

namespace Format

def cbEntry (F : Format) : Nat := F.cbKey + 2

def pentry (F : Format) (a i : Nat) : Nat := a + F.cbEntry * i

def pword (F : Format) (a i : Nat) : Nat := F.pentry a i + F.cbKey

def mask (F : Format) : Nat := 2 ^ F.bits - 1

def ib (F : Format) (m : Memory) (a i : Nat) : Nat :=
  word m (F.pword a i) &&& F.mask

end Format

structure Item where
  key : List UInt8
  flags : Nat
  data : List UInt8
deriving DecidableEq, Repr

def cbItems (items : List Item) : Nat :=
  (items.map fun it => it.data.length).sum

/-- Consecutive items: their entries stand from entry `i` on, their data from address `d` on,
and their offset words count from `o`. -/
def Seg (F : Format) (m : Memory) (a : Nat) : Nat → Nat → Nat → List Item → Prop
  | _, _, _, [] => True
  | i, o, d, it :: items =>
    slice m (F.pentry a i) F.cbKey = it.key ∧
    word m (F.pword a i) = o + 2 ^ F.bits * it.flags ∧
    slice m d it.data.length = it.data ∧
    Seg F m a (i + 1) (o + it.data.length) (d + it.data.length) items

/-- A whole table of `cb` bytes at address `a`. -/
structure Table (F : Format) (m : Memory) (a : Nat) (items : List Item) (cb : Nat) : Prop where
  seg : Seg F m a 0 (F.cbEntry * items.length) (F.pentry a items.length) items
  cb_eq : cb = F.cbEntry * items.length + cbItems items
  cb_lt : cb < 2 ^ F.bits

end EseLinux.OffsetTable

/-!
Tagged columns of a record: the `TAGFLD` array, the header byte of a column, the encodings of
several values in one column, and how `TAGFIELDS` reads them.  Addresses count from the first
`TAGFLD`.
-/

namespace EseLinux.TaggedColumns

open ByteMemory OffsetTable

/-- `TAGFLD`: a fid and an offset word. Small pages keep three flags above the offset, large
pages one. -/
def tagfldFormat (fSmallPage : Bool) : Format where
  cbKey := 2
  bits := if fSmallPage then 13 else 15
  bits_le := by split <;> decide

/-- `MULTIVALUES::MVOFFSET`: an offset with one flag, for a separated instance. -/
def mvFormat : Format where
  cbKey := 0
  bits := 15
  bits_le := by decide

def cbTagfld : Nat := 4

def cbMVOffset : Nat := 2

structure TagFields where
  fSmallPage : Bool
  buf : Memory
  cbTaggedColumns : Nat
  cTaggedColumns : Nat

/-- `n - 1` as a `ULONG`. -/
def ulPred (n : Nat) : Nat := (n + (2 ^ 32 - 1)) % 2 ^ 32

namespace Header

def fLongValue : UInt8 := 0x01
def fCompressed : UInt8 := 0x02
def fSeparated : UInt8 := 0x04
def fMultiValues : UInt8 := 0x08
def fTwoValues : UInt8 := 0x10
def fNull : UInt8 := 0x20
def maskFlags : UInt8 := 0x7f

def has (hdr flag : UInt8) : Bool := decide (hdr &&& flag ≠ 0)

end Header

inductive RetrievalResult
  | success
  | wrnRECSeparatedLV
  | wrnRECCompressed
  | wrnRECIntrinsicLV
deriving DecidableEq, Repr

def retrievalResult (fLongValue fCompressed fSeparated : Bool) : RetrievalResult :=
  if fLongValue then
    if fSeparated then .wrnRECSeparatedLV
    else if fCompressed then .wrnRECCompressed
    else .wrnRECIntrinsicLV
  else .success

def errRetrievalResult (hdr : UInt8) : RetrievalResult :=
  retrievalResult (Header.has hdr Header.fLongValue) (Header.has hdr Header.fCompressed)
    (Header.has hdr Header.fSeparated)

def errMultiValueRetrievalResult (hdr : UInt8) (fCompressedLV fSeparatedLV : Bool) :
    RetrievalResult :=
  retrievalResult (Header.has hdr Header.fLongValue) fCompressedLV fSeparatedLV

/-! ### Several values in one column

A column of `cb` bytes at `pb` starts with its header byte. -/

namespace TwoValues

def cbFirstValue (m : Memory) (pb : Nat) : Nat := (m (pb + 1)).toNat

def cbSecondValue (m : Memory) (pb cb : Nat) : Nat := (cb - (2 + cbFirstValue m pb)) % 256

def pbData (pb : Nat) : Nat := pb + 2

end TwoValues

namespace MultiValues

def pbMultiValues (pb : Nat) : Nat := pb + 1

def cbMultiValues (cb : Nat) : Nat := cb - 1

def ib (m : Memory) (pb imv : Nat) : Nat := mvFormat.ib m (pbMultiValues pb) imv

def cMultiValues (m : Memory) (pb : Nat) : Nat := ib m pb 0 / cbMVOffset

def pbData (m : Memory) (pb imv : Nat) : Nat := pbMultiValues pb + ib m pb imv

def cbData (m : Memory) (pb cb imv : Nat) : Nat :=
  (if imv + 1 < cMultiValues m pb then ib m pb (imv + 1) else cbMultiValues cb) - ib m pb imv

def fSeparatedInstance (m : Memory) (pb imv : Nat) : Bool :=
  decide (word m (mvFormat.pword (pbMultiValues pb) imv) &&& 0x8000 ≠ 0)

end MultiValues

namespace TagFields

variable (t : TagFields)

def format : Format := tagfldFormat t.fSmallPage

def fid (itagfld : Nat) : Nat := word t.buf (t.format.pentry 0 itagfld)

/-- `TAGFLD::m_ib`, the offset with the flags. -/
def ibWord (itagfld : Nat) : Nat := word t.buf (t.format.pword 0 itagfld)

def ib (itagfld : Nat) : Nat := t.format.ib t.buf 0 itagfld

def fDerivedBit : Nat := 0x8000

def fNullSmallPage : Nat := 0x2000

def fExtendedInfoBit (fSmallPage : Bool) : Nat := if fSmallPage then 0x4000 else 0

def fExtendedInfoOf (fSmallPage : Bool) (ibWord : Nat) : Bool :=
  decide (fExtendedInfoBit fSmallPage = 0 ∨ ibWord &&& fExtendedInfoBit fSmallPage ≠ 0)

def fDerived (itagfld : Nat) : Bool := decide (t.ibWord itagfld &&& fDerivedBit ≠ 0)

def fExtendedInfo (itagfld : Nat) : Bool := fExtendedInfoOf t.fSmallPage (t.ibWord itagfld)

def fNull (itagfld : Nat) : Bool :=
  if t.fSmallPage then decide (t.ibWord itagfld &&& fNullSmallPage ≠ 0)
  else Header.has (t.buf (t.ib itagfld)) Header.fNull

def pbData (itagfld : Nat) : Nat := t.ib itagfld

def ibNext (itagfld : Nat) : Nat :=
  if itagfld + 1 < t.cTaggedColumns then t.ib (itagfld + 1) else t.cbTaggedColumns

def cbData (itagfld : Nat) : Nat := t.ibNext itagfld - t.ib itagfld

def header (itagfld : Nat) : Option UInt8 :=
  if t.fExtendedInfo itagfld then some (t.buf (t.pbData itagfld)) else none

/-- The key `CmpTagfld2` compares: derived columns come first, then the fids decide. -/
def cmpKey (fid ibWord : Nat) : Nat :=
  0x80000000 ^^^ (0x8000ffff &&& (fid + 65536 * ibWord))

/-- `PtagfldLowerBound`. The distance shrinks in every round, so it bounds the rounds. -/
def lowerBound (less : Nat → Bool) : Nat → Nat → Nat → Nat
  | 0, ptagfld, _ => ptagfld
  | fuel + 1, ptagfld, cfldSeparation =>
    if cfldSeparation = 0 then ptagfld
    else
      let cfldHalf := cfldSeparation / 2
      if less (ptagfld + cfldHalf) then
        lowerBound less fuel (ptagfld + cfldHalf + 1) (cfldSeparation - (cfldHalf + 1))
      else lowerBound less fuel ptagfld cfldHalf

def newIbWord (fUseDerivedBit : Bool) : Nat := if fUseDerivedBit then fDerivedBit else 0

def itagfldFind (fidFind : Nat) (fUseDerivedBit : Bool) : Nat :=
  lowerBound
    (fun itagfld => decide (cmpKey (t.fid itagfld) (t.ibWord itagfld) <
      cmpKey fidFind (newIbWord fUseDerivedBit)))
    t.cTaggedColumns 0 t.cTaggedColumns

def fIsEqual (itagfld fidFind : Nat) (fUseDerivedBit : Bool) : Bool :=
  decide (t.fid itagfld = fidFind ∧ t.fDerived itagfld = fUseDerivedBit)

inductive Retrieved
  | columnNull
  | defaultValue
  | userDefinedDefault
  | data (pb : Nat) (cb : Int) (res : RetrievalResult)
deriving DecidableEq, Repr

structure Defaults where
  fIgnoreDefault : Bool
  fTableHasNonEscrowDefault : Bool
  fFieldDefault : Bool
  fFieldUserDefinedDefault : Bool

def retrieveDefault (d : Defaults) (itagSequence : Nat) : Retrieved :=
  if !d.fIgnoreDefault ∧ itagSequence = 1 ∧ d.fTableHasNonEscrowDefault then
    if d.fFieldUserDefinedDefault then .userDefinedDefault
    else if d.fFieldDefault then .defaultValue
    else .columnNull
  else .columnNull

/-- The instance of a column with several values; any sequence number but 1 means the second
value of two. -/
def retrieveInstance (hdr : UInt8) (pb cb itagSequence : Nat) : Retrieved :=
  if Header.has hdr Header.fTwoValues then
    if itagSequence ≤ 2 then
      if itagSequence = 1 then
        .data (TwoValues.pbData pb) (TwoValues.cbFirstValue t.buf pb) .success
      else .data (TwoValues.pbData pb + TwoValues.cbFirstValue t.buf pb)
        (TwoValues.cbSecondValue t.buf pb cb) .success
    else .columnNull
  else if itagSequence ≤ MultiValues.cMultiValues t.buf pb then
    let imv := ulPred itagSequence
    .data (MultiValues.pbData t.buf pb imv) (MultiValues.cbData t.buf pb cb imv)
      (errMultiValueRetrievalResult hdr (Header.has hdr Header.fCompressed && decide (imv = 0))
        (MultiValues.fSeparatedInstance t.buf pb imv))
  else .columnNull

def retrieveFound (itagfld itagSequence : Nat) : Retrieved :=
  let pb := t.pbData itagfld
  let cb := t.cbData itagfld
  if t.fNull itagfld then .columnNull
  else
    match t.header itagfld with
    | some hdr =>
      if Header.has hdr Header.fMultiValues then t.retrieveInstance hdr pb cb itagSequence
      else if itagSequence = 1 then .data (pb + 1) ((cb : Int) - 1) (errRetrievalResult hdr)
      else .columnNull
    | none => if itagSequence = 1 then .data pb cb .success else .columnNull

def errRetrieveColumn (fidFind : Nat) (fUseDerivedBit : Bool) (itagSequence : Nat)
    (d : Defaults) : Retrieved :=
  let itagfld := t.itagfldFind fidFind fUseDerivedBit
  if itagfld < t.cTaggedColumns ∧ t.fIsEqual itagfld fidFind fUseDerivedBit then
    t.retrieveFound itagfld itagSequence
  else retrieveDefault d itagSequence

end TagFields

end EseLinux.TaggedColumns
