import EseLinux.DigitList
import EseLinux.ByteMemory

/-!
The database page: the `PGHDR` fields the page code uses, the tag array that grows down from
the end of the buffer, and the accessors of `CPAGE` and `CPAGE::TAG`.
-/

namespace EseLinux.PageFormat

open ByteMemory

/-- A page as `CPAGE` sees it: the latched buffer, and the tag counts that are cached from
the header's `itagState`. -/
structure Page where
  cbPage : Nat
  cbBuffer : Nat
  buf : Memory
  itagMicFree : Nat
  ctagReserved : Nat

def SupportedPageSize (cb : Nat) : Prop :=
  cb = 2048 ∨ cb = 4096 ∨ cb = 8192 ∨ cb = 16384 ∨ cb = 32768

instance (cb : Nat) : Decidable (SupportedPageSize cb) := inferInstanceAs (Decidable (_ ∨ _))

def fIsSmallPage (cbPage : Nat) : Bool :=
  decide (cbPage ≤ 8 * 1024)

def cbTag : Nat := 4

/-- `g_cbPageMax`. -/
def cbPageMax : Nat := 32 * 1024

namespace Page

def setBuf (p : Page) (m : Memory) : Page := { p with buf := m }

def fSmallPageFormat (p : Page) : Bool :=
  fIsSmallPage p.cbPage

/-- `sizeof( PGHDR )` or `sizeof( PGHDR2 )`. -/
def cbPageHeader (p : Page) : Nat :=
  if p.fSmallPageFormat then 40 else 80

def pgnoPrev (p : Page) : Nat := dword p.buf 16

def pgnoNext (p : Page) : Nat := dword p.buf 20

def objidFDP (p : Page) : Nat := dword p.buf 24

def cbFree (p : Page) : Nat := word p.buf 28

def cbUncommittedFree (p : Page) : Nat := word p.buf 30

def ibMicFree (p : Page) : Nat := word p.buf 32

def itagState (p : Page) : Nat := word p.buf 34

def fFlags (p : Page) : Nat := dword p.buf 36

def setCbFree (p : Page) (cb : Nat) : Page := p.setBuf (setWord p.buf 28 cb)

def setIbMicFree (p : Page) (ib : Nat) : Page := p.setBuf (setWord p.buf 32 ib)

def setITagState (fResvTagFormatEnabled : Bool) (p : Page) (itagMicFree ctagReserved : Nat) :
    Page :=
  let itagState :=
    if fResvTagFormatEnabled ∨ 0 < (p.itagState &&& 0x7000) >>> 12 then
      (ctagReserved <<< 12) ||| itagMicFree
    else
      itagMicFree
  { p with
    buf := setWord p.buf 34 itagState
    itagMicFree := itagMicFree % 65536
    ctagReserved := ctagReserved % 65536 }

def fFlag (p : Page) (msk : Nat) : Bool :=
  decide (p.fFlags &&& msk ≠ 0)

def fRootPage (p : Page) : Bool := p.fFlag 0x1

def fLeafPage (p : Page) : Bool := p.fFlag 0x2

def fEmptyPage (p : Page) : Bool := p.fFlag 0x8

def fRepairedPage (p : Page) : Bool := p.fFlag 0x10

def fSpaceTree (p : Page) : Bool := p.fFlag 0x20

def fIndexPage (p : Page) : Bool := p.fFlag 0x40

def fLongValuePage (p : Page) : Bool := p.fFlag 0x80

def fNewRecordFormat (p : Page) : Bool := p.fFlag 0x800

def fPreInitPage (p : Page) : Bool := p.fFlag 0x20000

def fPrimaryPage (p : Page) : Bool := !p.fIndexPage && !p.fPreInitPage

def ptagFromItag (p : Page) (itag : Nat) : Nat :=
  p.cbBuffer - cbTag * (itag + 1)

def pbFromIb (p : Page) (ib : Nat) : Nat :=
  p.cbPageHeader + ib

def cbTagArray (p : Page) : Nat :=
  p.itagMicFree * cbTag

def cbAdjustForPage (p : Page) : Nat :=
  p.cbPage - p.cbBuffer

def cbBufferData (p : Page) : Nat :=
  p.cbBuffer - p.cbPageHeader

def cbContiguousBufferFree (p : Page) : Int :=
  (p.cbBufferData : Int) - p.ibMicFree - p.cbTagArray

def cbContiguousFree (p : Page) : Int :=
  p.cbContiguousBufferFree + p.cbAdjustForPage

def cbPageFree (p : Page) : Nat :=
  p.cbFree + p.cbAdjustForPage

def mskTagIbCb (p : Page) : Nat :=
  if p.fSmallPageFormat then 0x1fff else 0x7fff

def mskTagFlags : Nat := 0xe000

def shfTagFlags : Nat := 13

def tagCb (p : Page) (itag : Nat) : Nat :=
  word p.buf (p.ptagFromItag itag) &&& p.mskTagIbCb

def tagIb (p : Page) (itag : Nat) : Nat :=
  word p.buf (p.ptagFromItag itag + 2) &&& p.mskTagIbCb

/-- Small pages keep the flags in the tag, large pages in the first word of the line. -/
def tagFFlags (p : Page) (itag : Nat) : Nat :=
  if p.fSmallPageFormat then
    (word p.buf (p.ptagFromItag itag + 2) &&& mskTagFlags) >>> shfTagFlags
  else if 2 ≤ p.tagCb itag then
    (word p.buf (p.pbFromIb (p.tagIb itag)) &&& mskTagFlags) >>> shfTagFlags
  else 0

def tagSetIb (p : Page) (itag ib : Nat) : Page :=
  let a := p.ptagFromItag itag + 2
  p.setBuf (setWord p.buf a ((word p.buf a &&& (0xffff ^^^ p.mskTagIbCb)) ||| ib))

def tagSetCb (p : Page) (itag cb : Nat) : Page :=
  let a := p.ptagFromItag itag
  p.setBuf (setWord p.buf a ((word p.buf a &&& (0xffff ^^^ p.mskTagIbCb)) ||| cb))

/-- Overwrite the three flag bits of the word at address `a`. -/
def setFlagsAt (p : Page) (a fFlags : Nat) : Page :=
  p.setBuf (setWord p.buf a
    ((word p.buf a &&& (0xffff ^^^ mskTagFlags)) ||| (fFlags <<< shfTagFlags)))

/-- On a large page the external header (tag 0) and lines below two bytes hold no flags. -/
def tagSetFlags (p : Page) (itag fFlags : Nat) : Page :=
  if p.fSmallPageFormat then
    p.setFlagsAt (p.ptagFromItag itag + 2) fFlags
  else if itag ≠ 0 ∧ 2 ≤ p.tagCb itag then
    p.setFlagsAt (p.pbFromIb (p.tagIb itag)) fFlags
  else p

def tagData (p : Page) (itag : Nat) : List UInt8 :=
  slice p.buf (p.pbFromIb (p.tagIb itag)) (p.tagCb itag)

end Page

end EseLinux.PageFormat
