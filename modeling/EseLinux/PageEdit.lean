import EseLinux.PageFormat

/-!
The functions of `CPAGE` that change the lines of a page.  A failed `Enforce` ends the
process, so functions that can reach one return `none` there.
-/

namespace EseLinux.PageEdit

open ByteMemory PageFormat

/-- `std::sort` on tags by a key: some ordered permutation, ties in any order. -/
structure TagSort where
  run : (Nat → Nat) → List Nat → List Nat
  run_perm : ∀ key tags, (run key tags).Perm tags
  run_sorted : ∀ key tags, (run key tags).Pairwise fun i j => key i ≤ key j

structure Env where
  fRuntimeScrubbingEnabled : Bool
  fResvTagFormatEnabled : Bool
  sort : TagSort

/-- A `DATA` argument: bytes from elsewhere, or bytes of the page that is being changed. -/
inductive Data where
  | bytes (bs : List UInt8)
  | onPage (ib cb : Nat)
deriving Repr

def Data.cb : Data → Nat
  | .bytes bs => bs.length
  | .onPage _ cb => cb

/-- `memmove` of one `DATA` to address `pb`. -/
def Data.copyTo (m : Memory) (pb : Nat) : Data → Memory
  | .bytes bs => store m pb bs
  | .onPage ib cb => move m pb ib cb

def cbDataTotal (rgdata : List Data) : Nat :=
  (rgdata.map Data.cb).sum

def chPAGEReplaceFill : UInt8 := 0x52

def chPAGEDeleteFill : UInt8 := 0x44

def chPAGEReorgContiguousFreeFill : UInt8 := 0x4f

def ctagReservedMax : Nat := 7

def ushort (i : Int) : Nat := (i % 65536).toNat

def copyPieces (m : Memory) (pb : Nat) : List Data → Memory
  | [] => m
  | d :: rgdata => copyPieces (d.copyTo m pb) (pb + d.cb) rgdata

def copyData (p : Page) (itag : Nat) (rgdata : List Data) : Page :=
  let usFlags := p.tagFFlags itag
  let p' := p.setBuf (copyPieces p.buf (p.pbFromIb (p.tagIb itag)) rgdata)
  if itag ≠ 0 then p'.tagSetFlags itag usFlags else p'

/-- One line goes down to `ibDest`; an empty tag only gets the offset. -/
def moveLineDown (p : Page) (itag ibDest pbDest : Nat) : Page :=
  let p' :=
    if p.tagCb itag ≠ 0 then
      p.setBuf (move p.buf pbDest (p.pbFromIb (p.tagIb itag)) (p.tagCb itag))
    else p
  p'.tagSetIb itag ibDest

/-- The loop of `ReorganizeData_` over the sorted tags; a line below its destination means
that tags overlap. -/
def moveLinesDown (p : Page) (ibDest pbDest : Nat) : List Nat → Option (Page × Nat)
  | [] => some (p, ibDest)
  | itag :: rgptag =>
    if p.tagCb itag ≠ 0 ∧ p.pbFromIb (p.tagIb itag) < pbDest then none
    else
      let p' := moveLineDown p itag ibDest pbDest
      moveLinesDown p' ((ibDest + p'.tagCb itag) % 65536) (pbDest + p'.tagCb itag) rgptag

def reorganizeData (env : Env) (p : Page) : Option Page := do
  let rgptag := env.sort.run p.tagIb (List.range p.itagMicFree)
  let (p, ibDest) ← moveLinesDown p 0 (p.pbFromIb 0) rgptag
  let p := p.setIbMicFree ibDest
  if env.fRuntimeScrubbingEnabled then
    return p.setBuf (fill p.buf (p.pbFromIb p.ibMicFree) p.cbContiguousBufferFree.toNat
      chPAGEReorgContiguousFreeFill)
  else
    return p

def freeSpace (env : Env) (p : Page) (cb : Nat) : Option Page := do
  let p ← if p.cbContiguousFree < cb then reorganizeData env p else some p
  guard ((cb : Int) ≤ p.cbContiguousFree)
  return p

/-- The tags from `itag` on move one place towards the data, as an ascending copy. -/
def expandTagArray (env : Env) (p : Page) (itag : Nat) : Page :=
  let p' :=
    if itag ≠ p.itagMicFree then
      p.setBuf (move p.buf (p.ptagFromItag p.itagMicFree)
        (p.ptagFromItag (p.itagMicFree - 1)) (cbTag * (p.itagMicFree - itag)))
    else p
  p'.setITagState env.fResvTagFormatEnabled (p.itagMicFree + 1) p.ctagReserved

/-- Give tag `itag` the `cb` bytes at `ibMicFree`, as `Insert_` and `IAddReservedTag` do. -/
def placeTag (p : Page) (itag cb : Nat) : Page :=
  let p := ((p.tagSetCb itag 0).tagSetIb itag 0).tagSetFlags itag 0
  let p := p.tagSetIb itag p.ibMicFree
  let p := p.setIbMicFree (p.ibMicFree + cb)
  let p := p.tagSetCb itag (cb % 65536)
  p.setCbFree (ushort (p.cbFree - (cb + cbTag)))

def insert (env : Env) (p : Page) (itag : Nat) (rgdata : List Data) (fFlags : Nat) :
    Option Page := do
  let cbTotal := cbDataTotal rgdata % 65536
  let p ← freeSpace env p (cbTotal + cbTag)
  let p := expandTagArray env p itag
  let p := placeTag p itag cbTotal
  let p := p.tagSetFlags itag fFlags
  return copyData p itag rgdata

/-- The branch of `Replace_` in which the line stays where it is. -/
def replaceInPlace (p : Page) (itag : Nat) (cbDiff : Int) : Page :=
  let p' :=
    if p.tagIb itag + p.tagCb itag = p.ibMicFree then
      p.setIbMicFree (ushort (p.ibMicFree - cbDiff))
    else p
  p'.setCbFree (ushort (p'.cbFree + cbDiff))

/-- Overwrite the bytes of a line that is given up, where runtime scrubbing is on. -/
def scrubTag (env : Env) (p : Page) (itag : Nat) (ch : UInt8) : Page :=
  if env.fRuntimeScrubbingEnabled then
    p.setBuf (fill p.buf (p.pbFromIb (p.tagIb itag)) (p.tagCb itag) ch)
  else p

def vacateTag (env : Env) (p : Page) (itag : Nat) : Page :=
  let p := scrubTag env p itag chPAGEReplaceFill
  let p := p.setCbFree (p.cbFree + p.tagCb itag)
  ((p.tagSetIb itag 0).tagSetCb itag 0).tagSetFlags itag 0

/-- The branch of `Replace_` in which the line moves to the end of the data. -/
def replaceMoved (env : Env) (p : Page) (itag cbTotal : Nat) : Option Page := do
  let p ← freeSpace env (vacateTag env p itag) cbTotal
  let p := p.tagSetIb itag p.ibMicFree
  let p := p.setIbMicFree (p.ibMicFree + cbTotal)
  return p.setCbFree (ushort (p.cbFree - cbTotal))

def replace (env : Env) (p : Page) (itag : Nat) (rgdata : List Data) (fFlags : Nat) :
    Option Page := do
  let cbTotal := cbDataTotal rgdata % 65536
  let cbDiff : Int := Int.bmod (p.tagCb itag - cbTotal) 65536
  let p ←
    if 0 ≤ cbDiff ∨ (p.tagIb itag + p.tagCb itag = p.ibMicFree ∧ -cbDiff ≤ p.cbContiguousFree) then
      some (replaceInPlace p itag cbDiff)
    else
      replaceMoved env p itag cbTotal
  let p := p.tagSetCb itag cbTotal
  let p := p.tagSetFlags itag fFlags
  let p := copyData p itag rgdata
  if 0 < cbDiff ∧ env.fRuntimeScrubbingEnabled then
    return p.setBuf (fill p.buf (p.pbFromIb (p.tagIb itag + p.tagCb itag)) cbDiff.toNat
      chPAGEReplaceFill)
  else
    return p

def replaceFlags (p : Page) (itag fFlags : Nat) : Page :=
  p.tagSetFlags itag fFlags

def delete (env : Env) (p : Page) (itag : Nat) : Page :=
  let p := scrubTag env p itag chPAGEDeleteFill
  let p :=
    if p.tagCb itag + p.tagIb itag = p.ibMicFree then
      p.setIbMicFree (ushort (p.ibMicFree - p.tagCb itag))
    else p
  let p := p.setCbFree (p.cbFree + p.tagCb itag + cbTag)
  let p := p.setITagState env.fResvTagFormatEnabled (p.itagMicFree - 1) p.ctagReserved
  -- `copy_backward` of the tags past `itag` over it
  let p :=
    p.setBuf (move p.buf (p.ptagFromItag p.itagMicFree + cbTag)
      (p.ptagFromItag p.itagMicFree) (p.ptagFromItag itag - p.ptagFromItag p.itagMicFree))
  if p.cbFree + cbTag + p.cbPageHeader = p.cbBuffer then p.setIbMicFree 0 else p

def setExternalHeader (env : Env) (p : Page) (rgdata : List Data) (fFlags : Nat) :
    Option Page :=
  replace env p 0 rgdata fFlags

/-- Returns the page and the new tag's index, or no index where the format has no room. -/
def iAddReservedTag (env : Env) (p : Page) (cb : Nat) (fillByte : UInt8) :
    Option (Page × Option Nat) := do
  let itag := p.ctagReserved
  if env.fResvTagFormatEnabled ∧ itag < ctagReservedMax then
    let p ← freeSpace env p cb
    let p := expandTagArray env p itag
    let p := p.setITagState env.fResvTagFormatEnabled p.itagMicFree (itag + 1)
    let p := placeTag p itag cb
    let p := p.setBuf (fill p.buf (p.pbFromIb (p.tagIb itag)) (p.tagCb itag) fillByte)
    return (p, some itag)
  else
    return (p, none)

def replaceReservedTag (env : Env) (p : Page) (itag : Nat) (rgdata : List Data) :
    Option Page :=
  replace env p itag rgdata 0

end EseLinux.PageEdit
