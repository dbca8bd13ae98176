import EseLinux.NodeAccess
import EseLinux.PageLayout
import EseLinux.TagBitmap

/-!
`CPAGE::ErrCheckPage` with its default checks, as the release build compiles it, and what a page
that passes it looks like.
-/

namespace EseLinux.PageCheck

open EseLinux.NodeAccess (getPtr errNDIGetKeydataflags pbDataStart pbDataEnd fCompressed Pv)
open PageFormat PageLayout
open EseLinux.PageTags (slot)
open SlotLayout TagBitmap

inductive PageCorruption
  | cbFreeTooLarge
  | cbUncommittedFreeTooLarge
  | ibMicFreeTooLarge
  | itagMicFreeTooLarge
  | emptyAndPreInitFlagsNotSet
  | tagArrayWalkingOntoPghdr
  | tagArrayTooBigToLeaveDataRoom
  | pageEmptyAndPagePreInitFlagsBothSet
  | preInitPageFlagSetWithInvalidFlags
  | corruptFlagsMixedIndexPrimary
  | corruptFlagsMixedIndexLv
  | repairedPage
  | zeroLengthIline
  | tagInFreeSpace
  | tagBeyondEndOfPage
  | getLineGotNullPtr
  | lineEntirelyBelowDataSection
  | lineStartsBelowDataSection
  | tagcbPrefixTooLarge
  | tagcbSuffixTooLarge
  | tagZeroLengthKey
  | tagcbDataTooLarge
  | tagCbDataZero
  | tagDataTooLarge
  | tagsOverlap
  | spaceSizeMismatch
deriving DecidableEq, Repr

/-- What the check reads besides the page: the repair mode, and whether the memory for the
bitmap could be allocated. -/
structure CheckEnv where
  fRepair : Bool
  fBitmap : Bool

def reject (c : Prop) [Decidable c] (e : PageCorruption) : Except PageCorruption Unit :=
  if c then .error e else .ok ()

/-- The flags a preinitialized page may carry: `fPagePreInit`, `fPageNewRecordFormat`,
`fPageNewChecksumFormat` and the flush type. -/
def mskPreInitFlags : Nat := 0x20000 ||| 0x800 ||| 0x2000 ||| 0x18000

def checkHeader (env : CheckEnv) (p : Page) : Except PageCorruption Unit := do
  reject (p.cbBufferData < p.cbFree) .cbFreeTooLarge
  reject (p.cbPageFree % 65536 < p.cbUncommittedFree) .cbUncommittedFreeTooLarge
  reject (p.cbBufferData < p.ibMicFree) .ibMicFreeTooLarge
  reject (p.cbBufferData / cbTag ≤ p.itagMicFree) .itagMicFreeTooLarge
  reject (p.itagMicFree = 0 ∧ !p.fEmptyPage ∧ !p.fPreInitPage) .emptyAndPreInitFlagsNotSet
  reject (pbDataEnd p ≤ pbDataStart p + 1) .tagArrayWalkingOntoPghdr
  reject (0 < p.itagMicFree ∧ pbDataEnd p - pbDataStart p - ((p.itagMicFree : Int) - 1) * 4 < 0)
    .tagArrayTooBigToLeaveDataRoom
  reject (p.fEmptyPage ∧ p.fPreInitPage) .pageEmptyAndPagePreInitFlagsBothSet
  reject (p.fPreInitPage ∧ (p.itagMicFree ≠ 0 ∨ !p.fNewRecordFormat ∨
    p.fFlag (0xffffffff ^^^ mskPreInitFlags) ∨ p.pgnoPrev ≠ 0 ∨ p.pgnoNext ≠ 0))
    .preInitPageFlagSetWithInvalidFlags
  reject (p.fIndexPage ∧ p.fPrimaryPage) .corruptFlagsMixedIndexPrimary
  reject (p.fLongValuePage ∧ p.fIndexPage) .corruptFlagsMixedIndexLv
  reject (p.fRepairedPage ∧ !env.fRepair) .repairedPage

def pvBelow (pb : Nat) : Pv → Bool
  | .page a => decide (a < pb)
  | _ => false

/-- A line that ends above the data area is only reported, not rejected, in this build. -/
def checkLine (p : Page) (itag : Nat) : Except PageCorruption Unit := do
  let pv := (getPtr p itag).1.pv
  reject (pv = .null) .getLineGotNullPtr
  reject (pvBelow (pbDataStart p) (pv.add (p.tagCb itag - 1))) .lineEntirelyBelowDataSection
  reject (pvBelow (pbDataStart p) pv) .lineStartsBelowDataSection

def cbPrefixMax (p : Page) : Nat :=
  if p.fSpaceTree ∨ p.objidFDP = 0 then 0 else p.tagCb 0

def checkNode (env : CheckEnv) (p : Page) (itag : Nat) : Except PageCorruption Unit := do
  let (kdf, errGetKdf) := errNDIGetKeydataflags p (itag - p.ctagReserved)
  let cb : Int := p.tagCb itag
  let cbInternalNode : Int :=
    (if fCompressed kdf.fFlags then 2 else 0) + 2 + kdf.keySuffix.cb + kdf.data.cb
  reject (fCompressed kdf.fFlags ∧ (cbPrefixMax p < kdf.keyPrefix.cb ∨ kdf.keyPrefix.cb < 0))
    .tagcbPrefixTooLarge
  reject (cb < kdf.keySuffix.cb ∨ kdf.keySuffix.cb < 0) .tagcbSuffixTooLarge
  -- the last key of a page that is no leaf is empty
  reject (kdf.keyPrefix.cb = 0 ∧ kdf.keySuffix.cb = 0 ∧
    (p.fLeafPage ∨ itag + 1 < p.itagState &&& 0x0fff) ∧ !env.fRepair) .tagZeroLengthKey
  reject (cb < kdf.data.cb ∨ kdf.data.cb < 0) .tagcbDataTooLarge
  reject (kdf.data.cb = 0) .tagCbDataZero
  reject (cb < cbInternalNode ∨ cbInternalNode < 0) .tagDataTooLarge
  reject errGetKdf.isSome .tagDataTooLarge

def checkTag (env : CheckEnv) (p : Page) (itag : Nat) : Except PageCorruption Unit :=
  if p.tagCb itag = 0 then
    reject (p.ctagReserved ≤ itag) .zeroLengthIline
  else do
    reject (p.ibMicFree < p.tagIb itag + p.tagCb itag) .tagInFreeSpace
    reject (p.cbBuffer ≤ p.tagIb itag ∨ p.cbBuffer ≤ p.tagCb itag ∨
      p.cbBuffer ≤ p.tagIb itag + p.tagCb itag) .tagBeyondEndOfPage
    checkLine p itag
    if !p.fSpaceTree ∧ p.ctagReserved ≤ itag then checkNode env p itag else .ok ()

structure Walk where
  cbTotal : Nat
  bitmap : Bitmap

def visitTag (env : CheckEnv) (p : Page) (w : Walk) (itag : Nat) :
    Except PageCorruption Walk := do
  checkTag env p itag
  return {
    cbTotal := w.cbTotal + p.tagCb itag
    bitmap := if env.fBitmap then markTag w.bitmap (slot p itag) else w.bitmap }

def errCheckPage (env : CheckEnv) (p : Page) : Except PageCorruption Unit := do
  checkHeader env p
  let w ← (List.range p.itagMicFree).foldlM (visitTag env p) ⟨0, empty⟩
  reject (w.bitmap.dwOverlaps ≠ 0) .tagsOverlap
  reject (w.cbTotal + p.cbFree + p.cbTagArray ≠ p.cbBufferData) .spaceSizeMismatch

theorem reject_ok {c : Prop} [Decidable c] {e : PageCorruption} :
    reject c e = .ok () ↔ ¬ c := by
  simp [reject]

theorem bind_ok {α β : Type} {x : Except PageCorruption α} {f : α → Except PageCorruption β}
    {b : β} : (x >>= f) = .ok b ↔ ∃ a, x = .ok a ∧ f a = .ok b := by
  cases x with
  | error e => simp [bind, Except.bind]
  | ok a => simp [bind, Except.bind]

theorem seq_ok {β : Type} {x : Except PageCorruption Unit}
    {f : Unit → Except PageCorruption β} {b : β} :
    (x >>= f) = .ok b ↔ x = .ok () ∧ f () = .ok b := by
  rw [bind_ok]
  exact ⟨fun ⟨_, hx, hf⟩ => ⟨hx, hf⟩, fun ⟨hx, hf⟩ => ⟨(), hx, hf⟩⟩

section Walks

variable {env : CheckEnv} {p : Page}

theorem visitTag_ok {w w' : Walk} {itag : Nat} :
    visitTag env p w itag = .ok w' ↔ checkTag env p itag = .ok () ∧ w' = ⟨w.cbTotal + p.tagCb itag,
          if env.fBitmap then markTag w.bitmap (slot p itag) else w.bitmap⟩ := by
  rw [visitTag, seq_ok]
  refine and_congr_right fun _ => ⟨fun hw => (Except.ok.inj hw).symm, ?_⟩
  rintro rfl
  rfl

theorem foldlM_visitTag_ok {w w' : Walk} {itags : List Nat} :
    itags.foldlM (visitTag env p) w = .ok w' ↔ (∀ itag ∈ itags, checkTag env p itag = .ok ()) ∧
        w' = ⟨w.cbTotal + used (itags.map (slot p)),
          if env.fBitmap then markTags (itags.map (slot p)) w.bitmap else w.bitmap⟩ := by
  induction itags generalizing w with
  | nil => simpa [markTags, pure, Except.pure] using eq_comm
  | cons itag itags ih =>
    rw [List.foldlM_cons, bind_ok]
    simp only [visitTag_ok, ih, List.mem_cons, forall_eq_or_imp, List.map_cons, used_cons]
    constructor
    · rintro ⟨w₁, ⟨htag, rfl⟩, htags, rfl⟩
      refine ⟨⟨htag, htags⟩, ?_⟩
      cases env.fBitmap <;> simp [markTags, slot, add_assoc]
    · rintro ⟨⟨htag, htags⟩, rfl⟩
      refine ⟨_, ⟨htag, rfl⟩, htags, ?_⟩
      cases env.fBitmap <;> simp [markTags, slot, add_assoc]

/-- Every check of the page passes except, perhaps, the one for overlaps. -/
structure OtherChecks (env : CheckEnv) (p : Page) : Prop where
  header : checkHeader env p = .ok ()
  tags : ∀ itag, itag < p.itagMicFree → checkTag env p itag = .ok ()
  accounting : used (slots p) + p.cbFree + p.cbTagArray = p.cbBufferData

theorem errCheckPage_ok :
    errCheckPage env p = .ok () ↔
      OtherChecks env p ∧ (env.fBitmap → (slots p).Pairwise RecordedApart) := by
  rw [errCheckPage, seq_ok, bind_ok]
  simp only [seq_ok, reject_ok, not_not, foldlM_visitTag_ok, List.mem_range, zero_add]
  constructor
  · rintro ⟨hheader, w, ⟨htags, rfl⟩, hoverlaps, hacc⟩
    refine ⟨⟨hheader, htags, hacc⟩, fun hbitmap => ?_⟩
    rw [if_pos hbitmap] at hoverlaps
    exact (markTags_empty_overlaps _).mp hoverlaps
  · rintro ⟨hchecks, hapart⟩
    refine ⟨hchecks.header, _, ⟨hchecks.tags, rfl⟩, ?_, hchecks.accounting⟩
    split
    · rename_i hbitmap
      exact (markTags_empty_overlaps _).mpr (hapart hbitmap)
    · rfl

/-- The tags of the page lie in the data area below `ibMicFree`, no two of them share a byte,
and the free bytes, the tags and the tag array fill the data area. -/
structure TagsSound (p : Page) : Prop where
  below : ∀ s ∈ slots p, s.Below p.ibMicFree
  inside : p.ibMicFree ≤ p.cbBufferData
  apart : (slots p).Pairwise Slot.Apart
  accounting : p.cbFree + used (slots p) + p.cbTagArray = p.cbBufferData

theorem OtherChecks.inside (h : OtherChecks env p) : p.ibMicFree ≤ p.cbBufferData := by
  have hheader := h.header
  simp only [checkHeader, seq_ok, reject_ok] at hheader
  obtain ⟨-, -, hle, -⟩ := hheader
  exact Nat.le_of_not_lt hle

theorem OtherChecks.below (h : OtherChecks env p) : ∀ s ∈ slots p, s.Below p.ibMicFree := by
  intro s hs hcb
  obtain ⟨itag, hitag, rfl⟩ := List.mem_map.mp hs
  have htag := h.tags itag (List.mem_range.mp hitag)
  rw [checkTag, if_neg (show p.tagCb itag ≠ 0 from hcb), seq_ok, reject_ok] at htag
  obtain ⟨hle, -⟩ := htag
  exact Nat.le_of_not_lt hle

/-- A page that passes the check is sound unless it has tags that share a byte and the bitmap
misses that: it was not allocated, or no byte is recorded by two tags. -/
theorem errCheckPage_sound_iff (env : CheckEnv) (p : Page) :
    (errCheckPage env p = .ok () → TagsSound p) ↔
      (OtherChecks env p → ¬ (slots p).Pairwise Slot.Apart →
        env.fBitmap ∧ ¬ (slots p).Pairwise RecordedApart) := by
  rw [errCheckPage_ok]
  constructor
  · intro hsound hchecks hoverlap
    by_contra hmissed
    refine hoverlap (hsound ⟨hchecks, fun hbitmap => ?_⟩).apart
    by_contra hrecorded
    exact hmissed ⟨hbitmap, hrecorded⟩
  · rintro hcond ⟨hchecks, hrecorded⟩
    refine ⟨hchecks.below, hchecks.inside, ?_, by have := hchecks.accounting; omega⟩
    by_contra hoverlap
    obtain ⟨hbitmap, hnot⟩ := hcond hchecks hoverlap
    exact hnot (hrecorded hbitmap)

end Walks

/-- A leaf page of 2K whose two nodes have the same eight bytes at offset 8. -/
def doubledPage : Page where
  cbPage := 2048
  cbBuffer := 2048
  buf
    | 28 => 0xbc | 29 => 0x07 | 32 => 16 | 34 => 3 | 36 => 0x02 | 48 => 2 | 50 => 0x6b | 51 => 0x65
    | 2036 => 8 | 2038 => 8 | 2040 => 8 | 2042 => 8 | _ => 0
  itagMicFree := 3
  ctagReserved := 1

theorem doubledPage_passes :
    errCheckPage ⟨false, true⟩ doubledPage = .ok () ∧ ¬ TagsSound doubledPage := by
  refine ⟨by decide, fun hsound => ?_⟩
  have hapart := hsound.apart
  revert hapart
  decide

end EseLinux.PageCheck
