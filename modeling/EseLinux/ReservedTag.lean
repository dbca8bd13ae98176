import EseLinux.NodeLine
import EseLinux.PageRun

/-!
Reserved tags: data of a page beside its external header and before its lines.  They go through
the functions that write lines, with no flags, and these keep the flags of a line on a large page
in the high bits of its second byte.
-/

namespace EseLinux.ReservedTag

open ByteMemory PageFormat PageEdit PageHeader PageInsert PageLayout PageLine PageReplace PageRun
open PageTags (line)

/-- The bytes behind the pointer that `GetPtrReservedTag` returns. -/
def reservedTagData (p : Page) (itag : Nat) : List UInt8 :=
  let line := NodeLine.getPtrNoChecks p itag
  NodeLine.bytesOf p ⟨line.pv, line.cb⟩

theorem reservedTagData_eq (p : Page) (itag : Nat) : reservedTagData p itag = p.tagData itag := by
  rw [reservedTagData, NodeLine.getPtrNoChecks, Page.tagData]
  by_cases hcb : p.tagCb itag = 0
  · simp [hcb, NodeLine.bytesOf]
  · simp [hcb, NodeLine.bytesOf]

/-- The two functions that write a reserved tag: a new one filled with one byte, or the bytes of
an old one replaced. -/
inductive TagWrite
  | iAddReservedTag (cb : Nat) (fillByte : UInt8)
  | replaceReservedTag (itag : Nat) (rgdata : List (List UInt8))

namespace TagWrite

def exec (env : Env) (p : Page) : TagWrite → Option Page
  | .iAddReservedTag cb fillByte => (PageEdit.iAddReservedTag env p cb fillByte).map Prod.fst
  | .replaceReservedTag itag rgdata =>
    PageEdit.replaceReservedTag env p itag (rgdata.map Data.bytes)

def itag (p : Page) : TagWrite → Nat
  | .iAddReservedTag _ _ => p.ctagReserved
  | .replaceReservedTag itag _ => itag

def bytes : TagWrite → List UInt8
  | .iAddReservedTag cb fillByte => List.replicate cb fillByte
  | .replaceReservedTag _ rgdata => rgdata.flatten

/-- The tag is a reserved one behind the external header, or there may be one more, and the bytes
fit the page. -/
def Pre (p : Page) : TagWrite → Prop
  | .iAddReservedTag cb _ =>
    1 ≤ p.ctagReserved ∧ p.ctagReserved < ctagReservedMax ∧ p.ctagReserved ≤ p.itagMicFree ∧
      cb + cbTag ≤ p.cbFree
  | .replaceReservedTag itag rgdata =>
    1 ≤ itag ∧ itag < p.ctagReserved ∧ p.ctagReserved ≤ p.itagMicFree ∧
      rgdata.flatten.length ≤ p.tagCb itag + p.cbFree

/-- A new tag finds room for its own four bytes, and on a large page the high bits of a second
byte are clear. -/
def KeepsBytes (p : Page) : TagWrite → Prop
  | .iAddReservedTag cb _ => ¬ MissesTagBytes p cb
  | .replaceReservedTag _ rgdata =>
    p.fSmallPageFormat = true ∨ ∀ b ∈ rgdata.flatten[1]?, b.toNat < 32

instance (p : Page) : (w : TagWrite) → Decidable (w.KeepsBytes p)
  | .iAddReservedTag cb _ => inferInstanceAs (Decidable (¬ MissesTagBytes p cb))
  | .replaceReservedTag _ rgdata =>
    @instDecidableOr _ _ inferInstance (Option.decidableForallMem rgdata.flatten[1]?)

end TagWrite

/-- The page is still valid, the bytes are read back, and the other reserved tags and the lines are
as they were. -/
structure ReadsBack (p : Page) (w : TagWrite) (q : Page) : Prop where
  inv : LayoutInv q
  data : reservedTagData q (w.itag p) = w.bytes
  reserved : ∀ i < p.ctagReserved, i ≠ w.itag p → line q i = line p i
  lines : ∀ iline, iline + p.ctagReserved < p.itagMicFree →
    line q (iline + q.ctagReserved) = line p (iline + p.ctagReserved)
  clines : q.itagMicFree - q.ctagReserved = p.itagMicFree - p.ctagReserved

theorem withFlags_zero (bs : List UInt8) :
    withFlags 0 bs = bs ↔ ∀ b ∈ bs[1]?, b.toNat < 32 := by
  rcases bs with _ | ⟨b₀, _ | ⟨b₁, rest⟩⟩
  · simp [withFlags]
  · simp [withFlags]
  · simp only [withFlags, List.cons.injEq, and_true, true_and, List.getElem?_cons_succ,
      List.getElem?_cons_zero, Option.mem_def, Option.some.injEq, forall_eq']
    rw [← UInt8.toNat_inj, UInt8.toNat_ofNat']
    omega

section Step

variable {env : Env} {p : Page}

theorem readsBack_add_iff (hinv : LayoutInv p) (hformat : env.fResvTagFormatEnabled = true)
    {cb : Nat} {fillByte : UInt8} (hpre : TagWrite.Pre p (.iAddReservedTag cb fillByte)) :
    (∃ q, TagWrite.exec env p (.iAddReservedTag cb fillByte) = some q ∧
      ReadsBack p (.iAddReservedTag cb fillByte) q) ↔ ¬ MissesTagBytes p cb := by
  obtain ⟨hone, hcount, hle, hfree⟩ := hpre
  constructor
  · rintro ⟨q, hq, hreads⟩ hmisses
    obtain ⟨q', hq', hbroken⟩ := iAddReservedTag_misses env hinv cb fillByte hformat hcount hle
      hmisses
    rw [TagWrite.exec, hq', Option.map_some] at hq
    obtain rfl := Option.some.inj hq
    exact hbroken hreads.inv
  · intro hroomy
    obtain ⟨q, hq, hadded, hctag, hdata⟩ := iAddReservedTag_spec env hinv cb fillByte hformat
      hcount hle hfree hroomy
    refine ⟨q, by rw [TagWrite.exec, hq, Option.map_some], hadded.inv, ?_, ?_, ?_, ?_⟩
    · rw [reservedTagData_eq]
      exact hdata
    · intro i hi _
      have hline := hadded.lineEq i (by omega)
      rwa [shiftUp, if_pos hi] at hline
    · intro iline hiline
      have hline := hadded.lineEq (iline + p.ctagReserved) hiline
      rw [shiftUp, if_neg (by omega)] at hline
      rw [hctag]
      exact hline
    · rw [hadded.itagMicFree, hctag]
      omega

theorem readsBack_replace_iff (hinv : LayoutInv p) {itag : Nat} {rgdata : List (List UInt8)}
    (hpre : TagWrite.Pre p (.replaceReservedTag itag rgdata)) :
    (∃ q, TagWrite.exec env p (.replaceReservedTag itag rgdata) = some q ∧
      ReadsBack p (.replaceReservedTag itag rgdata) q) ↔
      p.fSmallPageFormat = true ∨ ∀ b ∈ rgdata.flatten[1]?, b.toNat < 32 := by
  obtain ⟨hone, hitag, hle, hfree⟩ := hpre
  obtain ⟨q, hq, honly, -, hline⟩ := replace_line env hinv (by omega) (by omega) rgdata
    (show 0 < 8 by decide) (Or.inr rfl) hfree
  have hdata : reservedTagData q itag =
      if p.fSmallPageFormat then rgdata.flatten else withFlags 0 rgdata.flatten := by
    rw [reservedTagData_eq]
    exact congrArg PageTags.Line.data hline
  have hreads : ReadsBack p (.replaceReservedTag itag rgdata) q ↔
      reservedTagData q itag = rgdata.flatten := by
    constructor
    · exact fun h => h.data
    · intro h
      refine ⟨honly.inv, h, fun i hi hne => honly.lineEq i (by omega) hne, ?_, ?_⟩
      · intro iline hiline
        rw [honly.ctagReserved]
        exact honly.lineEq _ hiline (by omega)
      · rw [honly.itagMicFree, honly.ctagReserved]
  have hexec : (∃ r, TagWrite.exec env p (.replaceReservedTag itag rgdata) = some r ∧
      ReadsBack p (.replaceReservedTag itag rgdata) r) ↔
      ReadsBack p (.replaceReservedTag itag rgdata) q := by
    constructor
    · rintro ⟨r, hr, h⟩
      obtain rfl := Option.some.inj (hq.symm.trans hr)
      exact h
    · exact fun h => ⟨q, hq, h⟩
  rw [hexec, hreads, hdata]
  cases p.fSmallPageFormat with
  | true => simp
  | false => simpa using withFlags_zero rgdata.flatten

end Step

/-- A reserved tag that is written reads back, with all else as it was, exactly when a new tag
finds room for its own bytes and the flags find nothing to clear. -/
theorem readsBack_iff (env : Env) (p : Page) (w : TagWrite) (hinv : LayoutInv p)
    (hformat : env.fResvTagFormatEnabled = true) (hpre : w.Pre p) :
    (∃ q, w.exec env p = some q ∧ ReadsBack p w q) ↔ w.KeepsBytes p := by
  cases w with
  | iAddReservedTag cb fillByte => exact readsBack_add_iff hinv hformat hpre
  | replaceReservedTag itag rgdata => exact readsBack_replace_iff hinv hpre

/-- A 16K page with an empty external header and one reserved tag of three bytes. -/
def reservedPage : Page where
  cbPage := 16384
  cbBuffer := 16384
  buf
    | 28 => 0xa5 | 29 => 0x3f | 32 => 3 | 34 => 0x02 | 35 => 0x20 | 80 => 1 | 16376 => 3 | _ => 0
  itagMicFree := 2
  ctagReserved := 2

theorem reservedPage_inv : LayoutInv reservedPage where
  normal := ⟨by decide, rfl⟩
  valid := by decide

/-- Bytes with a small second one are read back. -/
theorem reservedPage_reads :
    ∃ q, TagWrite.exec reservedTagsEnv reservedPage (.replaceReservedTag 1 [[1, 31, 0xff, 0xff]]) =
        some q ∧ reservedTagData q 1 = [1, 31, 0xff, 0xff] := by
  obtain ⟨q, hq, hreads⟩ := (readsBack_iff reservedTagsEnv reservedPage
    (.replaceReservedTag 1 [[1, 31, 0xff, 0xff]]) reservedPage_inv rfl
    ⟨by decide, by decide, by decide, by decide⟩).mpr (by decide)
  exact ⟨q, hq, hreads.data⟩

/-- The high bits of a second byte are lost on a large page. -/
theorem reservedPage_loses :
    LayoutInv reservedPage ∧ TagWrite.Pre reservedPage (.replaceReservedTag 1 [[1, 0xff]]) ∧
      ∃ q, TagWrite.exec reservedTagsEnv reservedPage (.replaceReservedTag 1 [[1, 0xff]]) = some q ∧
        reservedTagData q 1 = [1, 0x1f] := by
  refine ⟨reservedPage_inv, ⟨by decide, by decide, by decide, by decide⟩, ?_⟩
  obtain ⟨q, hq, -, -, hline⟩ := replace_line reservedTagsEnv reservedPage_inv
    (show 1 < reservedPage.itagMicFree by decide) (by decide) [[1, 0xff]]
    (show 0 < 8 by decide) (Or.inr rfl) (by decide)
  refine ⟨q, hq, ?_⟩
  rw [reservedTagData_eq]
  exact congrArg PageTags.Line.data hline

end EseLinux.ReservedTag
