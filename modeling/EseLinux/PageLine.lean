import EseLinux.PageHeader
import EseLinux.PageReplace

/-!
The bytes of a line that is written to a page.  On a small page the flags of a line stand in
its tag; on a large page they go over the three high bits of the first word of the line.
-/

namespace EseLinux.PageLine

open ByteMemory PageFormat PageEdit PageHeader PageInsert PageLayout PageReorganize PageReplace
open Page
open List
  PageTags PageWrite SlotLayout

def withFlags (fFlags : Nat) : List UInt8 → List UInt8
  | b₀ :: b₁ :: rest => b₀ :: UInt8.ofNat (b₁.toNat % 32 + 32 * fFlags) :: rest
  | bs => bs

/-- The line that stands for `bs` and `fFlags` on a page of either format. -/
def lineOf (fSmallFormat : Bool) (fFlags : Nat) (bs : List UInt8) : Line :=
  ⟨fFlags, if fSmallFormat then bs else withFlags fFlags bs⟩

@[simp] theorem withFlags_length (fFlags : Nat) (bs : List UInt8) :
    (withFlags fFlags bs).length = bs.length := by
  unfold withFlags
  split <;> rfl

@[simp] theorem lineOf_length (fSmallFormat : Bool) (fFlags : Nat) (bs : List UInt8) :
    (lineOf fSmallFormat fFlags bs).data.length = bs.length := by
  rw [lineOf]
  split
  · rfl
  · exact withFlags_length fFlags bs

theorem cbDataTotal_bytes (pieces : List (List UInt8)) :
    cbDataTotal (pieces.map Data.bytes) = pieces.flatten.length := by
  rw [cbDataTotal, map_map, length_flatten]
  rfl

variable (m : Memory)

theorem copyPieces_bytes (pb : Nat) (pieces : List (List UInt8)) :
    copyPieces m pb (pieces.map Data.bytes) = store m pb pieces.flatten := by
  induction pieces generalizing m pb with
  | nil => exact (store_nil m pb).symm
  | cons bs pieces ih =>
    rw [map_cons, copyPieces, ih, flatten_cons, ← store_append]
    rfl

def pieceBytes (m : Memory) : Data → List UInt8
  | .bytes bs => bs
  | .onPage pb cb => slice m pb cb

/-- No piece is overwritten before it is copied to `pb` and on: those from the page stand at their
destination or behind it. -/
def Ahead (pb : Nat) : List Data → Prop
  | [] => True
  | .bytes bs :: rgdata => Ahead (pb + bs.length) rgdata
  | .onPage pbSrc cb :: rgdata => (cb = 0 ∨ pb ≤ pbSrc) ∧ Ahead (pb + cb) rgdata

theorem Ahead.pieceBytes_eq {m m' : Memory} {pb : Nat} {rgdata : List Data} (h : Ahead pb rgdata)
    (hsame : ∀ a, pb ≤ a → m' a = m a) :
    rgdata.map (pieceBytes m') = rgdata.map (pieceBytes m) := by
  induction rgdata generalizing pb with
  | nil => rfl
  | cons d rgdata ih =>
    cases d with
    | bytes bs =>
      rw [map_cons, map_cons, ih h fun a ha => hsame a (by omega)]
      rfl
    | onPage pbSrc cb =>
      rw [map_cons, map_cons, ih h.2 fun a ha => hsame a (by omega)]
      congr 1
      exact AgreeOn.slice_eq fun a hlo hhi => hsame a (by have hsrc := h.1; omega)

theorem slice_copyTo (pb : Nat) (d : Data) : slice (d.copyTo m pb) pb d.cb = pieceBytes m d := by
  cases d with
  | bytes bs => exact slice_store m pb bs
  | onPage pbSrc cb => exact slice_move m pb pbSrc cb 0 cb (by omega)

theorem slice_copyPieces {pb : Nat} {rgdata : List Data} (h : Ahead pb rgdata) :
    slice (copyPieces m pb rgdata) pb (cbDataTotal rgdata) =
      (rgdata.map (pieceBytes m)).flatten := by
  induction rgdata generalizing m pb with
  | nil => rfl
  | cons d rgdata ih =>
    have hnext : Ahead (pb + d.cb) rgdata := by
      cases d with
      | bytes bs => exact h
      | onPage pbSrc cb => exact h.2
    have hframe a (ha : pb + d.cb ≤ a) : d.copyTo m pb a = m a := by
      cases d with
      | bytes bs => exact store_agreeOn m pb bs a 1 (Or.inr ha) a (le_rfl) (by omega)
      | onPage pbSrc cb =>
        exact move_agreeOn m pb pbSrc cb a 1 (Or.inr ha) a (le_rfl) (by omega)
    have hfirst : slice (copyPieces (d.copyTo m pb) (pb + d.cb) rgdata) pb d.cb =
        pieceBytes m d := by
      rw [← slice_copyTo m pb d]
      exact ((copyPieces_frame _ _ _).agreeOn fun a _ hhi hin => by omega).slice_eq
    rw [copyPieces, cbDataTotal_cons, ← slice_append, hfirst, ih _ hnext,
      hnext.pieceBytes_eq hframe, map_cons, flatten_cons]

theorem setWord_first (a w : Nat) : setWord m a w a = UInt8.ofNat w := by
  simp [setWord]

theorem setWord_second (a w : Nat) : setWord m a w (a + 1) = UInt8.ofNat (w / 256) := by
  simp [setWord]

variable {cb : Nat}

section Flags

variable {x : Page} {k fFlags : Nat}

theorem line_of_short (hlarge : x.fSmallPageFormat = false) (hshort : x.tagCb k < 2) :
    line x k = lineOf x.fSmallPageFormat 0 (x.tagData k) := by
  have hlength : (x.tagData k).length < 2 := by rwa [tagData, slice_length]
  rw [line, lineOf, tagFFlags_of_large _ _ hlarge, hlarge, if_neg Bool.false_ne_true]
  rcases hbytes : x.tagData k with _ | ⟨b₀, _ | ⟨b₁, rest⟩⟩
  · rfl
  · rfl
  · rw [hbytes, length_cons, length_cons] at hlength
    omega

theorem line_tagSetFlags (hk : k ≠ 0) (hon : TagOnPage x k) (hflags : fFlags < 8)
    (htwo : 2 ≤ x.tagCb k ∨ fFlags = 0)
    (hend : x.tagCb k ≠ 0 → x.pbFromIb (x.tagIb k) + x.tagCb k ≤ x.ptagFromItag k) :
    line (x.tagSetFlags k fFlags) k = lineOf x.fSmallPageFormat fFlags (x.tagData k) := by
  have hshape := sameShape_tagSetFlags x k fFlags
  have hslot := slot_tagSetFlags fFlags hon hon hend
  have hib : (x.tagSetFlags k fFlags).tagIb k = x.tagIb k := congrArg Slot.ib hslot
  have hcb' : (x.tagSetFlags k fFlags).tagCb k = x.tagCb k := congrArg Slot.cb hslot
  cases hsmall : x.fSmallPageFormat with
  | true =>
    have hword : word (x.tagSetFlags k fFlags).buf (x.ptagFromItag k + 2) =
        word x.buf (x.ptagFromItag k + 2) % 2 ^ 13 + 2 ^ 13 * fFlags := by
      simp only [tagSetFlags, hsmall, if_true, setFlagsAt, setBuf_buf]
      rw [word_setWord, setFlags_word]
      omega
    have hdata : (x.tagSetFlags k fFlags).tagData k = x.tagData k := by
      rw [tagData, tagData, hib, hcb', hshape.pbFromIb]
      apply AgreeOn.slice_eq
      simp only [tagSetFlags, hsmall, if_true, setFlagsAt, setBuf_buf]
      rcases Nat.eq_zero_or_pos (x.tagCb k) with hzero | hpos
      · exact fun a hlo hhi => by omega
      · exact setWord_agreeOn _ _ _ _ _ (by omega)
    rw [line, lineOf, hdata, tagFFlags, hshape.fSmallPageFormat, hsmall, if_pos rfl,
      if_pos rfl, hshape.ptagFromItag, and_mskTagFlags_shiftRight _ (word_lt _ _), hword]
    congr 1
    omega
  | false =>
    have hlarge : (x.tagSetFlags k fFlags).fSmallPageFormat = false :=
      hshape.fSmallPageFormat.trans hsmall
    by_cases hcb : 2 ≤ x.tagCb k
    case neg =>
      obtain rfl := htwo.resolve_left hcb
      have hsame : x.tagSetFlags k 0 = x := by
        rw [tagSetFlags, hsmall, if_neg Bool.false_ne_true, if_neg (fun h => hcb h.2)]
      rw [hsame, line_of_short hsmall (by omega), hsmall]
    have hbuf : (x.tagSetFlags k fFlags).buf = setWord x.buf (x.pbFromIb (x.tagIb k))
        (word x.buf (x.pbFromIb (x.tagIb k)) % 2 ^ 13 + 2 ^ 13 * fFlags) := by
      rw [tagSetFlags, hsmall, if_neg Bool.false_ne_true, if_pos ⟨hk, hcb⟩,
        setFlagsAt, setBuf_buf, setFlags_word]
    have hdata : (x.tagSetFlags k fFlags).tagData k = withFlags fFlags (x.tagData k) := by
      rw [tagData, tagData, hib, hcb', hshape.pbFromIb, hbuf,
        slice_of_two_le _ _ _ hcb, slice_of_two_le _ _ _ hcb, withFlags,
        (setWord_agreeOn _ _ _ _ _ (Or.inr (le_refl _))).slice_eq, setWord_first,
        setWord_second]
      generalize x.pbFromIb (x.tagIb k) = a
      have hlow := (x.buf a).toNat_lt
      congr 1
      · apply UInt8.toNat_inj.mp
        rw [UInt8.toNat_ofNat', word]
        omega
      · congr 2
        rw [word]
        omega
    obtain ⟨b₀, b₁, rest, hbytes⟩ : ∃ b₀ b₁ rest, x.tagData k = b₀ :: b₁ :: rest :=
      ⟨_, _, _, slice_of_two_le _ _ _ hcb⟩
    rw [line, lineOf, tagFFlags_of_large _ _ hlarge, hdata, if_neg Bool.false_ne_true, hbytes,
      withFlags, flagsOfData, UInt8.toNat_ofNat']
    congr 1
    omega

theorem line_copyData {rgdata : List Data} {bs : List UInt8} (hk : k ≠ 0) (hon : TagOnPage x k)
    (hflags : x.tagFFlags k < 8) (hcb : x.tagCb k = cbDataTotal rgdata)
    (htwo : 2 ≤ x.tagCb k ∨ x.tagFFlags k = 0)
    (hend : x.tagCb k ≠ 0 → x.pbFromIb (x.tagIb k) + x.tagCb k ≤ x.ptagFromItag k)
    (hbytes : slice (copyPieces x.buf (x.pbFromIb (x.tagIb k)) rgdata) (x.pbFromIb (x.tagIb k))
      (x.tagCb k) = bs) :
    line (copyData x k rgdata) k = lineOf x.fSmallPageFormat (x.tagFFlags k) bs := by
  rw [copyData, if_pos hk]
  generalize hm : copyPieces x.buf (x.pbFromIb (x.tagIb k)) rgdata = m at *
  have hslot : slot (x.setBuf m) k = slot x k := by
    refine slot_eq_of_agreeOn (sameShape_setBuf x _) ?_
    rw [setBuf_buf, ← hm]
    refine (copyPieces_frame _ _ _).agreeOn fun a hlo _ hin => ?_
    omega
  have hib := congrArg Slot.ib hslot
  have hcb' := congrArg Slot.cb hslot
  simp only [slot] at hib hcb'
  have hdata : (x.setBuf m).tagData k = bs := by
    rw [tagData, hib, hcb', setBuf_buf]
    exact hbytes
  have hset := line_tagSetFlags (x := x.setBuf m) hk hon hflags (by rwa [hcb'])
    (by rw [hib, hcb']; exact hend)
  rwa [hdata] at hset

theorem line_written {rgdata : List Data} {bs : List UInt8} (hk : k ≠ 0) (hon : TagOnPage x k)
    (hflags : fFlags < 8) (hcb : x.tagCb k = cbDataTotal rgdata)
    (htwo : 2 ≤ x.tagCb k ∨ fFlags = 0)
    (hend : x.tagCb k ≠ 0 → x.pbFromIb (x.tagIb k) + x.tagCb k ≤ x.ptagFromItag k)
    (hbytes : slice (copyPieces (x.tagSetFlags k fFlags).buf (x.pbFromIb (x.tagIb k)) rgdata)
      (x.pbFromIb (x.tagIb k)) (x.tagCb k) = bs) :
    line (copyData (x.tagSetFlags k fFlags) k rgdata) k = lineOf x.fSmallPageFormat fFlags bs := by
  have hset := line_tagSetFlags hk hon hflags htwo hend
  have hslot := slot_tagSetFlags fFlags hon hon hend
  have hshape := sameShape_tagSetFlags x k fFlags
  have hib : (x.tagSetFlags k fFlags).tagIb k = x.tagIb k := congrArg Slot.ib hslot
  have hcb' : (x.tagSetFlags k fFlags).tagCb k = x.tagCb k := congrArg Slot.cb hslot
  have hflagsEq : (x.tagSetFlags k fFlags).tagFFlags k = fFlags := congrArg Line.fFlags hset
  have hline := line_copyData (x := x.tagSetFlags k fFlags) hk
    (by simpa only [TagOnPage, hshape.cbPageHeader, hshape.cbBuffer] using hon)
    (by rwa [hflagsEq]) (by rw [hcb', hcb]) (by rwa [hcb', hflagsEq])
    (by rw [hib, hcb', hshape.pbFromIb, hshape.ptagFromItag]; exact hend)
    rfl
  rwa [hib, hcb', hshape.pbFromIb, hbytes, hflagsEq, hshape.fSmallPageFormat] at hline

theorem slice_copyPieces_bytes (pb : Nat) (pieces : List (List UInt8))
    (hcb : cb = pieces.flatten.length) :
    slice (copyPieces m pb (pieces.map Data.bytes)) pb cb = pieces.flatten := by
  rw [copyPieces_bytes, hcb, slice_store]

end Flags

/-- What the insertion of pieces from elsewhere makes: a new line with just these bytes. -/
structure LineInserted (p : Page) (k : Nat) (fFlags : Nat) (bs : List UInt8) (q : Page) :
    Prop extends TagAdded p k q where
  header : SameHeader p q
  newLine : line q k = lineOf p.fSmallPageFormat fFlags bs

variable (env : Env)

theorem insert_line {p : Page} (hinv : LayoutInv p)
    (hres : p.ctagReserved ≤ p.itagMicFree) {k : Nat} (hpos : k ≠ 0) (hk : k ≤ p.itagMicFree)
    (pieces : List (List UInt8)) {fFlags : Nat} (hflags : fFlags < 8)
    (htwo : 2 ≤ pieces.flatten.length) (hfree : pieces.flatten.length + cbTag ≤ p.cbFree) :
    ∃ q, PageEdit.insert env p k (pieces.map Data.bytes) fFlags = some q ∧
      LineInserted p k fFlags pieces.flatten q := by
  have htotal := cbDataTotal_bytes pieces
  rw [← htotal] at hfree
  obtain ⟨x, hx, hrep, hroom, hexp, heq⟩ :=
    insert_stages env hinv k hk (pieces.map Data.bytes) fFlags hfree
  obtain ⟨q, hq, hadded⟩ := insert_spec env hinv k hk (pieces.map Data.bytes) fFlags hfree
  have hmax := hinv.normal.cbBuffer_lt
  have hfits := hinv.fits
  have hxk : k ≤ x.itagMicFree := by rwa [hrep.itagMicFree]
  have hxfree : cbDataTotal (pieces.map Data.bytes) + 4 ≤ x.cbFree := by rwa [hrep.cbFree]
  obtain ⟨hkOn, hwin, hplaced⟩ := hexp.placed hrep.inv hxk hxfree hroom
  rw [htotal] at hroom hplaced heq hwin
  generalize hplace : placeTag (expandTagArray env x k) k pieces.flatten.length = y at *
  have hyOn : TagOnPage y k := hplaced.tagOnPage hkOn
  have hib : y.tagIb k = x.ibMicFree := congrArg Slot.ib hplaced.slotEq
  have hcb : y.tagCb k = pieces.flatten.length := congrArg Slot.cb hplaced.slotEq
  have hend : y.pbFromIb (y.tagIb k) + y.tagCb k ≤ y.ptagFromItag k := by
    rw [hib, hcb, hplaced.shape.pbFromIb, hplaced.shape.ptagFromItag]
    simp only [pbFromIb] at *
    omega
  have hline := line_written hpos hyOn hflags
    (hcb.trans htotal.symm) (Or.inl (by omega)) (fun _ => hend)
    (slice_copyPieces_bytes _ _ pieces hcb)
  have hsmall : y.fSmallPageFormat = p.fSmallPageFormat := by
    rw [hplaced.shape.fSmallPageFormat, hexp.shape.fSmallPageFormat, hrep.shape.fSmallPageFormat]
  have hxOn : TagOnPage x x.itagMicFree := by
    simp only [TagOnPage, cbTag]
    omega
  have hheader : SameHeader p y := by
    have hexpanded := sameHeader_expandTagArray (k := k) env hxOn
      (by rw [hrep.ctagReserved]; omega)
    rw [← hplace]
    exact (sameHeader_freeSpace (fun i hi => hinv.tagOnPage hi) hx).trans
      (hexpanded.trans ((SameHeader.refl _).placeTag hkOn _))
  have hpOn : TagOnPage p k := by
    simpa only [TagOnPage, hheader.shape.cbPageHeader, hheader.shape.cbBuffer] using hyOn
  rw [heq] at hq
  obtain rfl := Option.some.inj hq
  rw [hsmall] at hline
  exact ⟨_, heq, hadded, (hheader.tagSetFlags hpOn fFlags).copyData hpOn _, hline⟩

/-- Page `x` is about to get the flags and the bytes of line `k`, which has `cb` bytes now. -/
structure ReadyFor (p : Page) (k cb : Nat) (x : Page) : Prop where
  header : SameHeader p x
  tagOnPage : TagOnPage x k
  cbEq : x.tagCb k = cb
  end_le : max (p.tagCb k) cb ≠ 0 → x.pbFromIb (x.tagIb k) + max (p.tagCb k) cb ≤ x.ptagFromItag k

section Replacement

variable {p x : Page} {k fFlags : Nat} {rgdata : List Data}

theorem sameHeader_scrubTag (p : Page) (k : Nat) (ch : UInt8) :
    SameHeader p (scrubTag env p k ch) := by
  rw [scrubTag]
  split
  · refine sameHeader_setBuf (frame_fill _ _ _ _ fun a hlo _ => Or.inr ?_)
    simp only [pbFromIb] at hlo
    omega
  · exact SameHeader.refl p

theorem sameHeader_vacateTag (hk : TagOnPage p k) : SameHeader p (vacateTag env p k) :=
  ((((sameHeader_scrubTag env p k _).setCbFree _).tagSetIb hk 0).tagSetCb hk 0).tagSetFlags hk 0

theorem sameHeader_replaceInPlace (p : Page) (k : Nat) (cbDiff : Int) :
    SameHeader p (replaceInPlace p k cbDiff) := by
  simp only [replaceInPlace]
  split
  · exact ((SameHeader.refl p).setIbMicFree _).setCbFree _
  · exact (SameHeader.refl p).setCbFree _

theorem replace_ready (hinv : LayoutInv p) (hk : k < p.itagMicFree)
    (rgdata : List Data) (fFlags : Nat) (hfree : cbDataTotal rgdata ≤ p.tagCb k + p.cbFree) :
    ∃ x, ReadyFor p k (cbDataTotal rgdata) x ∧
      replace env p k rgdata fFlags = some (finishReplace env x k rgdata fFlags
        ((p.tagCb k : Int) - cbDataTotal rgdata)) ∧
      (cbDataTotal rgdata ≤ p.tagCb k → x.tagIb k = p.tagIb k ∧
        AgreeOn p.buf x.buf (p.pbFromIb (p.tagIb k)) (p.tagCb k)) := by
  have hkOn := hinv.tagOnPage hk
  by_cases hstays : StaysInPlace p k (cbDataTotal rgdata)
  · have hfits := replaceWindow_fits hinv hk hstays
    have hacc := hinv.accounting
    have hused : p.tagCb k ≤ used (slots p) := cb_le_used (slot_mem hk)
    have hedited := (replaceInPlace_edited hinv hk hfree 0 0).tagSetCb hkOn (cbDataTotal rgdata)
      (hinv.normal.lt_two_pow (by omega))
    have hib := congrArg Slot.ib hedited.slotEq
    have hcb := congrArg Slot.cb hedited.slotEq
    simp only [slot] at hib hcb
    refine ⟨_, ⟨(sameHeader_replaceInPlace p k _).tagSetCb hkOn _, hedited.tagOnPage hkOn, hcb, ?_⟩,
      replace_inPlace_eq env hinv hk rgdata fFlags hfree hstays, fun hle => ⟨hib, ?_⟩⟩
    · intro hne
      rw [hib, hedited.shape.pbFromIb, hedited.shape.ptagFromItag]
      rw [replaceWindow, if_neg (by omega)] at hfits
      simp only [pbFromIb, ptagFromItag, cbTag]
      omega
    · -- the counters and the tag are elsewhere
      refine hedited.frame.agreeOn fun a hlo hhi => ?_
      have hge := cbPageHeader_ge p
      have hend := ownWindow_le_ptag hinv hk
      rw [ownWindow, if_neg (by omega)] at hend
      simp only [Footprint, pbFromIb] at *
      omega
  · obtain ⟨y, hmoved, hy, heq⟩ := replace_moved_eq env hinv hk rgdata fFlags hfree hstays
    have hyk : k < y.itagMicFree := by rwa [hmoved.only.itagMicFree]
    have hyOn := hmoved.only.inv.tagOnPage hyk
    have hedited := movedTag_edited hmoved hk hfree
    have hib := congrArg Slot.ib hedited.slotEq
    have hcb := congrArg Slot.cb hedited.slotEq
    have hroom := hmoved.room
    simp only [slot] at hib hcb
    have hgrows : ¬ cbDataTotal rgdata ≤ p.tagCb k := fun hle => hstays (Or.inl hle)
    have hvacated := sameHeader_vacateTag env hkOn
    have hheader : SameHeader p y := hvacated.trans (sameHeader_freeSpace
      (fun i hi => (vacateTag_spec env hinv hk).1.inv.tagOnPage hi) hy)
    have hplaced : SameHeader p (movedTag y k (cbDataTotal rgdata)) :=
      (((hheader.tagSetIb hkOn _).setIbMicFree _).setCbFree _).tagSetCb hkOn _
    refine ⟨_, ⟨hplaced, hedited.tagOnPage hyOn, hcb, fun _ => ?_⟩, heq,
      fun hle => absurd hle hgrows⟩
    rw [hib, hedited.shape.pbFromIb, hedited.shape.ptagFromItag]
    simp only [pbFromIb, ptagFromItag, cbTag]
    omega

/-- The bytes that the rest of `Replace_` may write. -/
def ReadyFor.window (p : Page) (k cb : Nat) (x : Page) : Nat × Nat :=
  if max (p.tagCb k) cb = 0 then (0, 0) else (x.tagIb k, x.tagIb k + max (p.tagCb k) cb)

theorem ReadyFor.window_le (h : ReadyFor p k cb x) :
    x.pbFromIb (window p k cb x).2 ≤ x.ptagFromItag k := by
  have hon := h.tagOnPage
  have hend := h.end_le
  rw [window]
  split
  · simp only [TagOnPage, pbFromIb, ptagFromItag, cbTag] at *
    omega
  case isFalse hne =>
    simp only [pbFromIb] at *
    omega

theorem ReadyFor.mem_window (hne : cb ≠ 0) :
    (window p k cb x).1 ≤ x.tagIb k ∧ x.tagIb k + cb ≤ (window p k cb x).2 := by
  rw [window, if_neg (by omega)]
  exact ⟨le_rfl, by simp only; omega⟩

theorem ReadyFor.finish (h : ReadyFor p k cb x) (fFlags : Nat) (hcb : cb = cbDataTotal rgdata) :
    slot (finishReplace env x k rgdata fFlags ((p.tagCb k : Int) - cb)) k = ⟨x.tagIb k, cb⟩ ∧
      line (finishReplace env x k rgdata fFlags ((p.tagCb k : Int) - cb)) k =
        line (copyData (x.tagSetFlags k fFlags) k rgdata) k ∧
      SameHeader p (finishReplace env x k rgdata fFlags ((p.tagCb k : Int) - cb)) := by
  have hpOn : TagOnPage p k := by
    have hon := h.tagOnPage
    simpa only [TagOnPage, h.header.shape.cbPageHeader, h.header.shape.cbBuffer] using hon
  have hwin := h.window_le
  have hslot : slot x k = ⟨x.tagIb k, cb⟩ := by
    rw [slot, h.cbEq]
  have hin : (⟨x.tagIb k, cb⟩ : Slot).cb ≠ 0 → (window p k cb x).1 ≤ x.tagIb k ∧
      x.tagIb k + cb ≤ (window p k cb x).2 := fun hne => mem_window hne
  have hstart := Edited.start x k (window p k cb x).1 (window p k cb x).2
  rw [hslot] at hstart
  have hwritten := (hstart.tagSetFlags h.tagOnPage hwin fFlags hin).copyData h.tagOnPage hwin
    rgdata hcb hin
  have hheader : SameHeader p (copyData (x.tagSetFlags k fFlags) k rgdata) :=
    (h.header.tagSetFlags hpOn fFlags).copyData hpOn rgdata
  rw [finishReplace]
  split
  case isFalse => exact ⟨hwritten.slotEq, rfl, hheader⟩
  case isTrue hscrub =>
    generalize copyData (x.tagSetFlags k fFlags) k rgdata = w at *
    have hib := congrArg Slot.ib hwritten.slotEq
    have hcb' := congrArg Slot.cb hwritten.slotEq
    simp only [slot] at hib hcb'
    have hfill : Frame (fun a => x.pbFromIb (x.tagIb k) + cb ≤ a ∧
        a < x.pbFromIb (window p k cb x).2) w.buf
        (fill w.buf (w.pbFromIb (w.tagIb k + w.tagCb k)) ((p.tagCb k : Int) - cb).toNat
          chPAGEReplaceFill) := by
      rw [hib, hcb', hwritten.shape.pbFromIb]
      refine frame_fill _ _ _ _ fun a hlo hhi => ?_
      rw [window, if_neg (by omega)]
      simp only [pbFromIb] at *
      omega
    have hlow : x.pbFromIb (window p k cb x).1 ≤ x.pbFromIb (x.tagIb k) + cb := by
      rw [window, if_neg (by omega)]
      simp only [Nat.le_add_right]
    have hscrubbed := hwritten.writeData hwin _
      (hfill.mono fun a ha => ⟨hlow.trans ha.1, ha.2⟩)
    refine ⟨hscrubbed.slotEq, ?_, hheader.trans (sameHeader_setBuf (hfill.mono fun a ha => ?_))⟩
    · refine line_eq_of_agreeOn (sameShape_setBuf _ _) ?_ ?_
      · refine hfill.agreeOn fun a hlo hhi ha => ?_
        rw [hwritten.shape.ptagFromItag] at hlo
        omega
      · refine hfill.agreeOn fun a hlo hhi ha => ?_
        rw [hib, hcb', hwritten.shape.pbFromIb] at hhi
        omega
    · have hpage := hwritten.shape.cbPageHeader
      simp only [pbFromIb] at ha
      omega

theorem replace_line (hinv : LayoutInv p) (hk : k < p.itagMicFree) (hpos : k ≠ 0)
    (pieces : List (List UInt8)) (hflags : fFlags < 8)
    (htwo : 2 ≤ pieces.flatten.length ∨ fFlags = 0)
    (hfree : pieces.flatten.length ≤ p.tagCb k + p.cbFree) :
    ∃ q, replace env p k (pieces.map Data.bytes) fFlags = some q ∧ OnlyLine p k q ∧
      SameHeader p q ∧ line q k = lineOf p.fSmallPageFormat fFlags pieces.flatten := by
  have htotal := cbDataTotal_bytes pieces
  rw [← htotal] at hfree htwo
  obtain ⟨x, hready, hq, -⟩ := replace_ready env hinv hk (pieces.map Data.bytes) fFlags hfree
  obtain ⟨q, hq', honly⟩ := replace_spec env hinv k hk (pieces.map Data.bytes) fFlags hfree
  obtain ⟨-, hline, hheader⟩ := hready.finish env fFlags rfl
  obtain rfl := Option.some.inj (hq'.symm.trans hq)
  refine ⟨_, hq, honly, hheader, ?_⟩
  have hcb := hready.cbEq
  rw [hline, ← hready.header.shape.fSmallPageFormat]
  refine line_written hpos hready.tagOnPage hflags hcb (by rwa [hcb]) (fun hne => ?_)
    (slice_copyPieces_bytes _ _ pieces (hcb.trans htotal))
  have hend := hready.end_le (by omega)
  omega

/-- Pieces from the page are taken from the line itself, behind the word that may hold flags. -/
def OwnPieces (p : Page) (k : Nat) (rgdata : List Data) : Prop :=
  ∀ pb cb, Data.onPage pb cb ∈ rgdata → cb ≠ 0 →
    p.pbFromIb (p.tagIb k) + 2 ≤ pb ∧ pb + cb ≤ p.pbFromIb (p.tagIb k) + p.tagCb k

theorem OwnPieces.pieceBytes_eq {m m' : Memory} (h : OwnPieces p k rgdata)
    (hsame : ∀ a, p.pbFromIb (p.tagIb k) + 2 ≤ a →
      a < p.pbFromIb (p.tagIb k) + p.tagCb k → m' a = m a) :
    rgdata.map (pieceBytes m') = rgdata.map (pieceBytes m) := by
  refine map_congr_left fun d hd => ?_
  cases d with
  | bytes bs => rfl
  | onPage pb cb =>
    refine AgreeOn.slice_eq fun a hlo hhi => ?_
    obtain ⟨hlow, hhigh⟩ := h pb cb hd (by omega)
    exact hsame a (by omega) (by omega)

theorem tagSetFlags_behind (x : Page) (k fFlags : Nat) {a : Nat}
    (hlo : x.pbFromIb (x.tagIb k) + 2 ≤ a) (hhi : a < x.ptagFromItag k) :
    (x.tagSetFlags k fFlags).buf a = x.buf a := by
  rw [tagSetFlags]
  split
  · exact setWord_agreeOn _ _ _ a 1 (by omega) a (le_rfl) (by omega)
  · split
    · exact setWord_agreeOn _ _ _ a 1 (by omega) a (le_rfl) (by omega)
    · rfl

theorem replace_line_own (hinv : LayoutInv p) (hk : k < p.itagMicFree) (hpos : k ≠ 0)
    (hflags : fFlags < 8)
    (htwo : 2 ≤ cbDataTotal rgdata ∨ fFlags = 0) (hle : cbDataTotal rgdata ≤ p.tagCb k)
    (hown : OwnPieces p k rgdata) (hahead : Ahead (p.pbFromIb (p.tagIb k)) rgdata) :
    ∃ q, replace env p k rgdata fFlags = some q ∧ OnlyLine p k q ∧ SameHeader p q ∧
      line q k = lineOf p.fSmallPageFormat fFlags (rgdata.map (pieceBytes p.buf)).flatten := by
  have hfree : cbDataTotal rgdata ≤ p.tagCb k + p.cbFree := Nat.le_add_right_of_le hle
  obtain ⟨x, hready, hq, hstays⟩ := replace_ready env hinv hk rgdata fFlags hfree
  obtain ⟨q, hq', honly⟩ := replace_spec env hinv k hk rgdata fFlags hfree
  obtain ⟨-, hline, hheader⟩ := hready.finish env fFlags rfl
  obtain ⟨hib, hkept⟩ := hstays hle
  obtain rfl := Option.some.inj (hq'.symm.trans hq)
  refine ⟨_, hq, honly, hheader, ?_⟩
  have hcb := hready.cbEq
  have hpb : x.pbFromIb (x.tagIb k) = p.pbFromIb (p.tagIb k) := by
    rw [hib, hready.header.shape.pbFromIb]
  have hsame : ∀ a, p.pbFromIb (p.tagIb k) + 2 ≤ a →
      a < p.pbFromIb (p.tagIb k) + p.tagCb k → (x.tagSetFlags k fFlags).buf a = p.buf a := by
    intro a hlo hhi
    have hend := hready.end_le (by omega)
    rw [tagSetFlags_behind x k fFlags (by omega) (by omega)]
    exact hkept a (by omega) hhi
  rw [hline, ← hready.header.shape.fSmallPageFormat, ← hown.pieceBytes_eq hsame]
  refine line_written hpos hready.tagOnPage hflags hcb (by rwa [hcb]) (fun hne => ?_) ?_
  · have hend := hready.end_le (by omega)
    omega
  · rw [hpb, hcb, slice_copyPieces _ hahead]

end Replacement

end EseLinux.PageLine
