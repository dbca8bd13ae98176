import EseLinux.PageInsert

/-!
The functions of `CPAGE` that change lines leave the page header alone, but for the two free
counts, `ibMicFree` and `itagState`.
-/

namespace EseLinux.PageHeader

open ByteMemory PageFormat PageEdit PageInsert PageLayout PageReorganize PageTags SlotLayout

/-- The two pages agree on all header bytes outside the counts at 28 to 35. -/
structure SameHeader (p q : Page) : Prop where
  shape : SameShape p q
  ctagReserved : q.ctagReserved = p.ctagReserved
  frame : Frame (fun a => (28 ≤ a ∧ a < 36) ∨ p.cbPageHeader ≤ a) p.buf q.buf

section Rules

variable {p q r x : Page} {k : Nat}

theorem SameHeader.refl (p : Page) : SameHeader p p := ⟨SameShape.refl p, rfl, Frame.refl _ _⟩

theorem SameHeader.trans (h : SameHeader p q) (h' : SameHeader q r) : SameHeader p r := by
  refine ⟨h.shape.trans h'.shape, h'.ctagReserved.trans h.ctagReserved, h.frame.trans ?_⟩
  have hframe := h'.frame
  rwa [h.shape.cbPageHeader] at hframe

theorem sameHeader_setBuf {m : Memory}
    (hframe : Frame (fun a => (28 ≤ a ∧ a < 36) ∨ p.cbPageHeader ≤ a) p.buf m) :
    SameHeader p (p.setBuf m) :=
  ⟨sameShape_setBuf p m, rfl, hframe⟩

theorem sameHeader_setWord {a w : Nat} (ha : (28 ≤ a ∧ a < 35) ∨ p.cbPageHeader ≤ a) :
    SameHeader p (p.setBuf (setWord p.buf a w)) :=
  sameHeader_setBuf (frame_setWord _ _ _ fun i hlo hhi => by omega)

theorem SameShape.tagOnPage (h : SameShape p q) (hk : TagOnPage p k) : TagOnPage q k := by
  simpa only [TagOnPage, h.cbBuffer, h.cbPageHeader] using hk

namespace SameHeader

variable (h : SameHeader p q)
include h

theorem tagOnPage (hk : TagOnPage p k) : TagOnPage q k := SameShape.tagOnPage h.shape hk

theorem setCbFree (v : Nat) : SameHeader p (q.setCbFree v) :=
  h.trans (sameHeader_setWord (by omega))

theorem setIbMicFree (v : Nat) : SameHeader p (q.setIbMicFree v) :=
  h.trans (sameHeader_setWord (by omega))

theorem tagSetCb (hk : TagOnPage p k) (v : Nat) : SameHeader p (q.tagSetCb k v) :=
  h.trans (sameHeader_setWord (Or.inr (cbPageHeader_le_ptagFromItag (h.tagOnPage hk))))

theorem tagSetIb (hk : TagOnPage p k) (v : Nat) : SameHeader p (q.tagSetIb k v) := by
  have hle := cbPageHeader_le_ptagFromItag (h.tagOnPage hk)
  exact h.trans (sameHeader_setWord (Or.inr (Nat.le_add_right_of_le hle)))

theorem tagSetFlags (hk : TagOnPage p k) (fFlags : Nat) :
    SameHeader p (q.tagSetFlags k fFlags) := by
  have hle := cbPageHeader_le_ptagFromItag (h.tagOnPage hk)
  refine h.trans ⟨sameShape_tagSetFlags q k fFlags, tagSetFlags_ctagReserved q k fFlags,
    (tagSetFlags_frame q k fFlags).mono fun a ha => ?_⟩
  simp only [Page.pbFromIb] at ha
  omega

theorem fFlags : q.fFlags = p.fFlags := by
  have hge := cbPageHeader_ge p
  have hagree : AgreeOn p.buf q.buf 36 4 := h.frame.agreeOn fun i hlo hhi hi => by omega
  rw [Page.fFlags, Page.fFlags, dword, dword, hagree.words_eq.1, hagree.words_eq.2]

theorem fRootPage : q.fRootPage = p.fRootPage := by
  rw [Page.fRootPage, Page.fRootPage, Page.fFlag, Page.fFlag, h.fFlags]

theorem fSpaceTree : q.fSpaceTree = p.fSpaceTree := by
  rw [Page.fSpaceTree, Page.fSpaceTree, Page.fFlag, Page.fFlag, h.fFlags]

end SameHeader

theorem moveLinesDown_header (tags : List Nat) {d pb d' : Nat}
    (hon : ∀ i ∈ tags, TagOnPage p i) (hpb : p.cbPageHeader ≤ pb)
    (h : moveLinesDown p d pb tags = some (q, d')) :
    SameShape p q ∧ q.ctagReserved = p.ctagReserved ∧ Frame (p.cbPageHeader ≤ ·) p.buf q.buf := by
  induction tags generalizing p d pb with
  | nil =>
    obtain ⟨rfl, -⟩ := Prod.mk.inj (Option.some.inj h)
    exact ⟨SameShape.refl _, rfl, Frame.refl _ _⟩
  | cons i tags ih =>
    simp only [moveLinesDown, Option.ite_none_left_eq_some] at h
    have hle := cbPageHeader_le_ptagFromItag (hon i List.mem_cons_self)
    have hshape := sameShape_moveLineDown p i d pb
    have hline : Frame (p.cbPageHeader ≤ ·) p.buf (moveLineDown p i d pb).buf :=
      (moveLineDown_frame p i d pb).mono fun a ha => by omega
    have hres : (moveLineDown p i d pb).ctagReserved = p.ctagReserved := by
      rw [moveLineDown_eq]
      rfl
    obtain ⟨hshape', hres', hframe⟩ := ih
      (fun j hj => SameShape.tagOnPage hshape (hon j (List.mem_cons_of_mem _ hj)))
      (by rw [hshape.cbPageHeader]; exact Nat.le_add_right_of_le hpb) h.2
    rw [hshape.cbPageHeader] at hframe
    exact ⟨hshape.trans hshape', hres'.trans hres, hline.trans hframe⟩

variable {env : Env}

section OnPage

variable (hon : ∀ i < p.itagMicFree, TagOnPage p i)
include hon

theorem reorganizeData_header (h : reorganizeData env p = some q) :
    SameShape p q ∧ q.ctagReserved = p.ctagReserved ∧
      Frame (fun a => (32 ≤ a ∧ a < 34) ∨ p.cbPageHeader ≤ a) p.buf q.buf := by
  simp only [reorganizeData, Option.bind_eq_bind, Option.bind_eq_some_iff] at h
  obtain ⟨⟨x, d⟩, hmoved, hdone⟩ := h
  have hperm := env.sort.run_perm p.tagIb (List.range p.itagMicFree)
  obtain ⟨hshape, hres, hlines⟩ := moveLinesDown_header _
    (fun i hi => hon i (List.mem_range.mp (hperm.mem_iff.mp hi))) (Nat.le_add_right _ _) hmoved
  have hmic : Frame (fun a => (32 ≤ a ∧ a < 34) ∨ p.cbPageHeader ≤ a) p.buf
      (x.setIbMicFree d).buf :=
    (hlines.mono fun _ => Or.inr).trans
      (frame_setWord _ 32 _ fun a hlo hhi => Or.inl ⟨hlo, hhi⟩)
  have hshape' : SameShape p (x.setIbMicFree d) := hshape.trans ⟨rfl, rfl⟩
  split at hdone
  · obtain rfl := Option.some.inj hdone
    refine ⟨hshape'.trans ⟨rfl, rfl⟩, hres,
      hmic.trans (frame_fill _ _ _ _ fun a hlo _ => Or.inr ?_)⟩
    rw [← hshape.cbPageHeader]
    exact Nat.le_of_add_right_le hlo
  · obtain rfl := Option.some.inj hdone
    exact ⟨hshape', hres, hmic⟩

theorem sameHeader_reorganizeData (h : reorganizeData env p = some q) : SameHeader p q := by
  obtain ⟨hshape, hres, hframe⟩ := reorganizeData_header hon h
  exact ⟨hshape, hres, hframe.mono fun a ha => by omega⟩

theorem sameHeader_freeSpace {cb : Nat} (h : freeSpace env p cb = some q) : SameHeader p q := by
  have hcases := freeSpace_cases h
  split at hcases
  · exact sameHeader_reorganizeData hon hcases
  · exact hcases ▸ SameHeader.refl p

end OnPage

theorem sameHeader_expandTagArray (env : Env) (hon : TagOnPage p p.itagMicFree)
    (hres : p.ctagReserved < 65536) : SameHeader p (expandTagArray env p k) := by
  have hle := cbPageHeader_le_ptagFromItag hon
  rw [expandTagArray_eq]
  refine ⟨⟨rfl, rfl⟩, Nat.mod_eq_of_lt hres, ?_⟩
  have hmoved : Frame (fun a => (28 ≤ a ∧ a < 36) ∨ p.cbPageHeader ≤ a) p.buf (shifted p k).buf :=
    frame_move _ _ _ _ fun a hlo _ => Or.inr (by omega)
  exact hmoved.trans (frame_setWord _ _ _ fun a hlo hhi => Or.inl (by omega))

theorem SameHeader.placeTag (h : SameHeader p q) (hk : TagOnPage p k) (cb : Nat) :
    SameHeader p (placeTag q k cb) :=
  ((((((h.tagSetCb hk 0).tagSetIb hk 0).tagSetFlags hk 0).tagSetIb hk _).setIbMicFree _).tagSetCb
    hk _).setCbFree _

theorem SameHeader.copyData (h : SameHeader p q) (hk : TagOnPage p k) (rgdata : List Data) :
    SameHeader p (copyData q k rgdata) := by
  have hcopied : SameHeader p
      (q.setBuf (copyPieces q.buf (q.pbFromIb (q.tagIb k)) rgdata)) := by
    refine h.trans (sameHeader_setBuf ((PageWrite.copyPieces_frame _ _ _).mono fun a ha => ?_))
    exact Or.inr (Nat.le_of_add_right_le ha.1)
  rw [PageEdit.copyData]
  split
  · exact hcopied.tagSetFlags hk _
  · exact hcopied

end Rules

end EseLinux.PageHeader
