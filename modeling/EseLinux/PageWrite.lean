import EseLinux.PageEdit
import EseLinux.PageLayout

/-!
Symbolic execution of the writes that edit one tag.  Each rule says what one write does to the
tag's slot and to the two space counters, and that it stays inside the edit's footprint: the
counters, the tag itself and a window of the data area.
-/

namespace EseLinux.PageWrite

open ByteMemory PageEdit PageFormat PageLayout PageTags SlotLayout

/-- The bytes an edit of tag `k` with data window `[lo, hi)` may change. -/
def Footprint (p : Page) (k lo hi a : Nat) : Prop :=
  (28 ≤ a ∧ a < 34) ∨ (p.ptagFromItag k ≤ a ∧ a < p.ptagFromItag k + 4) ∨
    (p.pbFromIb lo ≤ a ∧ a < p.pbFromIb hi)

/-- Page `x` comes from `p` by writes inside the footprint; tag `k` now has slot `s`. -/
structure Edited (p : Page) (k lo hi : Nat) (x : Page) (s : Slot) (mic free : Nat) : Prop where
  shape : SameShape p x
  itagMicFree : x.itagMicFree = p.itagMicFree
  ctagReserved : x.ctagReserved = p.ctagReserved
  frame : Frame (Footprint p k lo hi) p.buf x.buf
  slotEq : slot x k = s
  ibMicFree : x.ibMicFree = mic
  cbFree : x.cbFree = free

section Rules

variable {p x : Page} {k lo hi mic free : Nat} {s : Slot}

theorem Edited.start (p : Page) (k lo hi : Nat) :
    Edited p k lo hi p (slot p k) p.ibMicFree p.cbFree :=
  ⟨SameShape.refl p, rfl, rfl, Frame.refl _ _, rfl, rfl, rfl⟩

namespace Edited

variable (h : Edited p k lo hi x s mic free)
include h

theorem tagOnPage (hk : TagOnPage p k) : TagOnPage x k := by
  simpa only [TagOnPage, h.shape.cbPageHeader, h.shape.cbBuffer] using hk

theorem cbit_eq : cbitTagIbCb x = cbitTagIbCb p := by
  simp only [cbitTagIbCb, h.shape.fSmallPageFormat]

theorem write (m : Memory) (hframe : Frame (Footprint p k lo hi) x.buf m)
    (hheader : Frame (fun a => 40 ≤ a) x.buf m) (s' : Slot)
    (hslot : slot (x.setBuf m) k = s') : Edited p k lo hi (x.setBuf m) s' mic free where
  shape := h.shape.trans (sameShape_setBuf x m)
  itagMicFree := h.itagMicFree
  ctagReserved := h.ctagReserved
  frame := h.frame.trans hframe
  slotEq := hslot
  ibMicFree := (hheader.agreeOn fun a _ hhi ha => by omega).word_eq.trans h.ibMicFree
  cbFree := (hheader.agreeOn fun a _ hhi ha => by omega).word_eq.trans h.cbFree

theorem setCbFree (hk : TagOnPage p k) (v : Nat) :
    Edited p k lo hi (x.setCbFree v) s mic (v % 65536) where
  shape := h.shape.trans (sameShape_setBuf x _)
  itagMicFree := h.itagMicFree
  ctagReserved := h.ctagReserved
  frame := h.frame.trans (frame_setWord _ _ _ fun a hlo hhi => Or.inl ⟨hlo, by omega⟩)
  slotEq := (slot_setHeader 28 v (by omega) (h.tagOnPage hk)).trans h.slotEq
  ibMicFree := (word_setWord_of_disjoint _ _ _ _ (by omega)).trans h.ibMicFree
  cbFree := word_setWord _ _ _

theorem setIbMicFree (hk : TagOnPage p k) (v : Nat) :
    Edited p k lo hi (x.setIbMicFree v) s (v % 65536) free where
  shape := h.shape.trans (sameShape_setBuf x _)
  itagMicFree := h.itagMicFree
  ctagReserved := h.ctagReserved
  frame := h.frame.trans
    (frame_setWord _ _ _ fun a hlo hhi => Or.inl ⟨by omega, by omega⟩)
  slotEq := (slot_setHeader 32 v (by omega) (h.tagOnPage hk)).trans h.slotEq
  ibMicFree := word_setWord _ _ _
  cbFree := (word_setWord_of_disjoint _ _ _ _ (by omega)).trans h.cbFree

theorem frame_tag (hk : TagOnPage p k) {m : Memory}
    (hframe : Frame (fun a => x.ptagFromItag k ≤ a ∧ a < x.ptagFromItag k + 4) x.buf m) :
    Frame (Footprint p k lo hi) x.buf m ∧ Frame (fun a => 40 ≤ a) x.buf m := by
  rw [h.shape.ptagFromItag] at hframe
  have hge := cbPageHeader_ge p
  have hle := cbPageHeader_le_ptagFromItag hk
  exact ⟨hframe.mono fun a ha => Or.inr (Or.inl ha), hframe.mono fun a ha => by omega⟩

theorem tagSetCb (hk : TagOnPage p k) (v : Nat)
    (hv : v < 2 ^ cbitTagIbCb p) : Edited p k lo hi (x.tagSetCb k v) ⟨s.ib, v⟩ mic free := by
  have hframe := h.frame_tag hk ((tagSetCb_frame x k v).mono fun a ha => ⟨ha.1, by omega⟩)
  refine h.write _ hframe.1 hframe.2 _ ?_
  refine (slot_tagSetCb v (by rwa [h.cbit_eq])).trans ?_
  rw [← h.slotEq]
  rfl

theorem tagSetIb (hk : TagOnPage p k) (v : Nat)
    (hv : v < 2 ^ cbitTagIbCb p) : Edited p k lo hi (x.tagSetIb k v) ⟨v, s.cb⟩ mic free := by
  have hframe := h.frame_tag hk ((tagSetIb_frame x k v).mono fun a ha => ⟨by omega, ha.2⟩)
  refine h.write _ hframe.1 hframe.2 _ ?_
  refine (slot_tagSetIb v (by rwa [h.cbit_eq])).trans ?_
  rw [← h.slotEq]
  rfl

theorem writeData (hwin : p.pbFromIb hi ≤ p.ptagFromItag k) (m : Memory)
    (hframe : Frame (fun a => p.pbFromIb lo ≤ a ∧ a < p.pbFromIb hi) x.buf m) :
    Edited p k lo hi (x.setBuf m) s mic free := by
  have hge := cbPageHeader_ge p
  refine h.write m (hframe.mono fun a ha => Or.inr (Or.inr ha)) (hframe.mono fun a ha => ?_) s ?_
  · simp only [Page.pbFromIb] at ha
    omega
  · refine (slot_eq_of_agreeOn (sameShape_setBuf x m) ?_).trans h.slotEq
    rw [h.shape.ptagFromItag]
    exact hframe.agreeOn fun a hlo _ ha => by omega

theorem tagSetFlags (hk : TagOnPage p k)
    (hwin : p.pbFromIb hi ≤ p.ptagFromItag k) (fFlags : Nat)
    (hin : s.cb ≠ 0 → lo ≤ s.ib ∧ s.ib + s.cb ≤ hi) :
    Edited p k lo hi (x.tagSetFlags k fFlags) s mic free := by
  have hib : x.tagIb k = s.ib := congrArg Slot.ib h.slotEq
  have hcb : x.tagCb k = s.cb := congrArg Slot.cb h.slotEq
  have hslot : slot (x.tagSetFlags k fFlags) k = s := by
    refine (slot_tagSetFlags fFlags (h.tagOnPage hk) (h.tagOnPage hk) ?_).trans h.slotEq
    intro hne
    rw [hib, hcb, h.shape.pbFromIb, h.shape.ptagFromItag]
    simp only [Page.pbFromIb] at *
    omega
  have hframe := tagSetFlags_frame x k fFlags
  rw [hib, hcb, h.shape.pbFromIb, h.shape.ptagFromItag] at hframe
  have hbuf : x.tagSetFlags k fFlags = x.setBuf (x.tagSetFlags k fFlags).buf := by
    simp only [Page.tagSetFlags]
    split
    · rfl
    · split <;> rfl
  rw [hbuf] at hslot ⊢
  have hge := cbPageHeader_ge p
  have hle := cbPageHeader_le_ptagFromItag hk
  refine h.write _ (hframe.mono fun a ha => ?_) (hframe.mono fun a ha => ?_) s hslot
  · rcases ha with ha | ha
    · exact Or.inr (Or.inl ⟨by omega, ha.2⟩)
    · refine Or.inr (Or.inr ?_)
      simp only [Page.pbFromIb] at *
      omega
  · simp only [Page.pbFromIb] at ha
    omega

end Edited

theorem cbDataTotal_cons (d : Data) (rgdata : List Data) :
    cbDataTotal (d :: rgdata) = d.cb + cbDataTotal rgdata := by
  simp [cbDataTotal]

theorem copyPieces_frame (m : Memory) (pb : Nat) (rgdata : List Data) :
    Frame (fun a => pb ≤ a ∧ a < pb + cbDataTotal rgdata) m (copyPieces m pb rgdata) := by
  induction rgdata generalizing m pb with
  | nil => exact Frame.refl _ _
  | cons d rgdata ih =>
    have htotal := cbDataTotal_cons d rgdata
    have hhead : Frame (fun a => pb ≤ a ∧ a < pb + cbDataTotal (d :: rgdata)) m
        (d.copyTo m pb) := by
      rw [htotal]
      cases d with
      | bytes bs =>
        refine frame_store _ _ _ fun a hlo hhi => ⟨hlo, ?_⟩
        simp only [Data.cb]
        omega
      | onPage ib cb =>
        refine frame_move _ _ _ _ fun a hlo hhi => ⟨hlo, ?_⟩
        simp only [Data.cb]
        omega
    refine hhead.trans ((ih _ _).mono fun a ha => ?_)
    omega

theorem Edited.copyData (h : Edited p k lo hi x s mic free) (hk : TagOnPage p k)
    (hwin : p.pbFromIb hi ≤ p.ptagFromItag k) (rgdata : List Data)
    (hcb : s.cb = cbDataTotal rgdata) (hin : s.cb ≠ 0 → lo ≤ s.ib ∧ s.ib + s.cb ≤ hi) :
    Edited p k lo hi (PageEdit.copyData x k rgdata) s mic free := by
  have hib : x.tagIb k = s.ib := congrArg Slot.ib h.slotEq
  have hcopied : Edited p k lo hi
      (x.setBuf (copyPieces x.buf (x.pbFromIb (x.tagIb k)) rgdata)) s mic free := by
    refine h.writeData hwin _ ((copyPieces_frame _ _ _).mono fun a ha => ?_)
    rw [hib, h.shape.pbFromIb, ← hcb] at ha
    simp only [Page.pbFromIb] at *
    omega
  simp only [PageEdit.copyData]
  split
  · exact hcopied.tagSetFlags hk hwin _ hin
  · exact hcopied

end Rules

section Others

variable {p x : Page} {k lo hi mic free : Nat} {s : Slot} {j : Nat}

section

variable (h : Edited p k lo hi x s mic free) (hk : TagOnPage p k) (hj : TagOnPage p j) (hne : j ≠ k)
  (hwin : p.pbFromIb hi ≤ p.ptagFromItag j)
include h hk hj hne hwin

theorem Edited.tag_agreeOn : AgreeOn p.buf x.buf (p.ptagFromItag j) 4 := by
  have hge := cbPageHeader_ge p
  have hle := cbPageHeader_le_ptagFromItag hj
  have hdisj := ptagFromItag_disjoint hj hk hne
  refine h.frame.agreeOn fun a hlo hhi ha => ?_
  simp only [Footprint] at ha
  omega

theorem Edited.slot_of_ne : slot x j = slot p j :=
  slot_eq_of_agreeOn h.shape (h.tag_agreeOn hk hj hne hwin)

theorem Edited.line_of_ne
    (hend : p.tagCb j ≠ 0 → p.pbFromIb (p.tagIb j) + p.tagCb j ≤ p.ptagFromItag k)
    (hout : p.tagCb j ≠ 0 → p.tagIb j + p.tagCb j ≤ lo ∨ hi ≤ p.tagIb j) : line x j = line p j := by
  have hge := cbPageHeader_ge p
  refine line_eq_of_agreeOn h.shape (h.tag_agreeOn hk hj hne hwin) ?_
  refine h.frame.agreeOn fun a hlo hhi ha => ?_
  simp only [Footprint, Page.pbFromIb] at *
  omega

end

end Others

end EseLinux.PageWrite
