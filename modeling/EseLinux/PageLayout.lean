import EseLinux.PageTags

/-!
The layout of a page as a slotted area, its invariant, and the header fields as part of it.
-/

namespace EseLinux.PageLayout

open ByteMemory PageFormat PageTags SlotLayout List

def slots (p : Page) : List Slot :=
  (range p.itagMicFree).map (slot p)

def layout (p : Page) : Layout :=
  ⟨slots p, p.ibMicFree, p.cbFree⟩

/-- The layout invariant of a full-sized page: every line lies below `ibMicFree`, no two
lines share a byte, data and tag array fit in the buffer, and `cbFree` accounts for the rest. -/
structure LayoutInv (p : Page) : Prop where
  normal : NormalSized p
  valid : Layout.Valid cbTag p.cbBufferData (layout p)

@[simp] theorem slots_length (p : Page) : (slots p).length = p.itagMicFree := by
  simp [slots]

@[simp] theorem slots_getElem (p : Page) (i : Nat) (hi : i < (slots p).length) :
    (slots p)[i] = slot p i := by
  simp [slots]

section Facts

variable {p : Page} {i j : Nat}

theorem LayoutInv.fits (h : LayoutInv p) :
    p.cbPageHeader + p.ibMicFree + 4 * p.itagMicFree ≤ p.cbBuffer := by
  have hfits := h.valid.fits
  have hhdr := h.normal.cbPageHeader_le
  simp only [layout, slots_length, cbTag, Page.cbBufferData] at hfits
  omega

theorem LayoutInv.accounting (h : LayoutInv p) :
    p.cbPageHeader + p.cbFree + 4 * p.itagMicFree + used (slots p) = p.cbBuffer := by
  have hacc := h.valid.accounting
  have hhdr := h.normal.cbPageHeader_le
  simp only [layout, slots_length, cbTag, Page.cbBufferData] at hacc
  omega

theorem LayoutInv.tagOnPage (h : LayoutInv p) (hi : i < p.itagMicFree) : TagOnPage p i := by
  have hfits := h.fits
  simp only [TagOnPage, cbTag]
  omega

theorem slot_mem (hi : i < p.itagMicFree) : slot p i ∈ slots p :=
  mem_map.mpr ⟨i, mem_range.mpr hi, rfl⟩

theorem LayoutInv.below (h : LayoutInv p) (hi : i < p.itagMicFree) :
    p.tagCb i ≠ 0 → p.tagIb i + p.tagCb i ≤ p.ibMicFree :=
  h.valid.below (slot p i) (slot_mem hi)

theorem LayoutInv.apart (h : LayoutInv p) (hi : i < p.itagMicFree) (hj : j < p.itagMicFree)
    (hne : i ≠ j) : Slot.Apart (slot p i) (slot p j) := by
  have happ : (slots p).Pairwise Slot.Apart := h.valid.apart
  have hget := pairwise_iff_getElem.mp happ
  have hi' : i < (slots p).length := by rwa [slots_length]
  have hj' : j < (slots p).length := by rwa [slots_length]
  rcases Nat.lt_or_gt_of_ne hne with hlt | hgt
  · simpa only [slots_getElem] using hget i j hi' hj' hlt
  · simpa only [slots_getElem] using (hget j i hj' hi' hgt).symm

theorem LayoutInv.data_le_ptag (h : LayoutInv p) (hi : i < p.itagMicFree)
    (hj : j < p.itagMicFree) (hcb : p.tagCb i ≠ 0) :
    p.pbFromIb (p.tagIb i) + p.tagCb i ≤ p.ptagFromItag j := by
  have hbelow := h.below hi hcb
  have hfits := h.fits
  simp only [Page.pbFromIb, Page.ptagFromItag, cbTag]
  omega

theorem pbFromIb_le_ptag {ib : Nat} (hfits : p.cbPageHeader + ib + 4 * p.itagMicFree ≤ p.cbBuffer)
    (hi : i < p.itagMicFree) : p.pbFromIb ib ≤ p.ptagFromItag i := by
  simp only [Page.pbFromIb, Page.ptagFromItag, cbTag]
  omega

theorem LayoutInv.contiguous (h : LayoutInv p) :
    p.cbContiguousFree =
      (p.cbBuffer : Int) - (p.cbPageHeader + p.ibMicFree + 4 * p.itagMicFree) := by
  have hfits := h.fits
  have heq := h.normal.cbBuffer_eq
  simp only [Page.cbContiguousFree, Page.cbContiguousBufferFree, Page.cbBufferData,
    Page.cbTagArray, Page.cbAdjustForPage, cbTag]
  omega

end Facts

section Unused

variable {p p' : Page} {i : Nat}

/-- The bytes from `ibMicFree` up to the tag array. -/
def Unused (p : Page) (a : Nat) : Prop :=
  p.pbFromIb p.ibMicFree ≤ a ∧ a + 4 * p.itagMicFree < p.cbBuffer

theorem LayoutInv.agreeOn_of_unused (h : LayoutInv p) (p' : Page)
    (hframe : Frame (Unused p) p.buf p'.buf) :
    AgreeOn p.buf p'.buf 0 p.cbPageHeader ∧
      (∀ i, i < p.itagMicFree → AgreeOn p.buf p'.buf (p.ptagFromItag i) 4) ∧
      ∀ i, i < p.itagMicFree → AgreeOn p.buf p'.buf (p.pbFromIb (p.tagIb i)) (p.tagCb i) := by
  refine ⟨?_, ?_, ?_⟩
  · refine hframe.agreeOn fun a _ hhi ha => ?_
    simp only [Unused, Page.pbFromIb] at ha
    omega
  · intro i hi
    refine hframe.agreeOn fun a hlo _ ha => ?_
    simp only [Unused, Page.ptagFromItag, cbTag] at ha hlo
    omega
  · intro i hi
    refine hframe.agreeOn fun a hlo hhi ha => ?_
    have hbelow := h.below hi (by omega)
    simp only [Unused, Page.pbFromIb] at ha hlo hhi
    omega

theorem setHeader_keeps (hshape : SameShape p p') (a w : Nat) (ha : a + 2 ≤ 40)
    (hbuf : p'.buf = setWord p.buf a w) (hi : TagOnPage p i) :
    slot p' i = slot p i ∧ line p' i = line p i := by
  have hge := cbPageHeader_ge p
  have hle := cbPageHeader_le_ptagFromItag hi
  have htag : AgreeOn p.buf p'.buf (p.ptagFromItag i) 4 := by
    rw [hbuf]
    exact setWord_agreeOn _ _ _ _ _ (by omega)
  refine ⟨slot_eq_of_agreeOn hshape htag, line_eq_of_agreeOn hshape htag ?_⟩
  rw [hbuf]
  refine setWord_agreeOn _ _ _ _ _ (Or.inr ?_)
  simp only [Page.pbFromIb]
  omega

theorem slot_setHeader (a w : Nat) (ha : a + 2 ≤ 40) (hi : TagOnPage p i) :
    slot (p.setBuf (setWord p.buf a w)) i = slot p i :=
  (setHeader_keeps (sameShape_setBuf p _) a w ha rfl hi).1

theorem line_setHeader (a w : Nat) (ha : a + 2 ≤ 40) (hi : TagOnPage p i) :
    line (p.setBuf (setWord p.buf a w)) i = line p i :=
  (setHeader_keeps (sameShape_setBuf p _) a w ha rfl hi).2

theorem slots_pairwise (h : ∀ i j, i < p.itagMicFree → j < p.itagMicFree → i ≠ j →
    (slot p i).Apart (slot p j)) : (slots p).Pairwise Slot.Apart := by
  rw [pairwise_iff_getElem]
  intro i j hi hj hlt
  rw [slots_getElem, slots_getElem]
  exact h i j (by simpa using hi) (by simpa using hj) (ne_of_lt hlt)

theorem used_slots_congr (hn : p'.itagMicFree = p.itagMicFree)
    (hcb : ∀ i, i < p.itagMicFree → p'.tagCb i = p.tagCb i) :
    used (slots p') = used (slots p) := by
  simp only [used, slots, map_map, hn]
  refine congrArg sum (map_congr_left fun i hi => ?_)
  exact hcb i (mem_range.mp hi)

theorem slots_congr (p p' : Page) (hn : p'.itagMicFree = p.itagMicFree)
    (hslot : ∀ i, i < p.itagMicFree → slot p' i = slot p i) : slots p' = slots p := by
  simp only [slots, hn]
  exact map_congr_left fun i hi => hslot i (mem_range.mp hi)

end Unused

section Directory

variable {p : Page} {k : Nat}

theorem slots_at (hk : k < p.itagMicFree) :
    ∃ hlen : k < (slots p).length, (slots p)[k] = slot p k :=
  ⟨by rwa [slots_length], slots_getElem ..⟩

section

variable (hinv : LayoutInv p)
include hinv

theorem LayoutInv.valid_resize (hk : k < p.itagMicFree) (cb : Nat)
    (hfree : cb ≤ p.tagCb k + p.cbFree)
    (hgrow : p.tagCb k < cb → p.tagIb k + p.tagCb k = p.ibMicFree ∧
      p.cbPageHeader + p.tagIb k + cb + 4 * p.itagMicFree ≤ p.cbBuffer) :
    Layout.Valid cbTag p.cbBufferData ⟨(slots p).set k ⟨p.tagIb k, cb⟩,
      if p.tagIb k + p.tagCb k = p.ibMicFree then p.tagIb k + cb else p.ibMicFree,
      p.cbFree + p.tagCb k - cb⟩ := by
  obtain ⟨hlen, hget⟩ := slots_at hk
  have h := Layout.Valid.resize cb hinv.valid hlen
  simp only [hget, slot, slots_length] at h
  refine h hfree fun hlt => ?_
  obtain ⟨hlast, hroom⟩ := hgrow hlt
  refine ⟨hlast, ?_⟩
  simp only [cbTag, Page.cbBufferData]
  omega

theorem LayoutInv.valid_clear (hk : k < p.itagMicFree) (ib : Nat) :
    Layout.Valid cbTag p.cbBufferData
      ⟨(slots p).set k ⟨ib, 0⟩, p.ibMicFree, p.cbFree + p.tagCb k⟩ := by
  obtain ⟨hlen, hget⟩ := slots_at hk
  have h := Layout.Valid.clear ib hinv.valid hlen
  simpa only [hget, slot] using h

theorem LayoutInv.valid_place (hk : k < p.itagMicFree) (cb : Nat)
    (hempty : p.tagCb k = 0) (hfree : cb ≤ p.cbFree)
    (hroom : p.cbPageHeader + p.ibMicFree + cb + 4 * p.itagMicFree ≤ p.cbBuffer) :
    Layout.Valid cbTag p.cbBufferData
      ⟨(slots p).set k ⟨p.ibMicFree, cb⟩, p.ibMicFree + cb, p.cbFree - cb⟩ := by
  obtain ⟨hlen, hget⟩ := slots_at hk
  refine Layout.Valid.place cb hinv.valid hlen ?_ hfree ?_
  · rw [hget]
    exact hempty
  · simp only [slots_length, cbTag, Page.cbBufferData]
    omega

theorem LayoutInv.valid_insertIdx (hk : k ≤ p.itagMicFree) (cb : Nat) (hfree : cb + 4 ≤ p.cbFree)
    (hroom : p.cbPageHeader + p.ibMicFree + cb + 4 * (p.itagMicFree + 1) ≤ p.cbBuffer) :
    Layout.Valid cbTag p.cbBufferData
      ⟨(slots p).insertIdx k ⟨p.ibMicFree, cb⟩, p.ibMicFree + cb, p.cbFree - (cb + cbTag)⟩ := by
  refine (hinv.valid.cons_top cb hfree ?_).perm
    (perm_insertIdx _ _ (by rwa [slots_length])).symm
  simp only [slots_length, cbTag, Page.cbBufferData]
  omega

theorem LayoutInv.valid_eraseIdx (hk : k < p.itagMicFree) :
    Layout.Valid cbTag p.cbBufferData ⟨(slots p).eraseIdx k,
      if p.tagIb k + p.tagCb k = p.ibMicFree then p.ibMicFree - p.tagCb k else p.ibMicFree,
      p.cbFree + (p.tagCb k + cbTag)⟩ := by
  obtain ⟨hlen, hget⟩ := slots_at hk
  have h := Layout.Valid.eraseIdx hinv.valid hlen
  simpa only [hget, slot] using h

end

end Directory

section Lists

variable {p p' : Page} {k : Nat}

theorem slots_eq_set (s : Slot) (hn : p'.itagMicFree = p.itagMicFree)
    (hother : ∀ i, i < p.itagMicFree → i ≠ k → slot p' i = slot p i) (hself : slot p' k = s) :
    slots p' = (slots p).set k s := by
  apply ext_getElem
  · simp [hn]
  · intro i hi hi'
    rw [getElem_set, slots_getElem, slots_getElem]
    split
    case isTrue hki => rw [← hki, hself]
    case isFalse hki => exact hother i (by simpa using hi') (Ne.symm hki)

end Lists

end EseLinux.PageLayout
