import EseLinux.PageInsert
import EseLinux.PageReplace

/-!
`Delete_`: the line's bytes are given back and the tags past it close the gap.
-/

namespace EseLinux.PageDelete

open ByteMemory PageEdit PageFormat PageInsert PageLayout PageReplace PageTags PageWrite SlotLayout

/-- The outcome of deleting tag `k`: tag `j` of the new page is tag `shiftUp k j` of the old. -/
structure TagDeleted (p : Page) (k : Nat) (q : Page) : Prop where
  inv : LayoutInv q
  itagMicFree : q.itagMicFree + 1 = p.itagMicFree
  lineEq : ∀ j, j < q.itagMicFree → line q j = line p (shiftUp k j)

/-- The first steps of `Delete_`, up to the free-space counters. -/
def released (env : Env) (p : Page) (k : Nat) : Page :=
  let p := scrubTag env p k chPAGEDeleteFill
  let p :=
    if p.tagCb k + p.tagIb k = p.ibMicFree then
      p.setIbMicFree (ushort (p.ibMicFree - p.tagCb k))
    else p
  p.setCbFree (p.cbFree + p.tagCb k + cbTag)

def closed (p : Page) (k : Nat) : Page :=
  p.setBuf (move p.buf (p.ptagFromItag p.itagMicFree + cbTag) (p.ptagFromItag p.itagMicFree)
    (p.ptagFromItag k - p.ptagFromItag p.itagMicFree))

theorem delete_eq (env : Env) (p : Page) (k : Nat) :
    delete env p k = let q := closed ((released env p k).setITagState env.fResvTagFormatEnabled
        ((released env p k).itagMicFree - 1) (released env p k).ctagReserved) k
      if q.cbFree + cbTag + q.cbPageHeader = q.cbBuffer then q.setIbMicFree 0 else q :=
  rfl

variable {p : Page} {k : Nat}

theorem released_edited (env : Env) (hinv : LayoutInv p) (hk : k < p.itagMicFree) :
    Edited p k (ownWindow p k).1 (ownWindow p k).2 (released env p k) (slot p k)
      (if p.tagIb k + p.tagCb k = p.ibMicFree then p.ibMicFree - p.tagCb k else p.ibMicFree)
      (p.cbFree + (p.tagCb k + cbTag)) := by
  have hacc := hinv.accounting
  have hfits := hinv.fits
  have hmax := hinv.normal.cbBuffer_lt
  have hused : p.tagCb k ≤ used (slots p) := cb_le_used (slot_mem hk)
  have hkOn := hinv.tagOnPage hk
  have hscrubbed := scrubTag_edited env hinv hk chPAGEDeleteFill
  have hib := congrArg Slot.ib hscrubbed.slotEq
  have hcb := congrArg Slot.cb hscrubbed.slotEq
  simp only [slot] at hib hcb
  have htotal : p.cbFree + p.tagCb k + cbTag = p.cbFree + (p.tagCb k + cbTag) := add_assoc _ _ _
  have hmod : (p.cbFree + (p.tagCb k + cbTag)) % 65536 = p.cbFree + (p.tagCb k + cbTag) :=
    Nat.mod_eq_of_lt (by simp only [cbTag]; omega)
  have hlast : p.tagCb k + p.tagIb k = p.ibMicFree ↔ p.tagIb k + p.tagCb k = p.ibMicFree := by
    rw [add_comm]
  simp only [released, hib, hcb, hscrubbed.ibMicFree, hlast]
  split
  case isTrue hend =>
    have hmic : ushort ((p.ibMicFree : Int) - p.tagCb k) = p.ibMicFree - p.tagCb k :=
      ushort_of_nonneg _ _ (by omega) (by omega)
    have hset := hscrubbed.setIbMicFree hkOn (p.ibMicFree - p.tagCb k)
    have hcbSet := congrArg Slot.cb hset.slotEq
    simp only [slot] at hcbSet
    have hres := hset.setCbFree hkOn (p.cbFree + (p.tagCb k + cbTag))
    rw [Nat.mod_eq_of_lt (by omega), hmod] at hres
    rw [hmic, hset.cbFree, hcbSet, htotal]
    exact hres
  case isFalse hend =>
    have hres := hscrubbed.setCbFree hkOn (p.cbFree + (p.tagCb k + cbTag))
    rw [hmod] at hres
    rw [hscrubbed.cbFree, hcb, htotal]
    exact hres

theorem closed_words {s : Page} (hk : k ≤ s.itagMicFree)
    (hon : TagOnPage s s.itagMicFree) {j : Nat} (hj : j < s.itagMicFree) :
    word (closed s k).buf (s.ptagFromItag j) = word s.buf (s.ptagFromItag (shiftUp k j)) ∧
      word (closed s k).buf (s.ptagFromItag j + 2) =
        word s.buf (s.ptagFromItag (shiftUp k j) + 2) := by
  simp only [TagOnPage, cbTag] at hon
  simp only [shiftUp]
  split
  case isTrue hjk =>
    refine (move_agreeOn _ _ _ _ _ _ (Or.inr ?_)).words_eq
    simp only [Page.ptagFromItag, cbTag]
    omega
  case isFalse hjk =>
    have hdst : s.ptagFromItag j =
        s.ptagFromItag s.itagMicFree + cbTag + 4 * (s.itagMicFree - (j + 1)) := by
      simp only [Page.ptagFromItag, cbTag]
      omega
    have hsrc : s.ptagFromItag (j + 1) =
        s.ptagFromItag s.itagMicFree + 4 * (s.itagMicFree - (j + 1)) := by
      simp only [Page.ptagFromItag, cbTag]
      omega
    rw [hdst, hsrc, add_assoc _ _ 2, add_assoc _ _ 2]
    have hlen : 4 * (s.itagMicFree - (j + 1)) + 2 + 2 ≤
        s.ptagFromItag k - s.ptagFromItag s.itagMicFree := by
      simp only [Page.ptagFromItag, cbTag]
      omega
    exact ⟨word_move _ _ _ _ _ (by omega), word_move _ _ _ _ _ (by omega)⟩

theorem closed_spec (env : Env) (hinv : LayoutInv p) (hk : k < p.itagMicFree) :
    TagDeleted p k (closed ((released env p k).setITagState env.fResvTagFormatEnabled
      ((released env p k).itagMicFree - 1) (released env p k).ctagReserved) k) := by
  have hedit := released_edited env hinv hk
  have hfits := hinv.fits
  have hmax := hinv.normal.cbBuffer_lt
  have hge := cbPageHeader_ge p
  have hkOn := hinv.tagOnPage hk
  have hwinFits := ownWindow_fits hinv hk
  obtain ⟨s, hs⟩ : ∃ s, s = (released env p k).setITagState env.fResvTagFormatEnabled
      ((released env p k).itagMicFree - 1) (released env p k).ctagReserved := ⟨_, rfl⟩
  obtain ⟨hshape', hmic', hfree', hkeep⟩ := setITagState_keeps env.fResvTagFormatEnabled
    (released env p k) ((released env p k).itagMicFree - 1) (released env p k).ctagReserved
  rw [← hs] at hshape' hmic' hfree' hkeep ⊢
  have hshape : SameShape p s := hedit.shape.trans hshape'
  have hcount : s.itagMicFree = p.itagMicFree - 1 := by
    rw [hs]
    change ((released env p k).itagMicFree - 1) % 65536 = _
    rw [hedit.itagMicFree]
    omega
  have hother j (hj : j < p.itagMicFree) (hne : j ≠ k) :
      slot s j = slot p j ∧ line s j = line p j := by
    have hjOn := hinv.tagOnPage hj
    have hwin := pbFromIb_le_ptag hwinFits hj
    have hjOn' : TagOnPage (released env p k) j := by
      simpa only [TagOnPage, hedit.shape.cbPageHeader, hedit.shape.cbBuffer] using hjOn
    obtain ⟨hslot, hline⟩ := hkeep j hjOn'
    exact ⟨hslot.trans (hedit.slot_of_ne hkOn hjOn hne hwin),
      hline.trans (hedit.line_of_ne hkOn hjOn hne hwin (hinv.data_le_ptag hj hk)
        (ownWindow_apart hinv hk hj hne))⟩
  have hlast : TagOnPage s s.itagMicFree := by
    simp only [TagOnPage, cbTag, hcount, hshape.cbPageHeader, hshape.cbBuffer]
    omega
  have hframe : Frame (fun a => p.pbFromIb p.ibMicFree ≤ a) s.buf (closed s k).buf := by
    refine frame_move _ _ _ _ fun a hlo _ => ?_
    simp only [hshape.ptagFromItag] at hlo
    simp only [Page.ptagFromItag, Page.pbFromIb, cbTag] at *
    omega
  have hcshape : SameShape s (closed s k) := sameShape_setBuf s _
  have hkeepHeader : AgreeOn s.buf (closed s k).buf 28 8 :=
    hframe.agreeOn fun a _ hhi ha => by
      simp only [Page.pbFromIb] at ha
      omega
  have hslotj j (hj : j < s.itagMicFree) : slot (closed s k) j = slot p (shiftUp k j) := by
    obtain ⟨hcb, hib⟩ := closed_words (k := k) (by omega) hlast hj
    rw [slot_congr hcshape hcb hib]
    exact (hother _ (by have := shiftUp_lt (k := k) hj; omega) (shiftUp_ne k j)).1
  have hslots : slots (closed s k) = (slots p).eraseIdx k := by
    apply List.ext_getElem
    · rw [List.length_eraseIdx_of_lt (by rwa [slots_length]), slots_length, slots_length]
      exact hcount
    · intro i hi hi'
      rw [slots_length] at hi
      rw [List.getElem_eraseIdx, slots_getElem, hslotj i hi]
      simp only [shiftUp]
      split <;> rw [slots_getElem]
  refine ⟨⟨hinv.normal.of_sameShape (hshape.trans hcshape), ?_⟩, ?_, ?_⟩
  · have hdata : (closed s k).cbBufferData = p.cbBufferData := by
      simp only [Page.cbBufferData, (hshape.trans hcshape).cbBuffer,
        (hshape.trans hcshape).cbPageHeader]
    have hmic : (closed s k).ibMicFree = s.ibMicFree :=
      (hkeepHeader.mono (b := 32) (k := 2) (by omega) (by omega)).word_eq
    have hfree : (closed s k).cbFree = s.cbFree :=
      (hkeepHeader.mono (b := 28) (k := 2) (by omega) (by omega)).word_eq
    simp only [layout, hslots, hdata, hmic, hfree, hmic', hfree', hedit.ibMicFree, hedit.cbFree]
    exact hinv.valid_eraseIdx hk
  · change s.itagMicFree + 1 = _
    omega
  · intro j hj
    change j < s.itagMicFree at hj
    have hlt : shiftUp k j < p.itagMicFree := by
      have := shiftUp_lt (k := k) hj
      omega
    obtain ⟨hslot, hline⟩ := hother _ hlt (shiftUp_ne k j)
    obtain ⟨hcb, hib⟩ := closed_words (k := k) (by omega) hlast hj
    refine (line_congr hcshape hcb hib ?_).trans hline
    have hibEq : s.tagIb (shiftUp k j) = p.tagIb (shiftUp k j) := congrArg Slot.ib hslot
    have hcbEq : s.tagCb (shiftUp k j) = p.tagCb (shiftUp k j) := congrArg Slot.cb hslot
    rw [hshape.pbFromIb, hibEq, hcbEq]
    refine hframe.agreeOn fun a hlo hhi ha => ?_
    have hbelow := hinv.below hlt (by omega)
    simp only [Page.pbFromIb] at *
    omega

theorem layoutInv_setIbMicFree_zero {q : Page} (hinv : LayoutInv q)
    (hempty : used (slots q) = 0) :
    LayoutInv (q.setIbMicFree 0) ∧
      ∀ j, j < q.itagMicFree → line (q.setIbMicFree 0) j = line q j := by
  have hslots : slots (q.setIbMicFree 0) = slots q :=
    slots_congr q (q.setIbMicFree 0) rfl fun i hi =>
      slot_setHeader 32 0 (by omega) (hinv.tagOnPage hi)
  have hmic : (q.setIbMicFree 0).ibMicFree = 0 := word_setWord _ _ _
  have hfree : (q.setIbMicFree 0).cbFree = q.cbFree := word_setWord_of_disjoint _ _ _ _ (by omega)
  refine ⟨⟨hinv.normal.of_sameShape (sameShape_setBuf q _), ?_⟩, ?_⟩
  · have hlow := Layout.Valid.lower_top hinv.valid (Nat.zero_le _) (by
      intro s hs hne
      have hle := cb_le_used hs
      omega)
    simp only [layout, hslots, hmic, hfree]
    exact hlow
  · exact fun j hj => line_setHeader 32 0 (by omega) (hinv.tagOnPage hj)

theorem delete_spec (env : Env) (hinv : LayoutInv p) (hk : k < p.itagMicFree) :
    TagDeleted p k (delete env p k) := by
  have hclosed := closed_spec env hinv hk
  rw [delete_eq]
  obtain ⟨q, hq⟩ : ∃ q, q = closed ((released env p k).setITagState env.fResvTagFormatEnabled
      ((released env p k).itagMicFree - 1) (released env p k).ctagReserved) k := ⟨_, rfl⟩
  rw [← hq] at hclosed ⊢
  simp only
  split
  case isTrue hlast =>
    have hacc := hclosed.inv.accounting
    have hempty : used (slots q) = 0 := by
      by_cases hnone : q.itagMicFree = 0
      · simp [slots, hnone]
      · simp only [cbTag] at hlast
        omega
    obtain ⟨hinv', hlines⟩ := layoutInv_setIbMicFree_zero hclosed.inv hempty
    exact ⟨hinv', hclosed.itagMicFree, fun j hj => (hlines j hj).trans (hclosed.lineEq j hj)⟩
  case isFalse => exact hclosed

end EseLinux.PageDelete
