import EseLinux.PageEdit
import EseLinux.PageLayout

/-!
`ReorganizeData_` packs the lines of a page from the start of the data area.  The lines go
down in the order of their offsets, so a line never lands on one that has not moved yet.
-/

namespace EseLinux.PageReorganize

open ByteMemory PageEdit PageFormat PageLayout PageTags SlotLayout List

section OneLine

variable {p : Page} {i : Nat}

theorem moveLineDown_eq (p : Page) (i d pb : Nat) :
    moveLineDown p i d pb =
      (p.setBuf (move p.buf pb (p.pbFromIb (p.tagIb i)) (p.tagCb i))).tagSetIb i d := by
  by_cases hcb : p.tagCb i = 0
  · simp only [moveLineDown, hcb, ne_eq, not_true_eq_false, if_false, move_zero]
    rfl
  · simp only [moveLineDown, hcb, ne_eq, not_false_eq_true, if_true]

theorem moveLineDown_frame (p : Page) (i d pb : Nat) :
    Frame (fun a => (pb ≤ a ∧ a < pb + p.tagCb i) ∨
      (p.ptagFromItag i + 2 ≤ a ∧ a < p.ptagFromItag i + 4)) p.buf
      (moveLineDown p i d pb).buf := by
  rw [moveLineDown_eq]
  have hmove := frame_move (T := fun a => (pb ≤ a ∧ a < pb + p.tagCb i) ∨
    (p.ptagFromItag i + 2 ≤ a ∧ a < p.ptagFromItag i + 4)) p.buf pb (p.pbFromIb (p.tagIb i))
    (p.tagCb i) fun _ hlo hhi => Or.inl ⟨hlo, hhi⟩
  exact hmove.trans ((tagSetIb_frame _ i d).mono fun a ha => Or.inr ha)

theorem sameShape_moveLineDown (p : Page) (i d pb : Nat) :
    SameShape p (moveLineDown p i d pb) := by
  rw [moveLineDown_eq]
  exact ⟨rfl, rfl⟩

theorem slot_moveLineDown (d pb : Nat) (hd : d < 2 ^ cbitTagIbCb p)
    (hpb : pb + p.tagCb i ≤ p.ptagFromItag i) :
    slot (moveLineDown p i d pb) i = ⟨d, p.tagCb i⟩ := by
  rw [moveLineDown_eq]
  have hagree := move_agreeOn p.buf pb (p.pbFromIb (p.tagIb i)) (p.tagCb i)
    (p.ptagFromItag i) 4 (Or.inr hpb)
  have hslot := slot_eq_of_agreeOn (sameShape_setBuf p _) hagree
  have hset := slot_tagSetIb (i := i)
    (p := p.setBuf (move p.buf pb (p.pbFromIb (p.tagIb i)) (p.tagCb i))) d hd
  rw [hset]
  exact congrArg (fun s : Slot => (⟨d, s.cb⟩ : Slot)) hslot

theorem line_moveLineDown (d : Nat) (hd : d < 2 ^ cbitTagIbCb p)
    (hpb : p.pbFromIb d + p.tagCb i ≤ p.ptagFromItag i) :
    line (moveLineDown p i d (p.pbFromIb d)) i = line p i := by
  have hslot := slot_moveLineDown d (p.pbFromIb d) hd hpb
  have hib : (moveLineDown p i d (p.pbFromIb d)).tagIb i = d := congrArg Slot.ib hslot
  have hcb : (moveLineDown p i d (p.pbFromIb d)).tagCb i = p.tagCb i := congrArg Slot.cb hslot
  have hshape := sameShape_moveLineDown p i d (p.pbFromIb d)
  refine line_ext hshape ?_ ?_
  · have hmoved : slice (move p.buf (p.pbFromIb d) (p.pbFromIb (p.tagIb i)) (p.tagCb i))
        (p.pbFromIb d) (p.tagCb i) = p.tagData i := by
      have h := slice_move p.buf (p.pbFromIb d) (p.pbFromIb (p.tagIb i)) (p.tagCb i) 0
        (p.tagCb i) (by omega)
      simpa only [add_zero, Page.tagData] using h
    rw [Page.tagData, hib, hcb, hshape.pbFromIb, ← hmoved, moveLineDown_eq]
    refine AgreeOn.slice_eq ((tagSetIb_frame _ i d).agreeOn ?_)
    intro a _ hhi ha
    change p.ptagFromItag i + 2 ≤ a ∧ _ at ha
    omega
  · intro hsmall
    have hbits : cbitTagIbCb p = 13 := by simp [cbitTagIbCb, hsmall]
    have hword := word_tagSetIb_div (p := p.setBuf (move p.buf (p.pbFromIb d)
      (p.pbFromIb (p.tagIb i)) (p.tagCb i))) (i := i) d hd
    change _ / 2 ^ cbitTagIbCb p = _ / 2 ^ cbitTagIbCb p at hword
    rw [hbits] at hword
    rw [moveLineDown_eq]
    refine hword.trans ?_
    have hagree := move_agreeOn p.buf (p.pbFromIb d) (p.pbFromIb (p.tagIb i)) (p.tagCb i)
      (p.ptagFromItag i + 2) 2 (Or.inr (by omega))
    exact congrArg (· / 2 ^ 13) hagree.word_eq

end OneLine

/-- Halfway through the loop: the tags in `todo` still stand as they stood in `p`, the others
are packed below `d`, and every line reads as it did in `p`. -/
structure MovedDown (p q : Page) (d : Nat) (todo : List Nat) : Prop where
  shape : SameShape p q
  itagMicFree : q.itagMicFree = p.itagMicFree
  ctagReserved : q.ctagReserved = p.ctagReserved
  header : Frame (fun a => p.cbPageHeader ≤ a) p.buf q.buf
  todoTag : ∀ i ∈ todo, AgreeOn p.buf q.buf (p.ptagFromItag i) 4
  todoData : ∀ i ∈ todo, AgreeOn p.buf q.buf (p.pbFromIb (p.tagIb i)) (p.tagCb i)
  cbEq : ∀ i, i < p.itagMicFree → q.tagCb i = p.tagCb i
  lineEq : ∀ i, i < p.itagMicFree → line q i = line p i
  below : ∀ i, i < p.itagMicFree → i ∉ todo → (slot q i).Below d
  apart : ∀ i j, i < p.itagMicFree → j < p.itagMicFree → i ∉ todo → j ∉ todo → i ≠ j →
    (slot q i).Apart (slot q j)
  room : ∀ i ∈ todo, p.tagCb i ≠ 0 → d ≤ p.tagIb i
  total : d + (todo.map p.tagCb).sum = used (slots p)

section Loop

variable {p q : Page} {d i : Nat} {todo : List Nat}

theorem used_slots (p : Page) : used (slots p) = ((range p.itagMicFree).map p.tagCb).sum := by
  simp only [used, slots, map_map]
  rfl

theorem movedDown_start (p : Page) (tags : List Nat)
    (hperm : tags.Perm (range p.itagMicFree)) : MovedDown p p 0 tags where
  shape := SameShape.refl p
  itagMicFree := rfl
  ctagReserved := rfl
  header := Frame.refl _ _
  todoTag _ _ _ _ _ := rfl
  todoData _ _ _ _ _ := rfl
  cbEq _ _ := rfl
  lineEq _ _ := rfl
  below i hi hnot := absurd (hperm.mem_iff.mpr (mem_range.mpr hi)) hnot
  apart i _ hi _ hnot _ _ := absurd (hperm.mem_iff.mpr (mem_range.mpr hi)) hnot
  room _ _ _ := Nat.zero_le _
  total := by rw [used_slots, Nat.zero_add, (hperm.map p.tagCb).sum_eq]

/-- The tags still to be moved: each of them once, in the order of their lines. -/
structure InOrder (p : Page) (todo : List Nat) : Prop where
  lt : ∀ i ∈ todo, i < p.itagMicFree
  nodup : todo.Nodup
  sorted : todo.Pairwise fun i j => p.tagIb i ≤ p.tagIb j

theorem inOrder_of_perm (hperm : todo.Perm (range p.itagMicFree))
    (hsorted : todo.Pairwise fun i j => p.tagIb i ≤ p.tagIb j) : InOrder p todo :=
  ⟨fun _ hi => mem_range.mp (hperm.mem_iff.mp hi), hperm.nodup_iff.mpr nodup_range,
    hsorted⟩

theorem InOrder.cons (h : InOrder p (i :: todo)) : i < p.itagMicFree ∧ i ∉ todo ∧
    (∀ j ∈ todo, p.tagIb i ≤ p.tagIb j) ∧ InOrder p todo := by
  obtain ⟨hi, hlt⟩ := forall_mem_cons.mp h.lt
  obtain ⟨hnot, hnodup⟩ := nodup_cons.mp h.nodup
  obtain ⟨hhead, hsorted⟩ := pairwise_cons.mp h.sorted
  exact ⟨hi, hnot, hhead, hlt, hnodup, hsorted⟩

theorem MovedDown.slot_todo (h : MovedDown p q d todo) (hi : i ∈ todo) : slot q i = slot p i :=
  slot_eq_of_agreeOn h.shape (h.todoTag i hi)

section

variable (hinv : LayoutInv p)
include hinv

section

variable (h : MovedDown p q d (i :: todo))
include h

theorem MovedDown.dest_le_ptag {j : Nat}
    (hj : j < p.itagMicFree) : p.pbFromIb d + p.tagCb i ≤ p.ptagFromItag j := by
  have htotal := h.total
  have hacc := hinv.accounting
  simp only [map_cons, sum_cons] at htotal
  simp only [Page.pbFromIb, Page.ptagFromItag, cbTag]
  omega

theorem MovedDown.dest_le_todo (ho : InOrder p (i :: todo)) :
    ∀ j ∈ todo, p.tagCb j ≠ 0 → d + p.tagCb i ≤ p.tagIb j := by
  intro j hj hcbj
  obtain ⟨hi, hnot, hsorted, htail⟩ := ho.cons
  have hroom := h.room j (mem_cons_of_mem i hj) hcbj
  by_cases hcb : p.tagCb i = 0
  · omega
  · have hroomi := h.room i mem_cons_self hcb
    have hle := hsorted j hj
    have hne : i ≠ j := fun hij => hnot (hij ▸ hj)
    rcases hinv.apart hi (htail.lt j hj) hne hcb hcbj with hap | hap
    · change p.tagIb i + p.tagCb i ≤ p.tagIb j at hap
      omega
    · change p.tagIb j + p.tagCb j ≤ p.tagIb i at hap
      omega

theorem MovedDown.dest_fits (hi : i < p.itagMicFree) :
    d < 2 ^ cbitTagIbCb q ∧ p.pbFromIb d + q.tagCb i ≤ q.ptagFromItag i := by
  have hbits : cbitTagIbCb q = cbitTagIbCb p := by
    simp only [cbitTagIbCb, h.shape.fSmallPageFormat]
  constructor
  · rw [hbits]
    have htotal := h.total
    have hacc := hinv.accounting
    exact hinv.normal.lt_two_pow (by omega)
  · rw [h.cbEq i hi, h.shape.ptagFromItag]
    exact h.dest_le_ptag hinv hi

theorem MovedDown.slot_moved (hi : i < p.itagMicFree) :
    slot (moveLineDown q i d (p.pbFromIb d)) i = ⟨d, p.tagCb i⟩ := by
  obtain ⟨hd, hdest⟩ := h.dest_fits hinv hi
  rw [slot_moveLineDown d _ hd hdest, h.cbEq i hi]

theorem MovedDown.step (ho : InOrder p (i :: todo)) :
    MovedDown p (moveLineDown q i d (p.pbFromIb d)) (d + p.tagCb i) todo := by
  obtain ⟨hi, hnot, -, hlt, -⟩ := ho.cons
  have hcbi : q.tagCb i = p.tagCb i := h.cbEq i hi
  have hpb : q.pbFromIb d = p.pbFromIb d := h.shape.pbFromIb d
  have hbeyond := h.dest_le_todo hinv ho
  have hshape := sameShape_moveLineDown q i d (p.pbFromIb d)
  obtain ⟨hd, hdest⟩ := h.dest_fits hinv hi
  have hslotI := h.slot_moved hinv hi
  have hlineI : line (moveLineDown q i d (p.pbFromIb d)) i = line q i := by
    rw [← hpb] at hdest ⊢
    exact line_moveLineDown d hd hdest
  have hcounts : (moveLineDown q i d (p.pbFromIb d)).itagMicFree = p.itagMicFree ∧
      (moveLineDown q i d (p.pbFromIb d)).ctagReserved = p.ctagReserved := by
    rw [moveLineDown_eq]
    exact ⟨h.itagMicFree, h.ctagReserved⟩
  -- everything but the destination and the offset of tag `i` stays
  have hframe := moveLineDown_frame q i d (p.pbFromIb d)
  rw [hcbi, h.shape.ptagFromItag] at hframe
  generalize moveLineDown q i d (p.pbFromIb d) = r at *
  have htag {j : Nat} (hj : j < p.itagMicFree) (hne : j ≠ i) :
      AgreeOn q.buf r.buf (p.ptagFromItag j) 4 := by
    have hdisj := ptagFromItag_disjoint (hinv.tagOnPage hj) (hinv.tagOnPage hi) hne
    have hle := h.dest_le_ptag hinv hj
    exact hframe.agreeOn fun a hlo hhi ha => by omega
  have htag' {j : Nat} (hj : j < p.itagMicFree) (hne : j ≠ i) :
      AgreeOn q.buf r.buf (q.ptagFromItag j) 4 := by
    rw [h.shape.ptagFromItag]
    exact htag hj hne
  have hslot {j : Nat} (hj : j < p.itagMicFree) (hne : j ≠ i) : slot r j = slot q j :=
    slot_eq_of_agreeOn hshape (htag' hj hne)
  have hdata j (hj : j ∈ todo) : AgreeOn q.buf r.buf (p.pbFromIb (p.tagIb j)) (p.tagCb j) := by
    refine hframe.agreeOn fun a hlo hhi ha => ?_
    have hcbj : p.tagCb j ≠ 0 := by omega
    have hpast := hbeyond j hj hcbj
    have hend := hinv.data_le_ptag (hlt j hj) hi hcbj
    simp only [Page.pbFromIb] at *
    omega
  have htodo {j : Nat} (hne : j ≠ i) (hjnot : j ∉ todo) : j ∉ i :: todo := fun hmem =>
    (mem_cons.mp hmem).elim hne hjnot
  have hdone {j : Nat} (hj : j < p.itagMicFree) (hne : j ≠ i) (hjnot : j ∉ todo) :
      (slot q j).Below d := h.below j hj (htodo hne hjnot)
  have hline {j : Nat} (hj : j < p.itagMicFree) (hne : j ≠ i) : line r j = line q j := by
    refine line_eq_of_agreeOn hshape (htag' hj hne) ?_
    by_cases hmem : j ∈ todo
    · have hslotj := h.slot_todo (mem_cons_of_mem i hmem)
      have hib : q.tagIb j = p.tagIb j := congrArg Slot.ib hslotj
      have hcb : q.tagCb j = p.tagCb j := congrArg Slot.cb hslotj
      rw [h.shape.pbFromIb, hib, hcb]
      exact hdata j hmem
    · refine hframe.agreeOn fun a hlo hhi ha => ?_
      have hcb : q.tagCb j ≠ 0 := by omega
      have hbelow : q.tagIb j + q.tagCb j ≤ d := hdone hj hne hmem hcb
      have hle := h.dest_le_ptag hinv hi
      simp only [Page.pbFromIb] at *
      omega
  refine ⟨h.shape.trans hshape, hcounts.1, hcounts.2, ?_, ?_, ?_, ?_, ?_, ?_, ?_, hbeyond, ?_⟩
  · refine h.header.trans (hframe.mono fun a ha => ?_)
    have hle := cbPageHeader_le_ptagFromItag (hinv.tagOnPage hi)
    simp only [Page.pbFromIb] at ha
    omega
  · intro j hj
    have hne : j ≠ i := fun hji => hnot (hji ▸ hj)
    exact (h.todoTag j (mem_cons_of_mem i hj)).trans (htag (hlt j hj) hne)
  · intro j hj
    exact (h.todoData j (mem_cons_of_mem i hj)).trans (hdata j hj)
  · intro j hj
    by_cases hji : j = i
    · subst hji
      exact congrArg Slot.cb hslotI
    · exact (congrArg Slot.cb (hslot hj hji)).trans (h.cbEq j hj)
  · intro j hj
    by_cases hji : j = i
    · subst hji
      exact hlineI.trans (h.lineEq j hj)
    · exact (hline hj hji).trans (h.lineEq j hj)
  · intro j hj hjnot
    by_cases hji : j = i
    · rw [hji, hslotI]
      exact fun _ => le_rfl
    · rw [hslot hj hji]
      exact fun hne => le_trans (hdone hj hji hjnot hne) (Nat.le_add_right _ _)
  · intro j k hj hk hjnot hknot hjk
    by_cases hji : j = i
    · have hki : k ≠ i := fun hki => hjk (hji.trans hki.symm)
      rw [hji, hslotI, hslot hk hki]
      exact fun _ hne => Or.inr (hdone hk hki hknot hne)
    · by_cases hki : k = i
      · rw [hki, hslotI, hslot hj hji]
        exact fun hne _ => Or.inl (hdone hj hji hjnot hne)
      · rw [hslot hj hji, hslot hk hki]
        exact h.apart j k hj hk (htodo hji hjnot) (htodo hki hknot) hjk
  · have htotal := h.total
    simp only [map_cons, sum_cons] at htotal
    omega

theorem MovedDown.next_eq (hi : i < p.itagMicFree) : moveLinesDown q d (p.pbFromIb d) (i :: todo) =
      moveLinesDown (moveLineDown q i d (p.pbFromIb d)) (d + p.tagCb i)
        (p.pbFromIb (d + p.tagCb i)) todo := by
  have hib : q.tagIb i = p.tagIb i := congrArg Slot.ib (h.slot_todo mem_cons_self)
  have hinOrder : ¬ (q.tagCb i ≠ 0 ∧ q.pbFromIb (q.tagIb i) < p.pbFromIb d) := by
    rintro ⟨hne, hbelow⟩
    rw [h.cbEq i hi] at hne
    have hroom := h.room i mem_cons_self hne
    rw [h.shape.pbFromIb, hib] at hbelow
    simp only [Page.pbFromIb] at hbelow
    omega
  have htotal := h.total
  rw [map_cons, sum_cons] at htotal
  have hsmall : (d + p.tagCb i) % 65536 = d + p.tagCb i := by
    have hacc := hinv.accounting
    have hmax := hinv.normal.cbBuffer_lt
    exact Nat.mod_eq_of_lt (by omega)
  have hpb : p.pbFromIb d + p.tagCb i = p.pbFromIb (d + p.tagCb i) := by
    simp only [Page.pbFromIb]
    omega
  have hcb : (moveLineDown q i d (p.pbFromIb d)).tagCb i = p.tagCb i :=
    congrArg Slot.cb (h.slot_moved hinv hi)
  simp only [moveLinesDown, if_neg hinOrder, hcb, hsmall, hpb]

end

theorem MovedDown.run (todo : List Nat) (q : Page) (d : Nat)
    (h : MovedDown p q d todo) (ho : InOrder p todo) :
    ∃ q', moveLinesDown q d (p.pbFromIb d) todo = some (q', used (slots p)) ∧
      MovedDown p q' (used (slots p)) [] := by
  induction todo generalizing q d with
  | nil =>
    have htotal : d = used (slots p) := by simpa using h.total
    subst htotal
    exact ⟨q, rfl, h⟩
  | cons i todo ih =>
    obtain ⟨hi, -, -, htail⟩ := ho.cons
    obtain ⟨q', hrun, hq'⟩ := ih _ _ (h.step hinv ho) htail
    exact ⟨q', (h.next_eq hinv hi).trans hrun, hq'⟩

end

end Loop

structure Repacked (p q : Page) : Prop where
  shape : SameShape p q
  itagMicFree : q.itagMicFree = p.itagMicFree
  ctagReserved : q.ctagReserved = p.ctagReserved
  cbFree : q.cbFree = p.cbFree
  cbEq : ∀ i, i < p.itagMicFree → q.tagCb i = p.tagCb i
  lineEq : ∀ i, i < p.itagMicFree → line q i = line p i
  inv : LayoutInv q

variable {p : Page}

variable {q : Page}

theorem Repacked.trans {r : Page} (h : Repacked p q) (h' : Repacked q r) : Repacked p r where
  shape := h.shape.trans h'.shape
  itagMicFree := h'.itagMicFree.trans h.itagMicFree
  ctagReserved := h'.ctagReserved.trans h.ctagReserved
  cbFree := h'.cbFree.trans h.cbFree
  cbEq i hi := (h'.cbEq i (by rwa [h.itagMicFree])).trans (h.cbEq i hi)
  lineEq i hi := (h'.lineEq i (by rwa [h.itagMicFree])).trans (h.lineEq i hi)
  inv := h'.inv

theorem repacked_of_unused (h : LayoutInv p) (m : Memory) (hframe : Frame (Unused p) p.buf m) :
    Repacked p (p.setBuf m) ∧ (p.setBuf m).ibMicFree = p.ibMicFree := by
  have hshape := sameShape_setBuf p m
  obtain ⟨hheader, htag, hdata⟩ := h.agreeOn_of_unused (p.setBuf m) hframe
  have hge := cbPageHeader_ge p
  have hmic : (p.setBuf m).ibMicFree = p.ibMicFree :=
    (hheader.mono (b := 32) (k := 2) (by omega) (by omega)).word_eq
  have hfree : (p.setBuf m).cbFree = p.cbFree :=
    (hheader.mono (b := 28) (k := 2) (by omega) (by omega)).word_eq
  have hslot : ∀ i, i < p.itagMicFree → slot (p.setBuf m) i = slot p i := fun i hi =>
    slot_eq_of_agreeOn hshape (htag i hi)
  refine ⟨⟨hshape, rfl, rfl, hfree, fun i hi => congrArg Slot.cb (hslot i hi),
    fun i hi => line_eq_of_agreeOn hshape (htag i hi) (hdata i hi), ?_⟩, hmic⟩
  refine ⟨h.normal.of_sameShape hshape, ?_⟩
  have hlayout : layout (p.setBuf m) = layout p := by
    simp only [layout, slots_congr p (p.setBuf m) rfl hslot, hmic, hfree]
  rw [hlayout]
  exact h.valid

theorem MovedDown.packed (hinv : LayoutInv p) (h : MovedDown p q (used (slots p)) []) :
    Repacked p (q.setIbMicFree (used (slots p))) ∧
      (q.setIbMicFree (used (slots p))).ibMicFree = used (slots p) := by
  have hacc := hinv.accounting
  have hmax := hinv.normal.cbBuffer_lt
  have hge := cbPageHeader_ge p
  let r := q.setIbMicFree (used (slots p))
  change Repacked p r ∧ r.ibMicFree = used (slots p)
  have hshape : SameShape p r := h.shape.trans (sameShape_setBuf q _)
  have htag i (hi : i < p.itagMicFree) : TagOnPage q i := by
    have hon := hinv.tagOnPage hi
    simpa only [TagOnPage, h.shape.cbPageHeader, h.shape.cbBuffer] using hon
  have hslot i (hi : i < p.itagMicFree) : slot r i = slot q i :=
    slot_setHeader 32 _ (by omega) (htag i hi)
  have hline i (hi : i < p.itagMicFree) : line r i = line p i :=
    (line_setHeader 32 _ (by omega) (htag i hi)).trans (h.lineEq i hi)
  have hcb i (hi : i < p.itagMicFree) : r.tagCb i = p.tagCb i :=
    (congrArg Slot.cb (hslot i hi)).trans (h.cbEq i hi)
  have hmic : r.ibMicFree = used (slots p) := word_setWord_of_lt _ _ _ (by omega)
  have hfree : r.cbFree = p.cbFree := by
    have hsame : r.cbFree = q.cbFree := word_setWord_of_disjoint _ _ _ _ (by omega)
    rw [hsame]
    exact (h.header.agreeOn fun a _ hhi ha => by omega).word_eq
  have hn : r.itagMicFree = p.itagMicFree := h.itagMicFree
  refine ⟨⟨hshape, hn, h.ctagReserved, hfree, hcb, hline, ?_⟩, hmic⟩
  refine ⟨hinv.normal.of_sameShape hshape, ?_, ?_, ?_, ?_⟩
  · intro s hs
    obtain ⟨i, hi, rfl⟩ := mem_map.mp hs
    have hi' : i < p.itagMicFree := by
      rw [← hn]
      exact mem_range.mp hi
    simp only [layout, hmic, hslot i hi']
    exact h.below i hi' not_mem_nil
  · refine slots_pairwise fun i j hi hj hne => ?_
    rw [hn] at hi hj
    rw [hslot i hi, hslot j hj]
    exact h.apart i j hi hj not_mem_nil not_mem_nil hne
  · simp only [layout, slots_length, hmic, hn, cbTag, Page.cbBufferData, hshape.cbBuffer,
      hshape.cbPageHeader]
    omega
  · simp only [layout, slots_length, hfree, hn, cbTag, Page.cbBufferData, hshape.cbBuffer,
      hshape.cbPageHeader, used_slots_congr hn hcb]
    omega

theorem reorganizeData_spec (env : Env) (hinv : LayoutInv p) :
    ∃ q, reorganizeData env p = some q ∧ Repacked p q ∧ q.ibMicFree = used (slots p) := by
  have hperm := env.sort.run_perm p.tagIb (range p.itagMicFree)
  obtain ⟨q, hrun, hq⟩ := MovedDown.run hinv _ p 0 (movedDown_start p _ hperm)
    (inOrder_of_perm hperm (env.sort.run_sorted _ _))
  obtain ⟨hrep, hmic⟩ := hq.packed hinv
  simp only [reorganizeData, hrun, Option.bind_eq_bind, Option.bind_some]
  generalize q.setIbMicFree (used (slots p)) = r at hrep hmic ⊢
  by_cases hscrub : env.fRuntimeScrubbingEnabled = true
  · simp only [hscrub, if_true]
    refine ⟨_, rfl, ?_⟩
    have hcont := hrep.inv.contiguous
    have hframe := frame_fill (T := Unused r) r.buf (r.pbFromIb r.ibMicFree)
      r.cbContiguousBufferFree.toNat chPAGEReorgContiguousFreeFill (by
        intro a hlo hhi
        simp only [Page.cbContiguousFree, Page.cbAdjustForPage] at hcont
        simp only [Unused, Page.pbFromIb] at *
        omega)
    obtain ⟨hrep', hmic'⟩ := repacked_of_unused hrep.inv _ hframe
    exact ⟨hrep.trans hrep', hmic'.trans hmic⟩
  · simp only [hscrub]
    exact ⟨_, rfl, hrep, hmic⟩

theorem freeSpace_cases {env : Env} {cb : Nat} (h : freeSpace env p cb = some q) :
    if p.cbContiguousFree < cb then reorganizeData env p = some q else p = q := by
  simp only [freeSpace, Option.bind_eq_bind] at h
  split at h
  case isTrue hlt =>
    obtain ⟨r, hr, hrq⟩ := Option.bind_eq_some_iff.mp h
    obtain ⟨-, -, ⟨⟩⟩ := Option.bind_eq_some_iff.mp hrq
    rwa [if_pos hlt]
  case isFalse hge =>
    obtain ⟨-, -, ⟨⟩⟩ := Option.bind_eq_some_iff.mp (Option.bind_some .. ▸ h)
    rw [if_neg hge]

theorem freeSpace_spec (env : Env) (hinv : LayoutInv p) (cb : Nat) (hcb : cb ≤ p.cbFree) :
    ∃ q, freeSpace env p cb = some q ∧ Repacked p q ∧ (cb : Int) ≤ q.cbContiguousFree ∧
      (if p.cbContiguousFree < cb then q.cbContiguousFree = p.cbFree else q = p) := by
  simp only [freeSpace]
  by_cases hlt : p.cbContiguousFree < cb
  · obtain ⟨q, hq, hrep, hmic⟩ := reorganizeData_spec env hinv
    have hcont : q.cbContiguousFree = p.cbFree := by
      rw [hrep.inv.contiguous, hmic, hrep.shape.cbBuffer, hrep.shape.cbPageHeader, hrep.itagMicFree]
      have hacc := hinv.accounting
      omega
    have hroom : (cb : Int) ≤ q.cbContiguousFree := by
      rw [hcont]
      exact_mod_cast hcb
    refine ⟨q, ?_, hrep, hroom, ?_⟩
    · simp [hlt, hq, hroom]
    · rw [if_pos hlt]
      exact hcont
  · have hroom : (cb : Int) ≤ p.cbContiguousFree := Int.not_lt.mp hlt
    refine ⟨p, ?_, ⟨SameShape.refl p, rfl, rfl, rfl, fun _ _ => rfl, fun _ _ => rfl, hinv⟩, hroom,
      ?_⟩
    · simp [hlt, hroom]
    · rw [if_neg hlt]

end EseLinux.PageReorganize
