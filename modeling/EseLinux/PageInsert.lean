import EseLinux.PageReorganize
import EseLinux.PageWrite

/-!
Adding a tag: `ExpandTagArray_` shifts the tags from the new one on, and the new tag takes the
bytes at `ibMicFree`.
-/

namespace EseLinux.PageInsert

open ByteMemory PageEdit PageFormat PageLayout PageReorganize PageTags PageWrite SlotLayout

/-- Where tag `j` stands once a tag has been added at `k`. -/
def shiftUp (k j : Nat) : Nat :=
  if j < k then j else j + 1

theorem shiftUp_ne (k j : Nat) : shiftUp k j ≠ k := by
  simp only [shiftUp]
  split <;> omega

theorem shiftUp_lt {k j n : Nat} (hj : j < n) : shiftUp k j < n + 1 := by
  simp only [shiftUp]
  split <;> omega

/-- Page `e` has one tag more than `q`: a yet unused one at `k`. -/
structure Expanded (q : Page) (k : Nat) (e : Page) : Prop where
  shape : SameShape q e
  itagMicFree : e.itagMicFree = q.itagMicFree + 1
  ibMicFree : e.ibMicFree = q.ibMicFree
  cbFree : e.cbFree = q.cbFree
  slotEq : ∀ j, j < q.itagMicFree → slot e (shiftUp k j) = slot q j
  lineEq : ∀ j, j < q.itagMicFree → line e (shiftUp k j) = line q j

variable (env : Env)

section Expand

variable {q e : Page} {k : Nat}

theorem setITagState_keeps (fResv : Bool) (p : Page) (itag ctag : Nat) :
    SameShape p (p.setITagState fResv itag ctag) ∧
      (p.setITagState fResv itag ctag).ibMicFree = p.ibMicFree ∧
      (p.setITagState fResv itag ctag).cbFree = p.cbFree ∧
      ∀ i, TagOnPage p i → slot (p.setITagState fResv itag ctag) i = slot p i ∧
        line (p.setITagState fResv itag ctag) i = line p i := by
  obtain ⟨w, hw⟩ : ∃ w, (p.setITagState fResv itag ctag).buf = setWord p.buf 34 w := ⟨_, rfl⟩
  refine ⟨⟨rfl, rfl⟩, ?_, ?_, ?_⟩
  · rw [Page.ibMicFree, hw]
    exact word_setWord_of_disjoint _ _ _ _ (by omega)
  · rw [Page.cbFree, hw]
    exact word_setWord_of_disjoint _ _ _ _ (by omega)
  · intro i hi
    exact setHeader_keeps ⟨rfl, rfl⟩ 34 w (by omega) hw hi

theorem Expanded.setITagState (fResv : Bool) (ctag : Nat) (h : Expanded q k e)
    (hn : q.itagMicFree + 1 < 65536)
    (hon : ∀ i, i < q.itagMicFree + 1 → TagOnPage e i) :
    Expanded q k (e.setITagState fResv e.itagMicFree ctag) := by
  obtain ⟨hshape, hmic, hfree, hkeep⟩ := setITagState_keeps fResv e e.itagMicFree ctag
  refine ⟨h.shape.trans hshape, ?_, hmic.trans h.ibMicFree, hfree.trans h.cbFree, ?_, ?_⟩
  · change e.itagMicFree % 65536 = _
    rw [h.itagMicFree, Nat.mod_eq_of_lt hn]
  · intro j hj
    exact (hkeep _ (hon _ (shiftUp_lt hj))).1.trans (h.slotEq j hj)
  · intro j hj
    exact (hkeep _ (hon _ (shiftUp_lt hj))).2.trans (h.lineEq j hj)

def shifted (q : Page) (k : Nat) : Page :=
  q.setBuf (move q.buf (q.ptagFromItag q.itagMicFree) (q.ptagFromItag (q.itagMicFree - 1))
    (cbTag * (q.itagMicFree - k)))

theorem expandTagArray_eq (q : Page) (k : Nat) : expandTagArray env q k =
      (shifted q k).setITagState env.fResvTagFormatEnabled (q.itagMicFree + 1)
        q.ctagReserved := by
  by_cases hk : k = q.itagMicFree
  · have hsame : shifted q k = q := by
      simp only [shifted, hk, Nat.sub_self, mul_zero, move_zero]
      rfl
    simp only [expandTagArray, hk, ne_eq, not_true_eq_false, if_false]
    rw [← hk, hsame]
  · simp only [expandTagArray, hk, ne_eq, not_false_eq_true, if_true]
    rfl

theorem shifted_words (hk : k ≤ q.itagMicFree) (hon : TagOnPage q q.itagMicFree) {j : Nat}
    (hj : j < q.itagMicFree) :
    word (shifted q k).buf (q.ptagFromItag (shiftUp k j)) = word q.buf (q.ptagFromItag j) ∧
      word (shifted q k).buf (q.ptagFromItag (shiftUp k j) + 2) =
        word q.buf (q.ptagFromItag j + 2) := by
  simp only [TagOnPage, cbTag] at hon
  simp only [shiftUp]
  split
  case isTrue hjk =>
    refine (move_agreeOn _ _ _ _ _ _ (Or.inr ?_)).words_eq
    simp only [Page.ptagFromItag, cbTag]
    omega
  case isFalse hjk =>
    have hdst : q.ptagFromItag (j + 1) =
        q.ptagFromItag q.itagMicFree + 4 * (q.itagMicFree - (j + 1)) := by
      simp only [Page.ptagFromItag, cbTag]
      omega
    have hsrc : q.ptagFromItag j =
        q.ptagFromItag (q.itagMicFree - 1) + 4 * (q.itagMicFree - (j + 1)) := by
      simp only [Page.ptagFromItag, cbTag]
      omega
    rw [hdst, hsrc, add_assoc, add_assoc]
    exact ⟨word_move _ _ _ _ _ (by simp only [cbTag]; omega),
      word_move _ _ _ _ _ (by simp only [cbTag]; omega)⟩

theorem expandTagArray_spec (hinv : LayoutInv q) (hk : k ≤ q.itagMicFree)
    (hroom : q.cbPageHeader + q.ibMicFree + 4 * (q.itagMicFree + 1) ≤ q.cbBuffer) :
    Expanded q k (expandTagArray env q k) := by
  have hmax := hinv.normal.cbBuffer_lt
  have hge := cbPageHeader_ge q
  have hon : TagOnPage q q.itagMicFree := by
    simp only [TagOnPage, cbTag]
    omega
  have hframe : Frame (fun a => q.pbFromIb q.ibMicFree ≤ a) q.buf (shifted q k).buf := by
    refine frame_move _ _ _ _ fun a hlo _ => ?_
    simp only [Page.ptagFromItag, Page.pbFromIb, cbTag] at *
    omega
  have hshape : SameShape q (shifted q k) := sameShape_setBuf q _
  obtain ⟨hshape', hmic, hfree, hkeep⟩ := setITagState_keeps env.fResvTagFormatEnabled
    (shifted q k) (q.itagMicFree + 1) q.ctagReserved
  have hon' i (hi : i < q.itagMicFree + 1) : TagOnPage (shifted q k) i := by
    simp only [TagOnPage, cbTag, hshape.cbPageHeader, hshape.cbBuffer]
    omega
  rw [expandTagArray_eq]
  refine ⟨hshape.trans hshape', ?_, ?_, ?_, ?_, ?_⟩
  · exact Nat.mod_eq_of_lt (by omega)
  · rw [hmic]
    exact (hframe.agreeOn fun a _ hhi ha => by
      simp only [Page.pbFromIb] at ha
      omega).word_eq
  · rw [hfree]
    exact (hframe.agreeOn fun a _ hhi ha => by
      simp only [Page.pbFromIb] at ha
      omega).word_eq
  · intro j hj
    obtain ⟨hcb, hib⟩ := shifted_words hk hon hj
    rw [(hkeep _ (hon' _ (shiftUp_lt hj))).1]
    exact slot_congr hshape hcb hib
  · intro j hj
    obtain ⟨hcb, hib⟩ := shifted_words hk hon hj
    rw [(hkeep _ (hon' _ (shiftUp_lt hj))).2]
    refine line_congr hshape hcb hib (hframe.agreeOn fun a hlo hhi ha => ?_)
    have hbelow := hinv.below hj (by omega)
    simp only [Page.pbFromIb] at *
    omega

end Expand

section Fill

variable {q e x : Page} {k cb : Nat}

theorem Expanded.finish (hinv : LayoutInv q) (hk : k ≤ q.itagMicFree) (h : Expanded q k e)
    (hfree : cb + 4 ≤ q.cbFree)
    (hroom : q.cbPageHeader + q.ibMicFree + cb + 4 * (q.itagMicFree + 1) ≤ q.cbBuffer)
    (hedit : Edited e k q.ibMicFree (q.ibMicFree + cb) x ⟨q.ibMicFree, cb⟩ (q.ibMicFree + cb)
      (q.cbFree - (cb + cbTag))) :
    LayoutInv x ∧ ∀ j, j < q.itagMicFree → line x (shiftUp k j) = line q j := by
  have hon i (hi : i < q.itagMicFree + 1) : TagOnPage e i := by
    simp only [TagOnPage, cbTag, h.shape.cbPageHeader, h.shape.cbBuffer]
    omega
  have hkOn : TagOnPage e k := hon k (by omega)
  have hwin i (hi : i < q.itagMicFree + 1) : e.pbFromIb (q.ibMicFree + cb) ≤ e.ptagFromItag i := by
    simp only [Page.pbFromIb, Page.ptagFromItag, cbTag, h.shape.cbPageHeader, h.shape.cbBuffer]
    omega
  have hslot j (hj : j < q.itagMicFree) : slot x (shiftUp k j) = slot q j := by
    have hlt := shiftUp_lt (k := k) hj
    rw [← h.slotEq j hj]
    exact hedit.slot_of_ne hkOn (hon _ hlt) (shiftUp_ne k j) (hwin _ hlt)
  have hslots : slots x = (slots q).insertIdx k ⟨q.ibMicFree, cb⟩ := by
    apply List.ext_getElem
    · rw [List.length_insertIdx_of_le_length (by rwa [slots_length]), slots_length,
        slots_length, hedit.itagMicFree, h.itagMicFree]
    · intro i hi hi'
      have hin : i < q.itagMicFree + 1 := by
        rwa [slots_length, hedit.itagMicFree, h.itagMicFree] at hi
      rw [List.getElem_insertIdx, slots_getElem]
      split
      case isTrue hik =>
        have hsame : shiftUp k i = i := by simp [shiftUp, hik]
        rw [slots_getElem, ← hslot i (by omega), hsame]
      case isFalse hik =>
        split
        case isTrue hik' => rw [hik', hedit.slotEq]
        case isFalse hik' =>
          have hsame : shiftUp k (i - 1) = i := by
            simp only [shiftUp]
            split <;> omega
          rw [slots_getElem, ← hslot (i - 1) (by omega), hsame]
  refine ⟨⟨hinv.normal.of_sameShape (h.shape.trans hedit.shape), ?_⟩, ?_⟩
  · have hdata : x.cbBufferData = q.cbBufferData := by
      simp only [Page.cbBufferData, (h.shape.trans hedit.shape).cbBuffer,
        (h.shape.trans hedit.shape).cbPageHeader]
    simp only [layout, hslots, hedit.ibMicFree, hedit.cbFree, hdata]
    exact hinv.valid_insertIdx hk cb hfree hroom
  · intro j hj
    have hlt := shiftUp_lt (k := k) hj
    have hslotj := h.slotEq j hj
    have hib : e.tagIb (shiftUp k j) = q.tagIb j := congrArg Slot.ib hslotj
    have hcb : e.tagCb (shiftUp k j) = q.tagCb j := congrArg Slot.cb hslotj
    rw [← h.lineEq j hj]
    refine hedit.line_of_ne hkOn (hon _ hlt) (shiftUp_ne k j) (hwin _ hlt) ?_ ?_
    · rw [hib, hcb]
      intro hne
      have hbelow := hinv.below hj hne
      have hle := hwin k (by omega)
      simp only [Page.pbFromIb] at *
      omega
    · rw [hib, hcb]
      exact fun hne => Or.inl (hinv.below hj hne)

theorem placeTag_edited (cb lo hi : Nat) (hkOn : TagOnPage e k)
    (hwin : e.pbFromIb hi ≤ e.ptagFromItag k) (hmic : e.ibMicFree < 2 ^ cbitTagIbCb e)
    (hcb : cb < 2 ^ cbitTagIbCb e) (hmax : e.ibMicFree + cb < 65536)
    (hfree : cb + 4 ≤ e.cbFree) :
    Edited e k lo hi (placeTag e k cb) ⟨e.ibMicFree, cb⟩ (e.ibMicFree + cb)
      (e.cbFree - (cb + cbTag)) := by
  have hzero : 0 < 2 ^ cbitTagIbCb e := Nat.two_pow_pos _
  have hlt : e.cbFree < 65536 := word_lt _ _
  have hcbMod : cb % 65536 = cb := Nat.mod_eq_of_lt (by omega)
  have hreset := (((Edited.start e k lo hi).tagSetCb hkOn 0 hzero).tagSetIb hkOn 0
    hzero).tagSetFlags hkOn hwin 0 (fun hne => absurd rfl hne)
  have hib := hreset.tagSetIb hkOn e.ibMicFree hmic
  have hmicSet := hib.setIbMicFree hkOn (e.ibMicFree + cb)
  have hcbSet := hmicSet.tagSetCb hkOn cb hcb
  have hcbFree : ushort ((e.cbFree : Int) - ((cb : Nat) + (cbTag : Nat))) =
      e.cbFree - (cb + cbTag) := by
    simp only [ushort, cbTag]
    omega
  have hdone := hcbSet.setCbFree hkOn (e.cbFree - (cb + cbTag))
  rw [Nat.mod_eq_of_lt hmax, Nat.mod_eq_of_lt (by simp only [cbTag]; omega)] at hdone
  simp only [placeTag, hreset.ibMicFree, hib.ibMicFree, hcbMod, hcbSet.cbFree, hcbFree]
  exact hdone

theorem Expanded.placed (hinv : LayoutInv q) (hk : k ≤ q.itagMicFree) (h : Expanded q k e)
    (hfree : cb + 4 ≤ q.cbFree)
    (hroom : q.cbPageHeader + q.ibMicFree + cb + 4 * (q.itagMicFree + 1) ≤ q.cbBuffer) :
    TagOnPage e k ∧ e.pbFromIb (q.ibMicFree + cb) ≤ e.ptagFromItag k ∧
      Edited e k q.ibMicFree (q.ibMicFree + cb) (placeTag e k cb) ⟨q.ibMicFree, cb⟩
        (q.ibMicFree + cb) (q.cbFree - (cb + cbTag)) := by
  have hmax := hinv.normal.cbBuffer_lt
  have hbits : cbitTagIbCb e = cbitTagIbCb q := by
    simp only [cbitTagIbCb, h.shape.fSmallPageFormat]
  have hkOn : TagOnPage e k := by
    simp only [TagOnPage, cbTag, h.shape.cbPageHeader, h.shape.cbBuffer]
    omega
  have hwin : e.pbFromIb (q.ibMicFree + cb) ≤ e.ptagFromItag k := by
    simp only [Page.pbFromIb, Page.ptagFromItag, cbTag, h.shape.cbPageHeader, h.shape.cbBuffer]
    omega
  have hplaced := placeTag_edited cb q.ibMicFree (q.ibMicFree + cb) hkOn hwin
    (by rw [hbits, h.ibMicFree]; exact hinv.normal.lt_two_pow (by omega))
    (by rw [hbits]; exact hinv.normal.lt_two_pow (by omega))
    (by rw [h.ibMicFree]; omega) (by rw [h.cbFree]; omega)
  rw [h.ibMicFree, h.cbFree] at hplaced
  exact ⟨hkOn, hwin, hplaced⟩

end Fill

/-- The outcome of adding a tag at `k`. -/
structure TagAdded (p : Page) (k : Nat) (q : Page) : Prop where
  inv : LayoutInv q
  itagMicFree : q.itagMicFree = p.itagMicFree + 1
  lineEq : ∀ j, j < p.itagMicFree → line q (shiftUp k j) = line p j

variable {p : Page}

theorem insert_stages (hinv : LayoutInv p) (k : Nat)
    (hk : k ≤ p.itagMicFree) (rgdata : List Data) (fFlags : Nat)
    (hfree : cbDataTotal rgdata + cbTag ≤ p.cbFree) :
    ∃ q, freeSpace env p (cbDataTotal rgdata + cbTag) = some q ∧ Repacked p q ∧
      q.cbPageHeader + q.ibMicFree + cbDataTotal rgdata + 4 * (q.itagMicFree + 1) ≤ q.cbBuffer ∧
      Expanded q k (expandTagArray env q k) ∧
      PageEdit.insert env p k rgdata fFlags =
        some (copyData ((placeTag (expandTagArray env q k) k (cbDataTotal rgdata)).tagSetFlags k
          fFlags) k rgdata) := by
  have hacc := hinv.accounting
  have hmax := hinv.normal.cbBuffer_lt
  have hmod : cbDataTotal rgdata % 65536 = cbDataTotal rgdata := Nat.mod_eq_of_lt (by omega)
  obtain ⟨q, hq, hrep, hcontiguous, -⟩ := freeSpace_spec env hinv (cbDataTotal rgdata + cbTag)
    hfree
  have hqk : k ≤ q.itagMicFree := by rwa [hrep.itagMicFree]
  have hroom : q.cbPageHeader + q.ibMicFree + cbDataTotal rgdata + 4 * (q.itagMicFree + 1) ≤
      q.cbBuffer := by
    have hcont := hrep.inv.contiguous
    simp only [cbTag] at hcontiguous
    omega
  refine ⟨q, hq, hrep, hroom, expandTagArray_spec env hrep.inv hqk (by omega), ?_⟩
  simp only [PageEdit.insert, hmod, hq, Option.bind_eq_bind, Option.bind_some, Option.pure_def]

theorem insert_spec (hinv : LayoutInv p) (k : Nat)
    (hk : k ≤ p.itagMicFree) (rgdata : List Data) (fFlags : Nat)
    (hfree : cbDataTotal rgdata + cbTag ≤ p.cbFree) :
    ∃ q, insert env p k rgdata fFlags = some q ∧ TagAdded p k q := by
  obtain ⟨q, -, hrep, hroom, hexp, heq⟩ := insert_stages env hinv k hk rgdata fFlags hfree
  have hqk : k ≤ q.itagMicFree := by rwa [hrep.itagMicFree]
  have hqfree : cbDataTotal rgdata + 4 ≤ q.cbFree := by rwa [hrep.cbFree]
  obtain ⟨hkOn, hwin, hplaced⟩ := hexp.placed hrep.inv hqk hqfree hroom
  have hwritten := (hplaced.tagSetFlags hkOn hwin fFlags
    (fun _ => ⟨le_rfl, le_rfl⟩)).copyData hkOn hwin rgdata rfl
    (fun _ => ⟨le_rfl, le_rfl⟩)
  obtain ⟨hinv', hlines⟩ := hexp.finish hrep.inv hqk hqfree hroom hwritten
  refine ⟨_, heq, hinv', ?_, ?_⟩
  · rw [hwritten.itagMicFree, hexp.itagMicFree, hrep.itagMicFree]
  · intro j hj
    rw [hlines j (by rwa [hrep.itagMicFree]), hrep.lineEq j hj]

/-- The space `IAddReservedTag` finds without looking for the new tag's own four bytes. -/
def MissesTagBytes (p : Page) (cb : Nat) : Prop :=
  (cb : Int) ≤ p.cbContiguousFree ∧ p.cbContiguousFree < cb + 4

instance (p : Page) (cb : Nat) : Decidable (MissesTagBytes p cb) :=
  inferInstanceAs (Decidable (_ ∧ _))

theorem iAddReservedTag_spec (hinv : LayoutInv p) (cb : Nat)
    (fillByte : UInt8) (hformat : env.fResvTagFormatEnabled = true)
    (hcount : p.ctagReserved < ctagReservedMax) (hk : p.ctagReserved ≤ p.itagMicFree)
    (hfree : cb + cbTag ≤ p.cbFree) (hroomy : ¬ MissesTagBytes p cb) :
    ∃ q, iAddReservedTag env p cb fillByte = some (q, some p.ctagReserved) ∧
      TagAdded p p.ctagReserved q ∧ q.ctagReserved = p.ctagReserved + 1 ∧
      q.tagData p.ctagReserved = List.replicate cb fillByte := by
  simp only [cbTag] at hfree
  obtain ⟨q, hq, hrep, hcontiguous, hcase⟩ := freeSpace_spec env hinv cb (by omega)
  have hqk : p.ctagReserved ≤ q.itagMicFree := by rwa [hrep.itagMicFree]
  have hqfree : cb + 4 ≤ q.cbFree := by rwa [hrep.cbFree]
  have hqmax := hrep.inv.normal.cbBuffer_lt
  have hroom : q.cbPageHeader + q.ibMicFree + cb + 4 * (q.itagMicFree + 1) ≤ q.cbBuffer := by
    have hcont := hrep.inv.contiguous
    simp only [MissesTagBytes] at hroomy
    split at hcase
    · omega
    · rw [hcase] at hcontiguous hcont ⊢
      omega
  have hexp := expandTagArray_spec env hrep.inv hqk (by omega)
  have hexp' := hexp.setITagState env.fResvTagFormatEnabled (p.ctagReserved + 1) (by omega) (by
    intro i hi
    simp only [TagOnPage, cbTag, hexp.shape.cbPageHeader, hexp.shape.cbBuffer]
    omega)
  obtain ⟨hkOn, hwin, hplaced⟩ := hexp'.placed hrep.inv hqk hqfree hroom
  have hib := congrArg Slot.ib hplaced.slotEq
  have hcb := congrArg Slot.cb hplaced.slotEq
  simp only [slot] at hib hcb
  have hpb := hplaced.shape.pbFromIb q.ibMicFree
  have hfilled := hplaced.writeData hwin _ (frame_fill
    (T := fun a => _ ≤ a ∧ a < _) _ (Page.pbFromIb _ q.ibMicFree) cb fillByte
    fun a hlo hhi => ⟨hlo, by simp only [Page.pbFromIb] at *; omega⟩)
  obtain ⟨hinv', hlines⟩ := hexp'.finish hrep.inv hqk hqfree hroom hfilled
  refine ⟨_, ?_, ⟨hinv', ?_, ?_⟩, ?_, ?_⟩
  · have hcond : env.fResvTagFormatEnabled = true ∧ p.ctagReserved < ctagReservedMax :=
      ⟨hformat, hcount⟩
    simp only [iAddReservedTag, if_pos hcond, hq, Option.bind_eq_bind, Option.bind_some,
      Option.pure_def, hib, hcb, hpb]
  · rw [hfilled.itagMicFree, hexp'.itagMicFree, hrep.itagMicFree]
  · intro j hj
    rw [hlines j (by rwa [hrep.itagMicFree]), hrep.lineEq j hj]
  · rw [hfilled.ctagReserved]
    change (p.ctagReserved + 1) % 65536 = _
    omega
  · have hib' := congrArg Slot.ib hfilled.slotEq
    have hcb' := congrArg Slot.cb hfilled.slotEq
    simp only [slot] at hib' hcb'
    rw [Page.tagData, hib', hcb', hfilled.shape.pbFromIb]
    exact slice_fill _ _ _ _

section Misses

theorem ibMicFree_of_frame {x y : Page} (h : Frame (fun a => 36 ≤ a) x.buf y.buf) :
    y.ibMicFree = x.ibMicFree :=
  (h.agreeOn fun a _ hhi ha => by omega).word_eq

theorem ibMicFree_fill (x : Page) (ib n : Nat) (b : UInt8) :
    (x.setBuf (fill x.buf (x.pbFromIb ib) n b)).ibMicFree = x.ibMicFree := by
  have hge := cbPageHeader_ge x
  refine ibMicFree_of_frame (frame_fill _ _ _ _ fun a hlo _ => ?_)
  simp only [Page.pbFromIb] at hlo
  omega

def zeroTag (p : Page) (k : Nat) : Page := (p.tagSetCb k 0).tagSetIb k 0

def clearTag (p : Page) (k : Nat) : Page := (zeroTag p k).tagSetFlags k 0

theorem placeTag_eq (p : Page) (k cb : Nat) :
    placeTag p k cb = let p := (clearTag p k).tagSetIb k (clearTag p k).ibMicFree
      let p := p.setIbMicFree (p.ibMicFree + cb)
      let p := p.tagSetCb k (cb % 65536)
      p.setCbFree (ushort (p.cbFree - (cb + cbTag))) :=
  rfl

theorem zeroTag_tagCb (p : Page) (k : Nat) : (zeroTag p k).tagCb k = 0 := by
  have hslot := slot_tagSetIb (p := p.tagSetCb k 0) (i := k) 0 (Nat.two_pow_pos _)
  have hslot' := slot_tagSetCb (p := p) (i := k) 0 (Nat.two_pow_pos _)
  exact (congrArg Slot.cb hslot).trans (congrArg Slot.cb hslot')

theorem clearTag_frame (p : Page) (k : Nat) :
    Frame (fun a => p.ptagFromItag k ≤ a ∧ a < p.ptagFromItag k + 4) p.buf (clearTag p k).buf := by
  refine ((tagSetCb_frame p k 0).mono fun a ha => by omega).trans
    (((tagSetIb_frame (p.tagSetCb k 0) k 0).mono fun a ha => ?_).trans
      ((tagSetFlags_frame (zeroTag p k) k 0).mono fun a ha => ?_))
  · change p.ptagFromItag k + 2 ≤ a ∧ a < p.ptagFromItag k + 4 at ha
    omega
  · rw [zeroTag_tagCb] at ha
    change (p.ptagFromItag k + 2 ≤ a ∧ a < p.ptagFromItag k + 4) ∨ _ at ha
    omega

theorem sameShape_clearTag (p : Page) (k : Nat) : SameShape p (clearTag p k) :=
  SameShape.trans (sameShape_setBuf _ _) (sameShape_tagSetFlags (zeroTag p k) k 0)

theorem placeTag_ibMicFree {e : Page} {k : Nat} (cb : Nat) (hptag : 36 ≤ e.ptagFromItag k) :
    (placeTag e k cb).ibMicFree = (e.ibMicFree + cb) % 65536 ∧
      (placeTag e k cb).itagMicFree = e.itagMicFree ∧ SameShape e (placeTag e k cb) := by
  have hshape := sameShape_clearTag e k
  have hib : Frame (fun a => 36 ≤ a) e.buf
      ((clearTag e k).tagSetIb k (clearTag e k).ibMicFree).buf := by
    refine ((clearTag_frame e k).mono fun a ha => by omega).trans
      ((tagSetIb_frame _ k _).mono fun a ha => ?_)
    rw [hshape.ptagFromItag] at ha
    omega
  refine ⟨?_, tagSetFlags_itagMicFree _ _ _, hshape.trans ⟨rfl, rfl⟩⟩
  have hmic (x : Page) (v w : Nat) (hx : e.ptagFromItag k = x.ptagFromItag k) :
      (((x.setIbMicFree v).tagSetCb k (cb % 65536)).setCbFree w).ibMicFree = v % 65536 := by
    have hset : (x.setIbMicFree v).ibMicFree = v % 65536 := word_setWord _ _ _
    rw [← hset, ← ibMicFree_of_frame (x := x.setIbMicFree v)
      ((tagSetCb_frame (x.setIbMicFree v) k (cb % 65536)).mono fun a ha => ?_)]
    · exact word_setWord_of_disjoint _ _ _ _ (by omega)
    · change x.ptagFromItag k ≤ a ∧ _ at ha
      omega
  exact (hmic ((clearTag e k).tagSetIb k _) _ _ (hshape.ptagFromItag k).symm).trans
    (congrArg (fun ib => (ib + cb) % 65536) (ibMicFree_of_frame hib))

/-- Where the contiguous bytes suffice for the data but not for the tag, the new tag array
runs into the data. -/
theorem iAddReservedTag_misses (hinv : LayoutInv p) (cb : Nat)
    (fillByte : UInt8) (hformat : env.fResvTagFormatEnabled = true)
    (hcount : p.ctagReserved < ctagReservedMax) (hk : p.ctagReserved ≤ p.itagMicFree)
    (hmisses : MissesTagBytes p cb) :
    ∃ q, iAddReservedTag env p cb fillByte = some (q, some p.ctagReserved) ∧ ¬ LayoutInv q := by
  obtain ⟨hsuffices, hshort⟩ := hmisses
  have hcont := hinv.contiguous
  have hmax := hinv.normal.cbBuffer_lt
  have hge := cbPageHeader_ge p
  have hfound : freeSpace env p cb = some p := by
    have hlt : ¬ p.cbContiguousFree < cb := Int.not_lt.mpr hsuffices
    simp [freeSpace, hlt, hsuffices]
  -- the tag array, one tag longer, still ends past the counters of the header
  have hptag i (hi : i ≤ p.itagMicFree) : 36 ≤ p.ptagFromItag i := by
    simp only [Page.ptagFromItag, cbTag]
    omega
  have hshifted : Frame (fun a => 36 ≤ a) p.buf (shifted p p.ctagReserved).buf :=
    frame_move _ _ _ _ fun a hlo _ => le_trans (hptag _ (le_rfl)) hlo
  obtain ⟨e, he⟩ : ∃ e, e = (expandTagArray env p p.ctagReserved).setITagState
      env.fResvTagFormatEnabled (expandTagArray env p p.ctagReserved).itagMicFree
      (p.ctagReserved + 1) := ⟨_, rfl⟩
  have hshape : SameShape p e := by
    rw [he, expandTagArray_eq]
    exact ⟨rfl, rfl⟩
  have hmic : e.ibMicFree = p.ibMicFree := by
    rw [he, (setITagState_keeps _ _ _ _).2.1, expandTagArray_eq, (setITagState_keeps _ _ _ _).2.1]
    exact ibMicFree_of_frame hshifted
  have hcountE : e.itagMicFree = p.itagMicFree + 1 := by
    rw [he, expandTagArray_eq]
    change (p.itagMicFree + 1) % 65536 % 65536 = _
    omega
  obtain ⟨hplaced, hplacedCount, hplacedShape⟩ :=
    placeTag_ibMicFree (e := e) (k := p.ctagReserved) cb
      (by rw [hshape.ptagFromItag]; exact hptag _ hk)
  generalize hx : placeTag e p.ctagReserved cb = x at hplaced hplacedCount hplacedShape
  refine ⟨x.setBuf (fill x.buf (x.pbFromIb (x.tagIb p.ctagReserved)) (x.tagCb p.ctagReserved)
    fillByte), ?_, fun hbad => ?_⟩
  · have hcond : env.fResvTagFormatEnabled = true ∧ p.ctagReserved < ctagReservedMax :=
      ⟨hformat, hcount⟩
    simp only [iAddReservedTag, if_pos hcond, hfound, Option.bind_eq_bind, Option.bind_some,
      Option.pure_def, ← hx, he]
  · have hbadFits := hbad.fits
    have hshape' := hshape.trans hplacedShape
    rw [ibMicFree_fill, hplaced, hmic, setBuf_itagMicFree, hplacedCount, hcountE,
      Nat.mod_eq_of_lt (by omega)] at hbadFits
    change x.cbPageHeader + _ + _ ≤ x.cbBuffer at hbadFits
    rw [hshape'.cbPageHeader, hshape'.cbBuffer] at hbadFits
    omega

end Misses

end EseLinux.PageInsert
