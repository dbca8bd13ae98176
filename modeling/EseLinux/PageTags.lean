import EseLinux.PageFormat
import EseLinux.SlotLayout

/-!
Reading and writing single tags: what each `TAG` setter stores and which bytes it leaves alone.
-/

namespace EseLinux.PageTags

open BitField ByteMemory PageFormat SlotLayout Page

structure Line where
  fFlags : Nat
  data : List UInt8
deriving DecidableEq, Repr

def slot (p : Page) (itag : Nat) : Slot :=
  ⟨p.tagIb itag, p.tagCb itag⟩

def line (p : Page) (itag : Nat) : Line :=
  ⟨p.tagFFlags itag, p.tagData itag⟩

structure NormalSized (p : Page) : Prop where
  size : SupportedPageSize p.cbPage
  cbBuffer_eq : p.cbBuffer = p.cbPage

def TagOnPage (p : Page) (itag : Nat) : Prop :=
  p.cbPageHeader + cbTag * (itag + 1) ≤ p.cbBuffer

section Shape

variable (p : Page) (m : Memory)

@[simp] theorem setBuf_buf : (p.setBuf m).buf = m := rfl
@[simp] theorem setBuf_cbBuffer : (p.setBuf m).cbBuffer = p.cbBuffer := rfl
@[simp] theorem setBuf_itagMicFree : (p.setBuf m).itagMicFree = p.itagMicFree := rfl

structure SameShape (p p' : Page) : Prop where
  cbPage : p'.cbPage = p.cbPage
  cbBuffer : p'.cbBuffer = p.cbBuffer

theorem sameShape_setBuf : SameShape p (p.setBuf m) := ⟨rfl, rfl⟩

variable {p}
variable {p' p'' : Page}

theorem SameShape.refl (p : Page) : SameShape p p := ⟨rfl, rfl⟩

section

variable (h : SameShape p p')
include h

theorem SameShape.trans (h' : SameShape p' p'') : SameShape p p'' :=
  ⟨h'.cbPage.trans h.cbPage, h'.cbBuffer.trans h.cbBuffer⟩

theorem SameShape.fSmallPageFormat : p'.fSmallPageFormat = p.fSmallPageFormat := by
  simp only [Page.fSmallPageFormat, h.cbPage]

theorem SameShape.cbPageHeader : p'.cbPageHeader = p.cbPageHeader := by
  simp only [Page.cbPageHeader, h.fSmallPageFormat]

theorem SameShape.mskTagIbCb : p'.mskTagIbCb = p.mskTagIbCb := by
  simp only [Page.mskTagIbCb, h.fSmallPageFormat]

theorem SameShape.ptagFromItag (itag : Nat) : p'.ptagFromItag itag = p.ptagFromItag itag := by
  simp only [Page.ptagFromItag, h.cbBuffer]

theorem SameShape.pbFromIb (ib : Nat) : p'.pbFromIb ib = p.pbFromIb ib := by
  simp only [Page.pbFromIb, h.cbPageHeader]

end

end Shape

def cbitTagIbCb (p : Page) : Nat :=
  if p.fSmallPageFormat then 13 else 15

theorem mskTagIbCb_eq (p : Page) : p.mskTagIbCb = 2 ^ cbitTagIbCb p - 1 := by
  simp only [mskTagIbCb, cbitTagIbCb]
  split <;> rfl

theorem cbitTagIbCb_le (p : Page) : cbitTagIbCb p ≤ 16 := by
  simp only [cbitTagIbCb]
  split <;> decide

theorem and_mskTagIbCb (p : Page) (w : Nat) : w &&& p.mskTagIbCb = w % 2 ^ cbitTagIbCb p := by
  rw [mskTagIbCb_eq, Nat.and_two_pow_sub_one_eq_mod]

variable {p : Page}

theorem NormalSized.lt_two_pow (h : NormalSized p) {v : Nat}
    (hv : v + p.cbPageHeader ≤ p.cbBuffer) : v < 2 ^ cbitTagIbCb p := by
  have hsize := h.size
  rw [h.cbBuffer_eq] at hv
  simp only [cbPageHeader, cbitTagIbCb, fSmallPageFormat, fIsSmallPage,
    SupportedPageSize, decide_eq_true_eq] at *
  split at hv <;> split <;> omega

theorem NormalSized.cbBuffer_lt (h : NormalSized p) : p.cbBuffer ≤ 32768 := by
  have hsize := h.size
  rw [h.cbBuffer_eq]
  simp only [SupportedPageSize] at hsize
  omega

theorem NormalSized.cbPageHeader_le (h : NormalSized p) : p.cbPageHeader ≤ p.cbBuffer := by
  have hsize := h.size
  rw [h.cbBuffer_eq]
  simp only [cbPageHeader, SupportedPageSize] at *
  split <;> omega

theorem NormalSized.of_sameShape {p' : Page} (h : NormalSized p) (hshape : SameShape p p') :
    NormalSized p' where
  size := by
    rw [hshape.cbPage]
    exact h.size
  cbBuffer_eq := by
    rw [hshape.cbPage, hshape.cbBuffer]
    exact h.cbBuffer_eq

theorem setLow_spec (p : Page) (w v : Nat) (hw : w < 65536) (hv : v < 2 ^ cbitTagIbCb p) :
    let w' := (w &&& (0xffff ^^^ p.mskTagIbCb)) ||| v
    w' < 65536 ∧ w' &&& p.mskTagIbCb = v ∧ w' / 2 ^ cbitTagIbCb p = w / 2 ^ cbitTagIbCb p := by
  have h := overwrite_low w 16 (cbitTagIbCb p) v hw (cbitTagIbCb_le p) hv
  rw [mskTagIbCb_eq]
  refine ⟨h.1, ?_, h.2.2⟩
  rw [Nat.and_two_pow_sub_one_eq_mod]
  exact h.2.1

theorem and_mskTagFlags_shiftRight (w : Nat) (hw : w < 65536) :
    (w &&& mskTagFlags) >>> shfTagFlags = w / 2 ^ 13 := by
  have hmask : mskTagFlags = (2 ^ 16 - 1) ^^^ (2 ^ 13 - 1) := by decide
  rw [hmask, and_xor_mask w 16 13 hw (by decide), shfTagFlags, Nat.shiftRight_eq_div_pow,
    Nat.mul_div_cancel_left _ (Nat.two_pow_pos 13)]

theorem setFlags_word (w fFlags : Nat) :
    (w &&& (0xffff ^^^ mskTagFlags)) ||| (fFlags <<< shfTagFlags) =
      w % 2 ^ 13 + 2 ^ 13 * fFlags :=
  and_mask_or_shiftLeft w 13 fFlags

def flagsOfData : List UInt8 → Nat
  | _ :: b :: _ => b.toNat / 32
  | _ => 0

theorem slice_of_two_le (m : Memory) (a n : Nat) (hn : 2 ≤ n) :
    slice m a n = m a :: m (a + 1) :: slice m (a + 2) (n - 2) := by
  have happ := slice_append m a 2 (n - 2)
  rw [Nat.add_sub_cancel' hn] at happ
  rw [← happ]
  rfl

theorem tagFFlags_of_large (p : Page) (i : Nat) (hlarge : p.fSmallPageFormat = false) :
    p.tagFFlags i = flagsOfData (p.tagData i) := by
  simp only [tagFFlags, hlarge, Bool.false_eq_true, if_false, tagData]
  split
  case isTrue htwo =>
    rw [slice_of_two_le _ _ _ htwo, and_mskTagFlags_shiftRight _ (word_lt _ _)]
    have hlow := (p.buf (p.pbFromIb (p.tagIb i))).toNat_lt
    simp only [flagsOfData, word]
    omega
  case isFalse htwo =>
    have hcases : p.tagCb i = 0 ∨ p.tagCb i = 1 := by omega
    rcases hcases with hcb | hcb <;> rw [hcb] <;> rfl

section Congruence

variable {p p' : Page} {i j : Nat}

section

variable (hshape : SameShape p p')
include hshape

theorem line_ext (hdata : p'.tagData j = p.tagData i) (hflags : p.fSmallPageFormat = true →
      word p'.buf (p.ptagFromItag j + 2) / 2 ^ 13 = word p.buf (p.ptagFromItag i + 2) / 2 ^ 13) :
    line p' j = line p i := by
  have hfflags : p'.tagFFlags j = p.tagFFlags i := by
    cases hsmall : p.fSmallPageFormat with
    | true =>
      simp only [tagFFlags, hshape.fSmallPageFormat, hsmall, if_true,
        hshape.ptagFromItag, and_mskTagFlags_shiftRight _ (word_lt _ _), hflags hsmall]
    | false =>
      have hsmall' : p'.fSmallPageFormat = false := hshape.fSmallPageFormat.trans hsmall
      rw [tagFFlags_of_large _ _ hsmall, tagFFlags_of_large _ _ hsmall', hdata]
  simp only [line, hfflags, hdata]

theorem slot_congr (hcb : word p'.buf (p.ptagFromItag j) = word p.buf (p.ptagFromItag i))
    (hib : word p'.buf (p.ptagFromItag j + 2) = word p.buf (p.ptagFromItag i + 2)) :
    slot p' j = slot p i := by
  simp only [slot, tagIb, tagCb, hshape.ptagFromItag, hshape.mskTagIbCb, hcb, hib]

theorem line_congr (hcb : word p'.buf (p.ptagFromItag j) = word p.buf (p.ptagFromItag i))
    (hib : word p'.buf (p.ptagFromItag j + 2) = word p.buf (p.ptagFromItag i + 2))
    (hdata : AgreeOn p.buf p'.buf (p.pbFromIb (p.tagIb i)) (p.tagCb i)) : line p' j = line p i := by
  have hslot := slot_congr hshape hcb hib
  have hcbEq : p'.tagCb j = p.tagCb i := congrArg Slot.cb hslot
  have hibEq : p'.tagIb j = p.tagIb i := congrArg Slot.ib hslot
  refine line_ext hshape ?_ fun _ => by rw [hib]
  simp only [tagData, hcbEq, hibEq, hshape.pbFromIb, hdata.slice_eq]

theorem slot_eq_of_agreeOn
    (htag : AgreeOn p.buf p'.buf (p.ptagFromItag i) 4) : slot p' i = slot p i :=
  slot_congr hshape htag.words_eq.1 htag.words_eq.2

theorem line_eq_of_agreeOn (htag : AgreeOn p.buf p'.buf (p.ptagFromItag i) 4)
    (hdata : AgreeOn p.buf p'.buf (p.pbFromIb (p.tagIb i)) (p.tagCb i)) : line p' i = line p i :=
  line_congr hshape htag.words_eq.1 htag.words_eq.2 hdata

end

end Congruence

section Setters

variable {p : Page} {i j : Nat}

theorem ptagFromItag_disjoint (hi : TagOnPage p i) (hj : TagOnPage p j) (hne : i ≠ j) :
    p.ptagFromItag i + 4 ≤ p.ptagFromItag j ∨ p.ptagFromItag j + 4 ≤ p.ptagFromItag i := by
  simp only [TagOnPage, cbTag, ptagFromItag] at *
  omega

theorem cbPageHeader_le_ptagFromItag (hi : TagOnPage p i) :
    p.cbPageHeader ≤ p.ptagFromItag i := by
  simp only [TagOnPage, cbTag, ptagFromItag] at *
  omega

theorem cbPageHeader_ge (p : Page) : 40 ≤ p.cbPageHeader := by
  simp only [cbPageHeader]
  split <;> decide

theorem tagSetCb_frame (p : Page) (i v : Nat) :
    Frame (fun a => p.ptagFromItag i ≤ a ∧ a < p.ptagFromItag i + 2) p.buf
      (p.tagSetCb i v).buf :=
  frame_setWord _ _ _ fun _ hlo hhi => ⟨hlo, hhi⟩

theorem tagSetIb_frame (p : Page) (i v : Nat) :
    Frame (fun a => p.ptagFromItag i + 2 ≤ a ∧ a < p.ptagFromItag i + 4) p.buf
      (p.tagSetIb i v).buf :=
  frame_setWord _ _ _ fun _ hlo hhi => ⟨hlo, hhi⟩

theorem slot_tagSetCb (v : Nat) (hv : v < 2 ^ cbitTagIbCb p) :
    slot (p.tagSetCb i v) i = ⟨p.tagIb i, v⟩ := by
  have hspec := setLow_spec p (word p.buf (p.ptagFromItag i)) v (word_lt _ _) hv
  have hcb : (p.tagSetCb i v).tagCb i = v := by
    change word (setWord _ _ _) (p.ptagFromItag i) &&& p.mskTagIbCb = v
    rw [word_setWord_of_lt _ _ _ hspec.1]
    exact hspec.2.1
  have hib : (p.tagSetCb i v).tagIb i = p.tagIb i := by
    change word (setWord _ _ _) (p.ptagFromItag i + 2) &&& p.mskTagIbCb = _
    rw [word_setWord_of_disjoint _ _ _ _ (Or.inr (le_refl _))]
    rfl
  simp only [slot, hcb, hib]

theorem slot_tagSetIb (v : Nat) (hv : v < 2 ^ cbitTagIbCb p) :
    slot (p.tagSetIb i v) i = ⟨v, p.tagCb i⟩ := by
  have hspec := setLow_spec p (word p.buf (p.ptagFromItag i + 2)) v (word_lt _ _) hv
  have hib : (p.tagSetIb i v).tagIb i = v := by
    change word (setWord _ _ _) (p.ptagFromItag i + 2) &&& p.mskTagIbCb = v
    rw [word_setWord_of_lt _ _ _ hspec.1]
    exact hspec.2.1
  have hcb : (p.tagSetIb i v).tagCb i = p.tagCb i := by
    change word (setWord _ _ _) (p.ptagFromItag i) &&& p.mskTagIbCb = _
    rw [word_setWord_of_disjoint _ _ _ _ (Or.inl (le_refl _))]
    rfl
  simp only [slot, hcb, hib]

theorem word_tagSetIb_div (v : Nat) (hv : v < 2 ^ cbitTagIbCb p) :
    word (p.tagSetIb i v).buf (p.ptagFromItag i + 2) / 2 ^ cbitTagIbCb p =
      word p.buf (p.ptagFromItag i + 2) / 2 ^ cbitTagIbCb p := by
  have hspec := setLow_spec p (word p.buf (p.ptagFromItag i + 2)) v (word_lt _ _) hv
  change word (setWord _ _ _) _ / _ = _
  rw [word_setWord_of_lt _ _ _ hspec.1]
  exact hspec.2.2

theorem sameShape_tagSetFlags (p : Page) (i fFlags : Nat) :
    SameShape p (p.tagSetFlags i fFlags) := by
  simp only [tagSetFlags]
  split
  · exact sameShape_setBuf _ _
  · split
    · exact sameShape_setBuf _ _
    · exact SameShape.refl _

@[simp] theorem tagSetFlags_itagMicFree (p : Page) (i fFlags : Nat) :
    (p.tagSetFlags i fFlags).itagMicFree = p.itagMicFree := by
  simp only [tagSetFlags]
  split
  · rfl
  · split <;> rfl

@[simp] theorem tagSetFlags_ctagReserved (p : Page) (i fFlags : Nat) :
    (p.tagSetFlags i fFlags).ctagReserved = p.ctagReserved := by
  simp only [tagSetFlags]
  split
  · rfl
  · split <;> rfl

theorem tagSetFlags_frame (p : Page) (i fFlags : Nat) :
    Frame (fun a => (p.ptagFromItag i + 2 ≤ a ∧ a < p.ptagFromItag i + 4) ∨
      (p.pbFromIb (p.tagIb i) ≤ a ∧ a < p.pbFromIb (p.tagIb i) + p.tagCb i)) p.buf
      (p.tagSetFlags i fFlags).buf := by
  simp only [tagSetFlags]
  split
  · exact frame_setWord _ _ _ fun _ hlo hhi => Or.inl ⟨hlo, hhi⟩
  · split
    · exact frame_setWord _ _ _ fun _ hlo hhi => Or.inr ⟨hlo, by omega⟩
    · exact Frame.refl _ _

theorem slot_tagSetFlags (fFlags : Nat) (hi : TagOnPage p i) (hj : TagOnPage p j)
    (hdata : p.tagCb i ≠ 0 → p.pbFromIb (p.tagIb i) + p.tagCb i ≤ p.ptagFromItag j) :
    slot (p.tagSetFlags i fFlags) j = slot p j := by
  by_cases hself : p.fSmallPageFormat ∧ i = j
  · obtain ⟨hsmall, rfl⟩ := hself
    have hword : word (p.tagSetFlags i fFlags).buf (p.ptagFromItag i + 2) % 2 ^ 13 =
        word p.buf (p.ptagFromItag i + 2) % 2 ^ 13 := by
      simp only [tagSetFlags, hsmall, if_true, setFlagsAt, setBuf_buf]
      rw [word_setWord, setFlags_word]
      omega
    have hcb : word (p.tagSetFlags i fFlags).buf (p.ptagFromItag i) =
        word p.buf (p.ptagFromItag i) := by
      simp only [tagSetFlags, hsmall, if_true, setFlagsAt, setBuf_buf]
      exact word_setWord_of_disjoint _ _ _ _ (Or.inl (le_refl _))
    have hshape := sameShape_tagSetFlags p i fFlags
    have hbits : cbitTagIbCb p = 13 := by simp [cbitTagIbCb, hsmall]
    simp only [slot, tagIb, tagCb, hshape.ptagFromItag, hshape.mskTagIbCb, hcb,
      and_mskTagIbCb, hbits, hword]
  · refine slot_eq_of_agreeOn (sameShape_tagSetFlags p i fFlags) ?_
    simp only [tagSetFlags]
    split
    case isTrue hsmall =>
      have hne : i ≠ j := fun h => hself ⟨hsmall, h⟩
      have hdisj := ptagFromItag_disjoint hi hj hne
      exact setWord_agreeOn _ _ _ _ _ (by omega)
    case isFalse =>
      split
      case isTrue hcb =>
        exact setWord_agreeOn _ _ _ _ _ (by omega)
      case isFalse => exact fun _ _ _ => rfl

end Setters

end EseLinux.PageTags
