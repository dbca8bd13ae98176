import EseLinux.PageGaps

/-!
Two pages that differ only in the data area.  Placement on a page depends on its header and its
tags, so the same operations keep two such pages alike whatever bytes their lines hold.
-/

namespace EseLinux.PageAlike

open ByteMemory PageDelete PageEdit PageFormat PageInsert PageLayout PageReorganize PageReplace
open Page
open List
  PageTags PageWrite SlotLayout

/-- The checksum of the header, and the three further ones of a large page. -/
def InChecksum (p : Page) (a : Nat) : Prop :=
  a < 8 ∨ (p.fSmallPageFormat = false ∧ 40 ≤ a ∧ a < 64)

/-- The bytes that matter for placement: the header but for checksums, and the first `n` tags. -/
def Lit (p : Page) (n a : Nat) : Prop :=
  (a < p.cbPageHeader ∧ ¬ InChecksum p a) ∨ (p.cbBuffer ≤ a + 4 * n ∧ a < p.cbBuffer)

/-- Pages with the same header and the same first `n` tags. -/
structure Alike (n : Nat) (p p' : Page) : Prop where
  shape : SameShape p p'
  itagMicFree : p'.itagMicFree = p.itagMicFree
  ctagReserved : p'.ctagReserved = p.ctagReserved
  agree : ∀ a, Lit p n a → p'.buf a = p.buf a

section Lit

variable {p : Page} {n a i : Nat}

theorem lit_header (hlo : 8 ≤ a) (hhi : a < 40) : Lit p n a := by
  refine Or.inl ⟨hhi.trans_le (cbPageHeader_ge p), ?_⟩
  rintro (h | ⟨-, h, -⟩)
  · omega
  · omega

theorem lit_tag (hi : i < n) (hon : TagOnPage p i) (hlo : p.ptagFromItag i ≤ a)
    (hhi : a < p.ptagFromItag i + 4) : Lit p n a := by
  simp only [TagOnPage, ptagFromItag, cbTag] at *
  exact Or.inr ⟨by omega, by omega⟩

theorem not_lit (hlo : p.cbPageHeader ≤ a) (hhi : a + 4 * n < p.cbBuffer) : ¬ Lit p n a := by
  rintro (⟨h, -⟩ | ⟨h, -⟩)
  · omega
  · omega

end Lit

variable {a : Nat}

section Fields

variable {n : Nat} {p p' : Page}

section

variable (h : Alike n p p')
include h

theorem Alike.agreeOn {k : Nat} (hlit : ∀ b, a ≤ b → b < a + k → Lit p n b) :
    AgreeOn p.buf p'.buf a k :=
  fun b hlo hhi => h.agree b (hlit b hlo hhi)

theorem Alike.headerWord (hlo : 8 ≤ a) (hhi : a + 2 ≤ 40) : word p'.buf a = word p.buf a :=
  (h.agreeOn fun b hb hb' => lit_header (by omega) (by omega)).word_eq

theorem Alike.cbFree : p'.cbFree = p.cbFree := h.headerWord (by decide) (by decide)

theorem Alike.ibMicFree : p'.ibMicFree = p.ibMicFree := h.headerWord (by decide) (by decide)

theorem Alike.itagState : p'.itagState = p.itagState := h.headerWord (by decide) (by decide)

theorem Alike.cbContiguousBufferFree : p'.cbContiguousBufferFree = p.cbContiguousBufferFree := by
  simp only [Page.cbContiguousBufferFree, Page.cbBufferData, Page.cbTagArray, h.shape.cbBuffer,
    h.shape.cbPageHeader, h.ibMicFree, h.itagMicFree]

theorem Alike.cbContiguousFree : p'.cbContiguousFree = p.cbContiguousFree := by
  simp only [Page.cbContiguousFree, Page.cbAdjustForPage, h.cbContiguousBufferFree,
    h.shape.cbBuffer, h.shape.cbPage]

end

variable {i : Nat} (h : Alike n p p') (hi : i < n) (hon : TagOnPage p i)

include h hi hon

theorem Alike.tag : AgreeOn p.buf p'.buf (p.ptagFromItag i) 4 :=
  h.agreeOn fun _ hlo hhi => lit_tag hi hon hlo hhi

theorem Alike.slot : slot p' i = slot p i := slot_eq_of_agreeOn h.shape (h.tag hi hon)

theorem Alike.tagCb : p'.tagCb i = p.tagCb i := congrArg Slot.cb (h.slot hi hon)

theorem Alike.tagIb : p'.tagIb i = p.tagIb i := congrArg Slot.ib (h.slot hi hon)

end Fields

variable {v' v : Nat}

section Writes

variable {n : Nat} {p p' : Page}

section

variable (h : Alike n p p')
include h

theorem Alike.mono {m : Nat} (hle : m ≤ n) : Alike m p p' where
  shape := h.shape
  itagMicFree := h.itagMicFree
  ctagReserved := h.ctagReserved
  agree := by
    rintro a (ha | ⟨hlo, hhi⟩)
    · exact h.agree a (Or.inl ha)
    · exact h.agree a (Or.inr ⟨by omega, hhi⟩)

theorem Alike.grow (hslot : AgreeOn p.buf p'.buf (p.ptagFromItag n) 4) : Alike (n + 1) p p' where
  shape := h.shape
  itagMicFree := h.itagMicFree
  ctagReserved := h.ctagReserved
  agree := by
    rintro a (ha | ⟨hlo, hhi⟩)
    · exact h.agree a (Or.inl ha)
    · rcases lt_or_ge (a + 4 * n) p.cbBuffer with hnew | hold
      · refine hslot a ?_ ?_
        · simp only [ptagFromItag, cbTag]
          omega
        · simp only [ptagFromItag, cbTag]
          omega
      · exact h.agree a (Or.inr ⟨hold, hhi⟩)

theorem Alike.setBuf {m m' : Memory} (hagree : ∀ a, Lit p n a → p'.buf a = p.buf a → m' a = m a) :
    Alike n (p.setBuf m) (p'.setBuf m') where
  shape := ⟨h.shape.cbPage, h.shape.cbBuffer⟩
  itagMicFree := h.itagMicFree
  ctagReserved := h.ctagReserved
  agree := fun a ha => hagree a ha (h.agree a ha)

theorem Alike.setWord (a : Nat) {w w' : Nat} (hw : w' = w) :
    Alike n (p.setBuf (setWord p.buf a w)) (p'.setBuf (setWord p'.buf a w')) := by
  subst hw
  exact h.setBuf fun b _ hb => setWord_congr fun _ _ => hb

theorem Alike.fill (a k : Nat) (b : UInt8) :
    Alike n (p.setBuf (fill p.buf a k b)) (p'.setBuf (fill p'.buf a k b)) :=
  h.setBuf fun _ _ hb => fill_congr fun _ => hb

theorem Alike.scribble (lo hi : Nat) (hlo : p.cbPageHeader ≤ lo)
    (hhi : lo < hi → hi + 4 * n ≤ p.cbBuffer) {m m' : Memory}
    (hm : Frame (fun a => lo ≤ a ∧ a < hi) p.buf m)
    (hm' : Frame (fun a => lo ≤ a ∧ a < hi) p'.buf m') : Alike n (p.setBuf m) (p'.setBuf m') := by
  refine h.setBuf fun a ha hb => ?_
  have hout : ¬ (lo ≤ a ∧ a < hi) := by
    rintro ⟨h₁, h₂⟩
    exact not_lit (by omega) (by omega) ha
  rw [hm a hout, hm' a hout, hb]

theorem Alike.setCbFree (hv : v' = v) : Alike n (p.setCbFree v) (p'.setCbFree v') := h.setWord 28 hv

theorem Alike.setIbMicFree (hv : v' = v) : Alike n (p.setIbMicFree v) (p'.setIbMicFree v') :=
  h.setWord 32 hv

theorem Alike.setITagState (fResv : Bool) {i i' c c' : Nat} (hi : i' = i)
    (hc : c' = c) : Alike n (p.setITagState fResv i c) (p'.setITagState fResv i' c') := by
  subst hi hc
  have hvalue :
      (if fResv ∨ 0 < (p'.itagState &&& 0x7000) >>> 12 then (c' <<< 12) ||| i' else i') =
        if fResv ∨ 0 < (p.itagState &&& 0x7000) >>> 12 then (c' <<< 12) ||| i' else i' := by
    rw [h.itagState]
  exact ⟨⟨h.shape.cbPage, h.shape.cbBuffer⟩, rfl, rfl, (h.setWord 34 hvalue).agree⟩

end

end Writes

/-- The bits of a tag word that the setter of an offset or a size keeps. -/
def keptBits (p : Page) (w : Nat) : Nat := w &&& (0xffff ^^^ p.mskTagIbCb)

section Tags

variable {n i : Nat} {p p' : Page}

theorem Alike.tagSetCb_of_kept (h : Alike n p p') (hv : v' = v)
    (hkept : keptBits p (word p'.buf (p.ptagFromItag i)) =
      keptBits p (word p.buf (p.ptagFromItag i))) :
    Alike n (p.tagSetCb i v) (p'.tagSetCb i v') := by
  simp only [tagSetCb, h.shape.ptagFromItag, h.shape.mskTagIbCb]
  refine h.setWord _ ?_
  rw [hv]
  exact congrArg (· ||| v) hkept

theorem Alike.tagSetIb_of_kept (h : Alike n p p') (hv : v' = v)
    (hkept : keptBits p (word p'.buf (p.ptagFromItag i + 2)) =
      keptBits p (word p.buf (p.ptagFromItag i + 2))) :
    Alike n (p.tagSetIb i v) (p'.tagSetIb i v') := by
  simp only [tagSetIb, h.shape.ptagFromItag, h.shape.mskTagIbCb]
  refine h.setWord _ ?_
  rw [hv]
  exact congrArg (· ||| v) hkept

section Visible

variable (h : Alike n p p') (hi : i < n) (hon : TagOnPage p i)

include h hi hon

theorem Alike.ibWord :
    word p'.buf (p.ptagFromItag i + 2) = word p.buf (p.ptagFromItag i + 2) :=
  ((h.tag hi hon).mono (by omega) (by omega)).word_eq

theorem Alike.tagSetCb (hv : v' = v) : Alike n (p.tagSetCb i v) (p'.tagSetCb i v') :=
  h.tagSetCb_of_kept hv (congrArg _ ((h.tag hi hon).mono (le_rfl) (by omega)).word_eq)

theorem Alike.tagSetIb (hv : v' = v) : Alike n (p.tagSetIb i v) (p'.tagSetIb i v') :=
  h.tagSetIb_of_kept hv (congrArg _ (h.ibWord hi hon))

theorem Alike.tagFFlags (hsmall : p.fSmallPageFormat = true) :
    p'.tagFFlags i = p.tagFFlags i := by
  simp only [Page.tagFFlags, h.shape.fSmallPageFormat, hsmall, if_true, h.shape.ptagFromItag,
    h.ibWord hi hon]

theorem Alike.tagSetFlags {f f' : Nat}
    (hf : p.fSmallPageFormat = true → f' = f)
    (hdark : p.fSmallPageFormat = false → 2 ≤ p.tagCb i →
      p.pbFromIb (p.tagIb i) + 2 + 4 * n ≤ p.cbBuffer) :
    Alike n (p.tagSetFlags i f) (p'.tagSetFlags i f') := by
  cases hformat : p.fSmallPageFormat with
  | true =>
    simp only [Page.tagSetFlags, h.shape.fSmallPageFormat, hformat, if_true, Page.setFlagsAt,
      h.shape.ptagFromItag, h.ibWord hi hon, hf hformat]
    exact h.setWord _ rfl
  | false =>
    simp only [Page.tagSetFlags, h.shape.fSmallPageFormat, hformat, Bool.false_eq_true, if_false,
      h.tagCb hi hon, h.tagIb hi hon, h.shape.pbFromIb]
    split
    case isTrue htwo =>
      refine h.scribble (p.pbFromIb (p.tagIb i)) _ (Nat.le_add_right _ _)
        (fun _ => hdark hformat htwo.2)
        (frame_setWord _ _ _ fun a hlo hhi => ⟨hlo, hhi⟩)
        (frame_setWord _ _ _ fun a hlo hhi => ⟨hlo, hhi⟩)
    case isFalse => exact h

theorem Alike.copyData {rgdata rgdata' : List Data}
    (hcb : p.tagCb i = cbDataTotal rgdata) (hcb' : cbDataTotal rgdata' = cbDataTotal rgdata)
    (hdark : p.tagCb i ≠ 0 → p.pbFromIb (p.tagIb i) + p.tagCb i + 4 * n ≤ p.cbBuffer) :
    Alike n (PageEdit.copyData p i rgdata) (PageEdit.copyData p' i rgdata') := by
  have hframe := copyPieces_frame p.buf (p.pbFromIb (p.tagIb i)) rgdata
  have hframe' := copyPieces_frame p'.buf (p.pbFromIb (p.tagIb i)) rgdata'
  rw [hcb'] at hframe'
  have hheader : p.cbPageHeader ≤ p.pbFromIb (p.tagIb i) := Nat.le_add_right _ _
  have hcopied := h.scribble _ _ hheader (fun hlt => by
    omega) hframe hframe'
  simp only [PageEdit.copyData, h.tagIb hi hon, h.shape.pbFromIb]
  split
  case isFalse => exact hcopied
  case isTrue hne =>
    have hslot : PageTags.slot (p.setBuf (copyPieces p.buf (p.pbFromIb (p.tagIb i)) rgdata)) i =
        PageTags.slot p i := by
      refine slot_eq_of_agreeOn ⟨rfl, rfl⟩ (hframe.agreeOn fun a hlo hhi hin => ?_)
      simp only [ptagFromItag, cbTag] at hlo
      omega
    have hcbEq : (p.setBuf (copyPieces p.buf (p.pbFromIb (p.tagIb i)) rgdata)).tagCb i =
        p.tagCb i := congrArg Slot.cb hslot
    have hibEq : (p.setBuf (copyPieces p.buf (p.pbFromIb (p.tagIb i)) rgdata)).tagIb i =
        p.tagIb i := congrArg Slot.ib hslot
    refine hcopied.tagSetFlags hi hon (fun hsmall => h.tagFFlags hi hon hsmall) fun _ htwo => ?_
    rw [hibEq]
    change p.pbFromIb (p.tagIb i) + 2 + 4 * n ≤ p.cbBuffer
    omega

end Visible

end Tags

theorem Alike.slots {p p' : Page} (h : Alike p.itagMicFree p p') (hinv : LayoutInv p) :
    slots p' = slots p :=
  slots_congr p p' h.itagMicFree fun _ hi => h.slot hi (hinv.tagOnPage hi)

theorem Alike.inv {p p' : Page} (h : Alike p.itagMicFree p p') (hinv : LayoutInv p) :
    LayoutInv p' := by
  have hlayout : layout p' = layout p := by
    rw [layout, layout, h.ibMicFree, h.cbFree, h.slots hinv]
  have hdata : p'.cbBufferData = p.cbBufferData := by
    rw [cbBufferData, cbBufferData, h.shape.cbBuffer, h.shape.cbPageHeader]
  refine ⟨hinv.normal.of_sameShape h.shape, ?_⟩
  rw [hlayout, hdata]
  exact hinv.valid

/-- The bytes past all lines and before the tags, once the lines are packed. -/
def Spare (p : Page) (a : Nat) : Prop :=
  p.pbFromIb (used (slots p)) ≤ a ∧ a + 4 * p.itagMicFree < p.cbBuffer

section Reorganize

variable {p p' : Page}

theorem moveLinesDown_spare (hinv : LayoutInv p) (ha : Spare p a) (todo : List Nat) :
    ∀ (q : Page) (d : Nat), MovedDown p q d todo → InOrder p todo → ∀ r e,
      moveLinesDown q d (p.pbFromIb d) todo = some (r, e) → r.buf a = q.buf a := by
  induction todo with
  | nil =>
    intro q d _ _ r e hrun
    cases hrun
    rfl
  | cons i todo ih =>
    intro q d h ho r e hrun
    obtain ⟨hi, -, -, htail⟩ := ho.cons
    rw [h.next_eq hinv hi] at hrun
    rw [ih _ _ (h.step hinv ho) htail r e hrun]
    apply moveLineDown_frame q i d (p.pbFromIb d)
    have htotal := h.total
    rw [map_cons, sum_cons] at htotal
    rw [h.cbEq i hi, h.shape.ptagFromItag]
    obtain ⟨hlo, hhi⟩ := ha
    simp only [pbFromIb, ptagFromItag, cbTag] at *
    omega

theorem moveLinesDown_alike (hinv : LayoutInv p) (hinv' : LayoutInv p')
    (hpages : Alike p.itagMicFree p p') (todo : List Nat) :
    ∀ (q q' : Page) (d : Nat), MovedDown p q d todo → MovedDown p' q' d todo →
      Alike p.itagMicFree q q' → InOrder p todo → InOrder p' todo → ∀ r e r' e',
      moveLinesDown q d (p.pbFromIb d) todo = some (r, e) →
      moveLinesDown q' d (p'.pbFromIb d) todo = some (r', e') →
      Alike p.itagMicFree r r' ∧ e' = e := by
  induction todo with
  | nil =>
    intro q q' d _ _ halike _ _ r e r' e' hrun hrun'
    cases hrun
    cases hrun'
    exact ⟨halike, rfl⟩
  | cons i todo ih =>
    intro q q' d h h' halike ho ho' r e r' e' hrun hrun'
    obtain ⟨hi, -, -, htail⟩ := ho.cons
    obtain ⟨hi', -, -, htail'⟩ := ho'.cons
    have hcb := hpages.tagCb hi (hinv.tagOnPage hi)
    have hon : TagOnPage q i := by
      have hon := hinv.tagOnPage hi
      rwa [TagOnPage, ← h.shape.cbPageHeader, ← h.shape.cbBuffer] at hon
    rw [h.next_eq hinv hi] at hrun
    rw [h'.next_eq hinv' hi', hcb] at hrun'
    have hstep := h'.step hinv' ho'
    rw [hcb] at hstep
    refine ih _ _ _ (h.step hinv ho) hstep ?_ htail htail' r e r' e' hrun hrun'
    -- both lines go to the same place, below the tags
    have hacc := hinv.accounting
    have htotal := h.total
    rw [map_cons, sum_cons] at htotal
    have hcbq : q'.tagCb i = q.tagCb i := by rw [h'.cbEq i hi', hcb, h.cbEq i hi]
    have hmoved := halike.scribble (p.pbFromIb d) (p.pbFromIb d + q.tagCb i)
      (by rw [h.shape.cbPageHeader]; exact Nat.le_add_right _ _)
      (fun _ => by
        rw [h.cbEq i hi, h.shape.cbBuffer]
        simp only [pbFromIb]
        omega)
      (frame_move q.buf (p.pbFromIb d) (q.pbFromIb (q.tagIb i)) (q.tagCb i)
        fun a hlo hhi => ⟨hlo, hhi⟩)
      (frame_move q'.buf (p.pbFromIb d) (q'.pbFromIb (q'.tagIb i)) (q.tagCb i)
        fun a hlo hhi => ⟨hlo, hhi⟩)
    rw [moveLineDown_eq, moveLineDown_eq, hpages.shape.pbFromIb, hcbq]
    exact hmoved.tagSetIb hi hon rfl

theorem reorganizeData_spare (env : Env) (hinv : LayoutInv p) {q : Page}
    (hq : reorganizeData env p = some q) (ha : Spare p a) :
    q.buf a = if env.fRuntimeScrubbingEnabled then chPAGEReorgContiguousFreeFill else p.buf a := by
  have hperm := env.sort.run_perm p.tagIb (range p.itagMicFree)
  have ho := inOrder_of_perm hperm (env.sort.run_sorted _ _)
  obtain ⟨r, hr, hmoved⟩ := MovedDown.run hinv _ p 0 (movedDown_start p _ hperm) ho
  have hsame := moveLinesDown_spare hinv ha _ p 0 (movedDown_start p _ hperm) ho r _ hr
  obtain ⟨hrep, hmic⟩ := hmoved.packed hinv
  have hkeep : (r.setIbMicFree (used (slots p))).buf a = p.buf a := by
    have hheader := cbPageHeader_ge p
    obtain ⟨hlo, -⟩ := ha
    simp only [pbFromIb] at hlo
    rw [← hsame]
    exact setWord_agreeOn r.buf 32 _ a 1 (Or.inr (by omega)) a (le_rfl) (by omega)
  simp only [reorganizeData, hr, Option.bind_eq_bind, Option.bind_some] at hq
  split at hq
  case isTrue hscrub =>
    cases hq
    have hcont := hrep.inv.contiguous
    have heq := hrep.inv.normal.cbBuffer_eq
    rw [if_pos hscrub, setBuf_buf, fill, if_pos]
    obtain ⟨hlo, hhi⟩ := ha
    rw [hrep.shape.cbBuffer, hrep.shape.cbPageHeader, hrep.itagMicFree] at hcont
    simp only [cbContiguousFree, cbAdjustForPage, heq, Nat.sub_self] at hcont
    rw [hrep.shape.pbFromIb]
    simp only [pbFromIb] at hlo ⊢
    omega
  case isFalse hscrub =>
    cases hq
    rw [if_neg hscrub, hkeep]

end Reorganize

/-- The bits that stay when the bytes of tag `k` become a tag are the same on both pages.  On a
small page the flags take the upper bits of the second word. -/
def StaleAgree (p p' : Page) (k : Nat) : Prop :=
  keptBits p (word p'.buf (p.ptagFromItag k)) = keptBits p (word p.buf (p.ptagFromItag k)) ∧
    (p.fSmallPageFormat = true ∨ keptBits p (word p'.buf (p.ptagFromItag k + 2)) =
      keptBits p (word p.buf (p.ptagFromItag k + 2)))

/-- The sort looks at the keys of the tags it is given and at nothing else. -/
def SortsByKeys (sort : TagSort) : Prop :=
  ∀ (key key' : Nat → Nat) (tags : List Nat), (∀ i ∈ tags, key' i = key i) →
    sort.run key' tags = sort.run key tags

section FreeSpace

variable {env : Env} {p p' q q' : Page} (hsort : SortsByKeys env.sort)
  (hinv : LayoutInv p) (hpages : Alike p.itagMicFree p p')

include hsort hinv hpages

theorem reorganizeData_alike (hq : reorganizeData env p = some q)
    (hq' : reorganizeData env p' = some q') : Alike p.itagMicFree q q' := by
  have hinv' := hpages.inv hinv
  have hperm := env.sort.run_perm p.tagIb (range p.itagMicFree)
  have htags : env.sort.run p'.tagIb (range p'.itagMicFree) =
      env.sort.run p.tagIb (range p.itagMicFree) := by
    rw [hpages.itagMicFree]
    exact hsort _ _ _ fun i hi =>
      hpages.tagIb (mem_range.mp hi) (hinv.tagOnPage (mem_range.mp hi))
  have ho := inOrder_of_perm hperm (env.sort.run_sorted _ _)
  have hperm' := env.sort.run_perm p'.tagIb (range p'.itagMicFree)
  have ho' := inOrder_of_perm hperm' (env.sort.run_sorted _ _)
  have hstart' := movedDown_start p' _ hperm'
  rw [htags] at ho' hstart'
  simp only [reorganizeData, htags] at hq hq'
  generalize env.sort.run p.tagIb (range p.itagMicFree) = tags at *
  obtain ⟨r, hr, -⟩ := MovedDown.run hinv tags p 0 (movedDown_start p _ hperm) ho
  obtain ⟨r', hr', -⟩ := MovedDown.run hinv' tags p' 0 hstart' ho'
  obtain ⟨halike, hend⟩ := moveLinesDown_alike hinv hinv' hpages tags p p' 0
    (movedDown_start p _ hperm) hstart' hpages ho ho' r _ r' _ hr hr'
  simp only [hr, hr', Option.bind_eq_bind, Option.bind_some] at hq hq'
  have hpacked := halike.setIbMicFree hend
  split at hq
  case isTrue hscrub =>
    rw [if_pos hscrub] at hq'
    cases hq
    cases hq'
    rw [hpacked.ibMicFree, hpacked.shape.pbFromIb, hpacked.cbContiguousBufferFree]
    exact hpacked.fill _ _ _
  case isFalse hscrub =>
    rw [if_neg hscrub] at hq'
    cases hq
    cases hq'
    exact hpacked

omit hsort in
theorem reorganizeData_stale (hq : reorganizeData env p = some q)
    (hq' : reorganizeData env p' = some q') (hfree : cbTag ≤ p.cbFree)
    (hstale : StaleAgree p p' p.itagMicFree) : StaleAgree q q' p.itagMicFree := by
  have hinv' := hpages.inv hinv
  have hacc := hinv.accounting
  have hspare a (hlo : p.ptagFromItag p.itagMicFree ≤ a)
      (hhi : a < p.ptagFromItag p.itagMicFree + 4) : Spare p a := by
    simp only [Spare, ptagFromItag, pbFromIb, cbTag] at *
    omega
  have hspare' a (ha : Spare p a) : Spare p' a := by
    rwa [Spare, hpages.slots hinv, hpages.shape.pbFromIb, hpages.itagMicFree, hpages.shape.cbBuffer]
  obtain ⟨r, hr, hrep, -⟩ := reorganizeData_spec env hinv
  cases hq.symm.trans hr
  have hbits w : keptBits q w = keptBits p w := by
    rw [keptBits, keptBits, hrep.shape.mskTagIbCb]
  rw [StaleAgree, hrep.shape.ptagFromItag, hrep.shape.fSmallPageFormat]
  simp only [hbits]
  cases hscrub : env.fRuntimeScrubbingEnabled with
  | true =>
    have hsame : AgreeOn q.buf q'.buf (p.ptagFromItag p.itagMicFree) 4 := by
      intro a hlo hhi
      have ha := hspare a hlo hhi
      rw [reorganizeData_spare env hinv hq ha, reorganizeData_spare env hinv' hq' (hspare' a ha),
        hscrub]
      rfl
    rw [hsame.words_eq.1, hsame.words_eq.2]
    exact ⟨rfl, Or.inr rfl⟩
  | false =>
    have hkeep : AgreeOn p.buf q.buf (p.ptagFromItag p.itagMicFree) 4 := by
      intro a hlo hhi
      rw [reorganizeData_spare env hinv hq (hspare a hlo hhi), hscrub]
      rfl
    have hkeep' : AgreeOn p'.buf q'.buf (p.ptagFromItag p.itagMicFree) 4 := by
      intro a hlo hhi
      rw [reorganizeData_spare env hinv' hq' (hspare' a (hspare a hlo hhi)), hscrub]
      rfl
    rw [hkeep.words_eq.1, hkeep.words_eq.2, hkeep'.words_eq.1, hkeep'.words_eq.2]
    exact hstale

theorem freeSpace_alike {cb : Nat} (hq : freeSpace env p cb = some q)
    (hq' : freeSpace env p' cb = some q') : Alike p.itagMicFree q q' := by
  have h := freeSpace_cases hq
  have h' := freeSpace_cases hq'
  rw [hpages.cbContiguousFree] at h'
  split at h
  case isTrue hlt =>
    rw [if_pos hlt] at h'
    exact reorganizeData_alike hsort hinv hpages h h'
  case isFalse hge =>
    rw [if_neg hge] at h'
    exact h ▸ h' ▸ hpages

omit hsort in
theorem freeSpace_stale {cb : Nat} (hq : freeSpace env p cb = some q)
    (hq' : freeSpace env p' cb = some q') (hfree : cbTag ≤ p.cbFree)
    (hstale : StaleAgree p p' p.itagMicFree) : StaleAgree q q' p.itagMicFree := by
  have h := freeSpace_cases hq
  have h' := freeSpace_cases hq'
  rw [hpages.cbContiguousFree] at h'
  split at h
  case isTrue hlt =>
    rw [if_pos hlt] at h'
    exact reorganizeData_stale hinv hpages h h' hfree hstale
  case isFalse hge =>
    rw [if_neg hge] at h'
    exact h ▸ h' ▸ hstale

end FreeSpace

end EseLinux.PageAlike
