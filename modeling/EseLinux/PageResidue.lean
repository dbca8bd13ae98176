import EseLinux.PageAlike

/-!
One page operation on two pages that differ in the data area only.  It leaves them alike, unless
it lays a new tag over bytes in which they differ and the tag keeps some of the bits.
-/

namespace EseLinux.PageResidue

open ByteMemory PageAlike PageDelete PageEdit PageFormat PageInsert PageLayout PageReorganize
  PageReplace PageTags PageWrite SlotLayout

section Clear

variable {p p' : Page} {n k : Nat}

theorem agreeOn_of_word_eq {m m' : Memory} {a : Nat} (h : word m' a = word m a) :
    AgreeOn m m' a 2 := by
  intro b hlo hhi
  have hfirst := (m a).toNat_lt
  have hfirst' := (m' a).toNat_lt
  simp only [word] at h
  obtain rfl | rfl : b = a ∨ b = a + 1 := by omega
  · exact UInt8.toNat_inj.mp (by omega)
  · exact UInt8.toNat_inj.mp (by omega)

theorem clearTag_alike_of_lt (h : Alike n p p') (hk : k < n) (hon : TagOnPage p k) :
    Alike n (clearTag p k) (clearTag p' k) := by
  refine ((h.tagSetCb hk hon rfl).tagSetIb hk hon rfl).tagSetFlags hk hon (fun _ => rfl) ?_
  intro _ htwo
  have hcb : ((p.tagSetCb k 0).tagSetIb k 0).tagCb k = 0 := zeroTag_tagCb p k
  omega

theorem keptBits_lt (p : Page) {w : Nat} (hw : w < 65536) : keptBits p w < 65536 :=
  lt_of_le_of_lt Nat.and_le_left hw

theorem zeroed_words (p : Page) (k : Nat) :
    word (zeroTag p k).buf (p.ptagFromItag k) =
        keptBits p (word p.buf (p.ptagFromItag k)) ∧
      word (zeroTag p k).buf (p.ptagFromItag k + 2) =
        keptBits p (word p.buf (p.ptagFromItag k + 2)) := by
  have hib : word (p.tagSetCb k 0).buf (p.ptagFromItag k + 2) = word p.buf (p.ptagFromItag k + 2) :=
    word_setWord_of_disjoint _ _ _ _ (Or.inr (le_rfl))
  constructor
  · change word (setWord _ (p.ptagFromItag k + 2) _) (p.ptagFromItag k) = _
    rw [word_setWord_of_disjoint _ _ _ _ (Or.inl (le_rfl))]
    change word (setWord _ _ (keptBits p _ ||| 0)) _ = _
    rw [Nat.or_zero, word_setWord_of_lt _ _ _ (keptBits_lt p (word_lt _ _))]
  · change word (setWord _ (p.ptagFromItag k + 2) (keptBits p (word (p.tagSetCb k 0).buf
      (p.ptagFromItag k + 2)) ||| 0)) (p.ptagFromItag k + 2) = _
    rw [hib, Nat.or_zero, word_setWord_of_lt _ _ _ (keptBits_lt p (word_lt _ _))]

theorem clearTag_words (p : Page) (k : Nat) :
    word (clearTag p k).buf (p.ptagFromItag k) = keptBits p (word p.buf (p.ptagFromItag k)) ∧
      word (clearTag p k).buf (p.ptagFromItag k + 2) =
        if p.fSmallPageFormat then 0 else keptBits p (word p.buf (p.ptagFromItag k + 2)) := by
  obtain ⟨hcb, hib⟩ := zeroed_words p k
  cases hformat : p.fSmallPageFormat with
  | true =>
    have hclear : (clearTag p k).buf = setWord (zeroTag p k).buf
        (p.ptagFromItag k + 2) ((word (zeroTag p k).buf
          (p.ptagFromItag k + 2) &&& (0xffff ^^^ Page.mskTagFlags)) |||
          (0 <<< Page.shfTagFlags)) := by
      have hsame : (zeroTag p k).fSmallPageFormat = true := hformat
      rw [clearTag, Page.tagSetFlags, if_pos hsame]
      rfl
    have hzero : keptBits p (word p.buf (p.ptagFromItag k + 2)) % 2 ^ 13 = 0 := by
      have hspec := (setLow_spec p (word p.buf (p.ptagFromItag k + 2)) 0 (word_lt _ _)
        (Nat.two_pow_pos _)).2.1
      rw [Nat.or_zero, and_mskTagIbCb, cbitTagIbCb, if_pos hformat] at hspec
      exact hspec
    rw [hclear, setFlags_word, hib, hzero]
    refine ⟨?_, word_setWord_of_lt _ _ _ (by decide)⟩
    rw [word_setWord_of_disjoint _ _ _ _ (Or.inl (le_rfl)), hcb]
  | false =>
    have hclear : clearTag p k = zeroTag p k := by
      have hsame : (zeroTag p k).fSmallPageFormat = false := hformat
      have hempty := zeroTag_tagCb p k
      rw [clearTag, Page.tagSetFlags, hsame, if_neg Bool.false_ne_true, if_neg (by omega)]
    rw [hclear]
    exact ⟨hcb, hib⟩

theorem clearTag_alike_of_stale (h : Alike n p p') (hon : TagOnPage p n)
    (hstale : StaleAgree p p' n) : Alike (n + 1) (clearTag p n) (clearTag p' n) := by
  have hshape := sameShape_clearTag p n
  have hframe' := clearTag_frame p' n
  rw [h.shape.ptagFromItag] at hframe'
  have hsame : Alike n (clearTag p n) (clearTag p' n) := by
    refine ⟨?_, ?_, ?_, ?_⟩
    · refine SameShape.trans ⟨?_, ?_⟩ (h.shape.trans (sameShape_clearTag p' n))
      · exact hshape.cbPage.symm
      · exact hshape.cbBuffer.symm
    · rw [clearTag, clearTag, tagSetFlags_itagMicFree, tagSetFlags_itagMicFree]
      exact h.itagMicFree
    · rw [clearTag, clearTag, tagSetFlags_ctagReserved, tagSetFlags_ctagReserved]
      exact h.ctagReserved
    · intro a ha
      rw [Lit, InChecksum, hshape.cbPageHeader, hshape.cbBuffer, hshape.fSmallPageFormat] at ha
      have hout : ¬ (p.ptagFromItag n ≤ a ∧ a < p.ptagFromItag n + 4) := by
        rintro ⟨hlo, hhi⟩
        simp only [TagOnPage, Page.ptagFromItag, cbTag] at hon hlo hhi
        exact not_lit (p := p) (n := n) (by omega) (by omega) ha
      rw [clearTag_frame p n a hout, hframe' a hout, h.agree a ha]
  have hbits (w : Nat) : keptBits p' w = keptBits p w := by
    rw [keptBits, keptBits, h.shape.mskTagIbCb]
  obtain ⟨hcb, hib⟩ := clearTag_words p n
  obtain ⟨hcb', hib'⟩ := clearTag_words p' n
  rw [h.shape.ptagFromItag, hbits] at hcb' hib'
  rw [h.shape.fSmallPageFormat] at hib'
  have hfirst := agreeOn_of_word_eq (hcb'.trans (hstale.1.trans hcb.symm))
  have hsecond : word (clearTag p' n).buf (p.ptagFromItag n + 2) =
      word (clearTag p n).buf (p.ptagFromItag n + 2) := by
    rw [hib, hib']
    split
    · rfl
    · rename_i hlarge
      exact hstale.2.resolve_left hlarge
  refine hsame.grow ?_
  rw [hshape.ptagFromItag]
  intro a hlo hhi
  rcases lt_or_ge a (p.ptagFromItag n + 2) with hlt | hge
  · exact hfirst a hlo hlt
  · exact agreeOn_of_word_eq hsecond a hge (by omega)

end Clear

variable {rgdata' rgdata : List Data}

section Insert

variable {env : Env} {p p' : Page} {n k : Nat}

theorem shifted_alike (h : Alike p.itagMicFree p p') (hk : k < p.itagMicFree)
    (hon : TagOnPage p p.itagMicFree) :
    Alike (p.itagMicFree + 1) (shifted p k) (shifted p' k) := by
  refine ⟨⟨h.shape.cbPage, h.shape.cbBuffer⟩, h.itagMicFree, h.ctagReserved, ?_⟩
  intro a ha
  simp only [TagOnPage, cbTag] at hon
  simp only [shifted, setBuf_buf, h.itagMicFree, h.shape.ptagFromItag, move]
  by_cases hin : p.ptagFromItag p.itagMicFree ≤ a ∧
      a < p.ptagFromItag p.itagMicFree + cbTag * (p.itagMicFree - k)
  · rw [if_pos hin, if_pos hin]
    simp only [Page.ptagFromItag, cbTag] at hin ⊢
    refine h.agree _ (Or.inr ⟨?_, ?_⟩)
    · omega
    · omega
  · rw [if_neg hin, if_neg hin]
    simp only [Page.ptagFromItag, cbTag] at hin
    rcases ha with ⟨hheader, hsum⟩ | ⟨hlo, hhi⟩
    · exact h.agree a (Or.inl ⟨hheader, hsum⟩)
    · change p.cbBuffer ≤ a + 4 * (p.itagMicFree + 1) at hlo
      exact h.agree a (Or.inr ⟨by omega, hhi⟩)

theorem cleared_alike (env : Env) (h : Alike p.itagMicFree p p') (hk : k ≤ p.itagMicFree)
    (hon : TagOnPage p p.itagMicFree) (hstale : k = p.itagMicFree → StaleAgree p p' k) :
    Alike (p.itagMicFree + 1) (clearTag (expandTagArray env p k) k)
      (clearTag (expandTagArray env p' k) k) := by
  rcases Nat.lt_or_eq_of_le hk with hlt | rfl
  · rw [expandTagArray_eq, expandTagArray_eq]
    have hexpanded := (shifted_alike h hlt hon).setITagState env.fResvTagFormatEnabled
      (congrArg (· + 1) h.itagMicFree) h.ctagReserved
    refine clearTag_alike_of_lt hexpanded (Nat.lt_succ_of_lt hlt) ?_
    change TagOnPage p k
    simp only [TagOnPage, cbTag] at hon ⊢
    omega
  · have hsame : ∀ q : Page, q.itagMicFree = p.itagMicFree → expandTagArray env q p.itagMicFree =
          q.setITagState env.fResvTagFormatEnabled (q.itagMicFree + 1) q.ctagReserved := by
      intro q hq
      simp only [expandTagArray, hq, ne_eq, not_true_eq_false, if_false]
    rw [hsame p rfl, hsame p' h.itagMicFree]
    refine clearTag_alike_of_stale (h.setITagState env.fResvTagFormatEnabled
      (congrArg (· + 1) h.itagMicFree) h.ctagReserved) hon ?_
    have hptag : 36 ≤ p.ptagFromItag p.itagMicFree :=
      le_trans (le_trans (by decide) (cbPageHeader_ge p)) (cbPageHeader_le_ptagFromItag hon)
    have hword : ∀ (q : Page) (a : Nat), 36 ≤ a →
        word (q.setITagState env.fResvTagFormatEnabled (q.itagMicFree + 1) q.ctagReserved).buf a =
          word q.buf a := by
      intro q a ha
      exact word_setWord_of_disjoint _ _ _ _ (Or.inr ha)
    have hold := hstale rfl
    rw [StaleAgree] at hold ⊢
    rw [hword p, hword p', hword p, hword p']
    · exact hold
    · exact Nat.le_add_right_of_le hptag
    · exact Nat.le_add_right_of_le hptag
    · exact hptag
    · exact hptag

theorem placeTag_alike (h : Alike n (clearTag p k) (clearTag p' k)) (hk : k < n)
    (hon : TagOnPage (clearTag p k) k) (cb : Nat) :
    Alike n (placeTag p k cb) (placeTag p' k cb) := by
  rw [placeTag_eq, placeTag_eq]
  have hplaced := (h.tagSetIb hk hon h.ibMicFree).setIbMicFree
    (v := ((clearTag p k).tagSetIb k (clearTag p k).ibMicFree).ibMicFree + cb)
    (congrArg (· + cb) (h.tagSetIb hk hon h.ibMicFree).ibMicFree)
  have hsized := hplaced.tagSetCb hk hon (rfl : cb % 65536 = cb % 65536)
  refine hsized.setCbFree ?_
  rw [hsized.cbFree]

theorem written_alike (h : Alike n p p') (hk : k < n) (hon : TagOnPage p k) (fFlags : Nat)
    (hcb : p.tagCb k = cbDataTotal rgdata)
    (hcb' : cbDataTotal rgdata' = cbDataTotal rgdata)
    (hdark : p.tagCb k ≠ 0 → p.pbFromIb (p.tagIb k) + p.tagCb k + 4 * n ≤ p.cbBuffer) :
    Alike n (copyData (p.tagSetFlags k fFlags) k rgdata)
      (copyData (p'.tagSetFlags k fFlags) k rgdata') := by
  have hshape := sameShape_tagSetFlags p k fFlags
  have hslot : slot (p.tagSetFlags k fFlags) k = slot p k := by
    refine slot_tagSetFlags fFlags hon hon fun hne => ?_
    simp only [Page.ptagFromItag, cbTag]
    omega
  have hcbEq : (p.tagSetFlags k fFlags).tagCb k = p.tagCb k := congrArg Slot.cb hslot
  have hibEq : (p.tagSetFlags k fFlags).tagIb k = p.tagIb k := congrArg Slot.ib hslot
  have hflags : Alike n (p.tagSetFlags k fFlags) (p'.tagSetFlags k fFlags) := by
    refine h.tagSetFlags hk hon (fun _ => rfl) fun _ htwo => ?_
    omega
  refine hflags.copyData hk ?_ (hcbEq.trans hcb) hcb' ?_
  · rwa [TagOnPage, hshape.cbPageHeader, hshape.cbBuffer]
  · rwa [hcbEq, hibEq, hshape.pbFromIb, hshape.cbBuffer]

theorem insert_alike (hsort : SortsByKeys env.sort) (hinv : LayoutInv p)
    (h : Alike p.itagMicFree p p') (hk : k ≤ p.itagMicFree)
    (fFlags : Nat) (hcb : cbDataTotal rgdata' = cbDataTotal rgdata)
    (hfree : cbDataTotal rgdata + cbTag ≤ p.cbFree)
    (hstale : k = p.itagMicFree → StaleAgree p p' k) {q q' : Page}
    (hq : PageEdit.insert env p k rgdata fFlags = some q)
    (hq' : PageEdit.insert env p' k rgdata' fFlags = some q') : Alike (p.itagMicFree + 1) q q' := by
  obtain ⟨r, hr, hrep, hroom, hexp, heq⟩ := insert_stages env hinv k hk rgdata fFlags hfree
  obtain ⟨r', hr', -, -, -, heq'⟩ := insert_stages env (h.inv hinv) k
    (by rwa [h.itagMicFree]) rgdata' fFlags (by rwa [hcb, h.cbFree])
  rw [hcb] at hr' heq'
  cases hq.symm.trans heq
  cases hq'.symm.trans heq'
  have hrk : k ≤ r.itagMicFree := by rwa [hrep.itagMicFree]
  have hpages := freeSpace_alike hsort hinv h hr hr'
  rw [← hrep.itagMicFree] at hpages ⊢
  obtain ⟨hkOn, hwin, hplaced⟩ := hexp.placed hrep.inv hrk (by rwa [hrep.cbFree]) hroom
  have hlast : TagOnPage r r.itagMicFree := by
    simp only [TagOnPage, cbTag]
    omega
  have hcleared := cleared_alike env hpages hrk hlast fun hlastTag => by
    have hkp : k = p.itagMicFree := hlastTag.trans hrep.itagMicFree
    subst hkp
    exact freeSpace_stale hinv h hr hr' (by omega) (hstale rfl)
  have hshape := sameShape_clearTag (expandTagArray env r k) k
  have hnew := placeTag_alike hcleared (Nat.lt_succ_of_le hrk)
    (by rwa [TagOnPage, hshape.cbPageHeader, hshape.cbBuffer]) (cbDataTotal rgdata)
  have hcbEq := congrArg Slot.cb hplaced.slotEq
  have hibEq := congrArg Slot.ib hplaced.slotEq
  simp only [slot] at hcbEq hibEq
  refine written_alike hnew (Nat.lt_succ_of_le hrk) (hplaced.tagOnPage hkOn) fFlags hcbEq hcb ?_
  intro _
  rw [hcbEq, hibEq, hplaced.shape.pbFromIb, hplaced.shape.cbBuffer, hexp.shape.pbFromIb,
    hexp.shape.cbBuffer]
  simp only [Page.pbFromIb]
  omega

end Insert

section Replace

variable {env : Env} {p p' : Page} {n k : Nat}

theorem sameShape_copyData (p : Page) (k : Nat) (rgdata : List Data) :
    SameShape p (copyData p k rgdata) := by
  rw [copyData]
  split
  · exact SameShape.trans (sameShape_setBuf p _) (sameShape_tagSetFlags _ _ _)
  · exact sameShape_setBuf p _

theorem tagOnPage_scrubTag (env : Env) (hon : TagOnPage p k) (ch : UInt8) :
    TagOnPage (scrubTag env p k ch) k := by
  rw [scrubTag]
  split
  · exact hon
  · exact hon

section

variable (env) (h : Alike n p p') (hk : k < n) (hon : TagOnPage p k)
include h hk hon

theorem scrubTag_alike
    (ch : UInt8) : Alike n (scrubTag env p k ch) (scrubTag env p' k ch) := by
  simp only [scrubTag, h.tagCb hk hon, h.tagIb hk hon, h.shape.pbFromIb]
  split
  · exact h.fill _ _ _
  · exact h

theorem vacateTag_alike :
    Alike n (vacateTag env p k) (vacateTag env p' k) := by
  have hscrubbed := scrubTag_alike env h hk hon chPAGEReplaceFill
  have hon' := tagOnPage_scrubTag env hon chPAGEReplaceFill
  simp only [vacateTag]
  generalize scrubTag env p k chPAGEReplaceFill = x at *
  generalize scrubTag env p' k chPAGEReplaceFill = x' at *
  have hcounted : Alike n (x.setCbFree (x.cbFree + x.tagCb k))
      (x'.setCbFree (x'.cbFree + x'.tagCb k)) := by
    refine hscrubbed.setCbFree ?_
    rw [hscrubbed.cbFree, hscrubbed.tagCb hk hon']
  refine ((hcounted.tagSetIb hk hon' rfl).tagSetCb hk hon' rfl).tagSetFlags hk hon'
    (fun _ => rfl) fun _ htwo => ?_
  have hzero := congrArg Slot.cb (slot_tagSetCb
    (p := (x.setCbFree (x.cbFree + x.tagCb k)).tagSetIb k 0) (i := k) 0 (Nat.two_pow_pos _))
  simp only [slot] at hzero
  omega

theorem replaceInPlace_alike (cbDiff : Int) :
    Alike n (replaceInPlace p k cbDiff) (replaceInPlace p' k cbDiff) := by
  simp only [replaceInPlace, h.tagCb hk hon, h.tagIb hk hon, h.ibMicFree]
  split
  · have hmarked := h.setIbMicFree (v := ushort (p.ibMicFree - cbDiff)) rfl
    exact hmarked.setCbFree (by rw [hmarked.cbFree])
  · exact h.setCbFree (by rw [h.cbFree])

theorem finishReplace_alike (fFlags : Nat) (cbDiff : Int)
    (hcb : p.tagCb k = cbDataTotal rgdata) (hcb' : cbDataTotal rgdata' = cbDataTotal rgdata)
    (hdark : p.tagCb k ≠ 0 → p.pbFromIb (p.tagIb k) + p.tagCb k + 4 * n ≤ p.cbBuffer) :
    Alike n (finishReplace env p k rgdata fFlags cbDiff)
      (finishReplace env p' k rgdata' fFlags cbDiff) := by
  have hwritten := written_alike h hk hon fFlags hcb hcb' hdark
  have hshape := (sameShape_tagSetFlags p k fFlags).trans
    (sameShape_copyData (p.tagSetFlags k fFlags) k rgdata)
  have hon' : TagOnPage (copyData (p.tagSetFlags k fFlags) k rgdata) k := by
    rwa [TagOnPage, hshape.cbPageHeader, hshape.cbBuffer]
  simp only [finishReplace, hwritten.tagCb hk hon', hwritten.tagIb hk hon', hwritten.shape.pbFromIb]
  split
  · exact hwritten.fill _ _ _
  · exact hwritten

theorem movedTag_alike (cb : Nat) :
    Alike n (movedTag p k cb) (movedTag p' k cb) := by
  have hplaced := (h.tagSetIb hk hon h.ibMicFree).setIbMicFree (v := p.ibMicFree + cb)
    (congrArg (· + cb) h.ibMicFree)
  exact (hplaced.setCbFree (congrArg (· - cb) h.cbFree)).tagSetCb hk hon rfl

end

section Line

variable (hinv : LayoutInv p) (h : Alike p.itagMicFree p p') (hk : k < p.itagMicFree)
  {rgdata rgdata' : List Data} (fFlags : Nat)
  (hcb : cbDataTotal rgdata' = cbDataTotal rgdata)
  (hfree : cbDataTotal rgdata ≤ p.tagCb k + p.cbFree) {q q' : Page}
  (hq : replace env p k rgdata fFlags = some q)
  (hq' : replace env p' k rgdata' fFlags = some q')

include hinv h hk

theorem staysInPlace_iff (cbTotal : Nat) :
    StaysInPlace p' k cbTotal ↔ StaysInPlace p k cbTotal := by
  have hon := hinv.tagOnPage hk
  rw [StaysInPlace, StaysInPlace, h.tagCb hk hon, h.tagIb hk hon, h.ibMicFree, h.cbContiguousFree]

include hcb hfree hq hq'

theorem replace_inPlace_alike (hstays : StaysInPlace p k (cbDataTotal rgdata)) :
    Alike p.itagMicFree q q' := by
  have hon := hinv.tagOnPage hk
  have hcbTag := h.tagCb hk hon
  have hk' : k < p'.itagMicFree := by rwa [h.itagMicFree]
  have heq := replace_inPlace_eq env hinv hk rgdata fFlags hfree hstays
  have heq' := replace_inPlace_eq env (h.inv hinv) hk' rgdata' fFlags
    (by rwa [hcb, hcbTag, h.cbFree]) (by rwa [hcb, staysInPlace_iff hinv h hk])
  rw [hcb, hcbTag] at heq'
  cases hq.symm.trans heq
  cases hq'.symm.trans heq'
  have hacc := hinv.accounting
  have hused : p.tagCb k ≤ used (slots p) := cb_le_used (slot_mem hk)
  have hsized := (replaceInPlace_edited hinv hk hfree 0 0).tagSetCb hon (cbDataTotal rgdata)
    (hinv.normal.lt_two_pow (by omega))
  have hcbEq := congrArg Slot.cb hsized.slotEq
  have hibEq := congrArg Slot.ib hsized.slotEq
  simp only [slot] at hcbEq hibEq
  have hpages := (replaceInPlace_alike h hk hon ((p.tagCb k : Int) - cbDataTotal rgdata)).tagSetCb
    hk ((replaceInPlace_edited hinv hk hfree 0 0).tagOnPage hon)
    (rfl : cbDataTotal rgdata = cbDataTotal rgdata)
  refine finishReplace_alike env hpages hk (hsized.tagOnPage hon) fFlags _ hcbEq hcb fun hne => ?_
  have hfits := replaceWindow_fits hinv hk hstays
  rw [hcbEq] at hne
  rw [hcbEq, hibEq, hsized.shape.pbFromIb, hsized.shape.cbBuffer]
  simp only [replaceWindow, hne, and_false, if_false] at hfits
  simp only [Page.pbFromIb]
  omega

theorem replace_moved_alike (hsort : SortsByKeys env.sort)
    (hmoves : ¬ StaysInPlace p k (cbDataTotal rgdata)) : Alike p.itagMicFree q q' := by
  have hon := hinv.tagOnPage hk
  have hcbTag := h.tagCb hk hon
  have hk' : k < p'.itagMicFree := by rwa [h.itagMicFree]
  obtain ⟨y, hmoved, hy, heq⟩ := replace_moved_eq env hinv hk rgdata fFlags hfree hmoves
  obtain ⟨y', -, hy', heq'⟩ := replace_moved_eq env (h.inv hinv) hk' rgdata' fFlags
    (by rwa [hcb, hcbTag, h.cbFree]) (by rwa [hcb, staysInPlace_iff hinv h hk])
  rw [hcb] at hy' heq'
  rw [hcbTag] at heq'
  cases hq.symm.trans heq
  cases hq'.symm.trans heq'
  obtain ⟨hvacated, -⟩ := vacateTag_spec env hinv hk
  have hcleared := vacateTag_alike env h hk hon
  rw [← hvacated.itagMicFree] at hcleared
  have hpages := freeSpace_alike hsort hvacated.inv hcleared hy hy'
  rw [hvacated.itagMicFree] at hpages
  have hyk : k < y.itagMicFree := by rwa [hmoved.only.itagMicFree]
  have hyOn := hmoved.only.inv.tagOnPage hyk
  have hedited := movedTag_edited hmoved hk hfree
  have hcbEq := congrArg Slot.cb hedited.slotEq
  have hibEq := congrArg Slot.ib hedited.slotEq
  simp only [slot] at hcbEq hibEq
  refine finishReplace_alike env (movedTag_alike hpages hk hyOn _) hk (hedited.tagOnPage hyOn)
    fFlags _ hcbEq hcb fun _ => ?_
  have hroom := hmoved.room
  rw [hmoved.only.itagMicFree] at hroom
  rw [hcbEq, hibEq, hedited.shape.pbFromIb, hedited.shape.cbBuffer]
  simp only [Page.pbFromIb]
  omega

theorem replace_alike (hsort : SortsByKeys env.sort) : Alike p.itagMicFree q q' := by
  by_cases hstays : StaysInPlace p k (cbDataTotal rgdata)
  · exact replace_inPlace_alike hinv h hk fFlags hcb hfree hq hq' hstays
  · exact replace_moved_alike hinv h hk fFlags hcb hfree hq hq' hsort hstays

end Line

end Replace

section Delete

variable {env : Env} {p p' : Page} {n k : Nat}

theorem released_alike (env : Env) (h : Alike n p p') (hk : k < n) (hon : TagOnPage p k) :
    Alike n (released env p k) (released env p' k) := by
  have hscrubbed := scrubTag_alike env h hk hon chPAGEDeleteFill
  have hon' := tagOnPage_scrubTag env hon chPAGEDeleteFill
  simp only [released]
  generalize scrubTag env p k chPAGEDeleteFill = x at *
  generalize scrubTag env p' k chPAGEDeleteFill = x' at *
  simp only [hscrubbed.tagCb hk hon', hscrubbed.tagIb hk hon', hscrubbed.ibMicFree]
  split
  · have hmarked := hscrubbed.setIbMicFree (v := ushort (x.ibMicFree - x.tagCb k)) rfl
    refine hmarked.setCbFree ?_
    rw [hmarked.cbFree, hmarked.tagCb hk hon']
  · refine hscrubbed.setCbFree ?_
    rw [hscrubbed.cbFree, hscrubbed.tagCb hk hon']

theorem closed_alike (h : Alike (p.itagMicFree + 1) p p')
    (hon : TagOnPage p p.itagMicFree) : Alike p.itagMicFree (closed p k) (closed p' k) := by
  refine ⟨⟨h.shape.cbPage, h.shape.cbBuffer⟩, h.itagMicFree, h.ctagReserved, ?_⟩
  intro a ha
  simp only [TagOnPage, cbTag] at hon
  simp only [closed, setBuf_buf, h.itagMicFree, h.shape.ptagFromItag, move]
  by_cases hin : p.ptagFromItag p.itagMicFree + cbTag ≤ a ∧
      a < p.ptagFromItag p.itagMicFree + cbTag + (p.ptagFromItag k - p.ptagFromItag p.itagMicFree)
  · rw [if_pos hin, if_pos hin]
    simp only [Page.ptagFromItag, cbTag] at hin ⊢
    refine h.agree _ (Or.inr ⟨?_, ?_⟩)
    · omega
    · omega
  · rw [if_neg hin, if_neg hin]
    exact (h.mono (Nat.le_succ _)).agree a ha

theorem delete_alike (env : Env) (hinv : LayoutInv p) (h : Alike p.itagMicFree p p')
    (hk : k < p.itagMicFree) :
    Alike (p.itagMicFree - 1) (delete env p k) (delete env p' k) := by
  have hon := hinv.tagOnPage hk
  have hreleased := released_alike env h hk hon
  have hedited := released_edited env hinv hk
  have hcounted := hreleased.setITagState env.fResvTagFormatEnabled
    (congrArg (· - 1) hreleased.itagMicFree) hreleased.ctagReserved
  have hcount := (closed_spec env hinv hk).itagMicFree
  have hfits := hinv.fits
  have hshape : SameShape p ((released env p k).setITagState env.fResvTagFormatEnabled
      ((released env p k).itagMicFree - 1) (released env p k).ctagReserved) :=
    hedited.shape.trans ⟨rfl, rfl⟩
  rw [delete_eq, delete_eq]
  generalize (released env p k).setITagState env.fResvTagFormatEnabled
    ((released env p k).itagMicFree - 1) (released env p k).ctagReserved = s at *
  generalize (released env p' k).setITagState env.fResvTagFormatEnabled
    ((released env p' k).itagMicFree - 1) (released env p' k).ctagReserved = s' at *
  change s.itagMicFree + 1 = p.itagMicFree at hcount
  have hlast : TagOnPage s s.itagMicFree := by
    simp only [TagOnPage, cbTag, hshape.cbPageHeader, hshape.cbBuffer]
    omega
  rw [← hcount, Nat.add_sub_cancel]
  rw [← hcount] at hcounted
  have hclosed := closed_alike hcounted (k := k) hlast
  simp only [hclosed.cbFree, hclosed.shape.cbPageHeader, hclosed.shape.cbBuffer]
  split
  · exact hclosed.setIbMicFree rfl
  · exact hclosed

end Delete

end EseLinux.PageResidue
