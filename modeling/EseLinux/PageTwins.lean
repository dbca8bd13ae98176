import EseLinux.PageResidue

/-!
Two runs of the same page operations whose lines have the same sizes but other bytes.  Once the
unused bytes are overwritten, the pages cannot be told apart by lines that are gone, unless a new
tag was laid over bytes of such a line and kept some of their bits.
-/

namespace EseLinux.PageTwins

open ByteMemory PageAlike PageDelete PageEdit PageFormat PageGaps PageInsert PageLayout List
  PageReorganize PageReplace PageResidue PageRun PageTags SlotLayout

/-- The same operation on a line of the same size, whose bytes may differ. -/
inductive Twin : PageOp → PageOp → Prop
  | insert (itag fFlags : Nat) {rgdata rgdata' : List Data}
      (hcb : cbDataTotal rgdata' = cbDataTotal rgdata) :
      Twin (.insert itag rgdata fFlags) (.insert itag rgdata' fFlags)
  | replace (itag fFlags : Nat) {rgdata rgdata' : List Data}
      (hcb : cbDataTotal rgdata' = cbDataTotal rgdata) :
      Twin (.replace itag rgdata fFlags) (.replace itag rgdata' fFlags)
  | delete (itag : Nat) : Twin (.delete itag) (.delete itag)
  | replaceFlags (itag fFlags : Nat) : Twin (.replaceFlags itag fFlags) (.replaceFlags itag fFlags)
  | setExternalHeader (fFlags : Nat) {rgdata rgdata' : List Data}
      (hcb : cbDataTotal rgdata' = cbDataTotal rgdata) :
      Twin (.setExternalHeader rgdata fFlags) (.setExternalHeader rgdata' fFlags)
  | replaceReservedTag (itag : Nat) {rgdata rgdata' : List Data}
      (hcb : cbDataTotal rgdata' = cbDataTotal rgdata) :
      Twin (.replaceReservedTag itag rgdata) (.replaceReservedTag itag rgdata')
  | reorganizeData : Twin .reorganizeData .reorganizeData

/-- A tag added behind the others keeps the same bits of the bytes it is laid over. -/
def TagBitsAgree (p p' : Page) : PageOp → Prop
  | .insert itag _ _ => itag = p.itagMicFree → StaleAgree p p' itag
  | _ => True

def TagBitsAgreeRun (env : Env) : Page → Page → List PageOp → List PageOp → Prop
  | p, p', op :: ops, op' :: ops' => TagBitsAgree p p' op ∧
      ∀ q q', exec env p op = some q → exec env p' op' = some q' → TagBitsAgreeRun env q q' ops ops'
  | _, _, _, _ => True

def run (env : Env) (p : Page) (ops : List PageOp) : Option Page :=
  ops.foldlM (exec env) p

section Step

variable {env : Env} {p p' : Page} {op op' : PageOp}

theorem Twin.pre (htwin : Twin op op') (hinv : LayoutInv p) (h : Alike p.itagMicFree p p')
    (hpre : Pre p op) : Pre p' op' := by
  have hcbTag : ∀ i, i < p.itagMicFree → p'.tagCb i = p.tagCb i :=
    fun i hi => h.tagCb hi (hinv.tagOnPage hi)
  cases htwin with
  | insert itag fFlags hcb =>
    rw [Pre, hcb, h.itagMicFree, h.cbFree]
    exact hpre
  | replace itag fFlags hcb =>
    rw [Pre, hcb, h.itagMicFree, h.cbFree, hcbTag itag hpre.1]
    exact hpre
  | delete itag =>
    rw [Pre, h.itagMicFree, h.ctagReserved]
    exact hpre
  | replaceFlags itag fFlags =>
    rw [Pre, h.itagMicFree]
    exact hpre
  | setExternalHeader fFlags hcb =>
    rw [Pre, hcb, h.itagMicFree, h.cbFree, hcbTag 0 hpre.1]
    exact hpre
  | replaceReservedTag itag hcb =>
    rw [Pre, hcb, h.itagMicFree, h.ctagReserved, h.cbFree, hcbTag itag hpre.2.1]
    exact hpre
  | reorganizeData => trivial

theorem Twin.roomForTag (htwin : Twin op op') (env : Env) (p : Page) :
    RoomForTag env p op ∧ RoomForTag env p op' := by
  cases htwin <;> exact ⟨trivial, trivial⟩

theorem exec_alike (hsort : SortsByKeys env.sort) (hinv : LayoutInv p)
    (h : Alike p.itagMicFree p p') (hpre : Pre p op) (htwin : Twin op op')
    (hbits : TagBitsAgree p p' op) {q q' : Page} (hq : exec env p op = some q)
    (hq' : exec env p' op' = some q') : Alike q.itagMicFree q q' := by
  cases htwin with
  | insert itag fFlags hcb =>
    obtain ⟨r, hr, hadded⟩ := insert_spec env hinv itag hpre.1 _ fFlags hpre.2
    cases hq.symm.trans hr
    rw [hadded.itagMicFree]
    exact insert_alike hsort hinv h hpre.1 fFlags hcb hpre.2 hbits hq hq'
  | replace itag fFlags hcb =>
    obtain ⟨r, hr, honly⟩ := replace_spec env hinv itag hpre.1 _ fFlags hpre.2
    cases hq.symm.trans hr
    rw [honly.itagMicFree]
    exact replace_alike hinv h hpre.1 fFlags hcb hpre.2 hq hq' hsort
  | delete itag =>
    cases hq
    cases hq'
    have hcount := (delete_spec env hinv hpre.2).itagMicFree
    have hdeleted := delete_alike env hinv h hpre.2
    rwa [← hcount, Nat.add_sub_cancel] at hdeleted
  | replaceFlags itag fFlags =>
    cases hq
    cases hq'
    have hk : itag < p.itagMicFree := hpre
    rw [(replaceFlags_spec hinv itag fFlags hk).itagMicFree]
    refine h.tagSetFlags hk (hinv.tagOnPage hk) (fun _ => rfl) fun _ htwo => ?_
    have hfits := ownWindow_fits hinv hk
    have hin := mem_ownWindow (p := p) (k := itag) (by omega)
    simp only [Page.pbFromIb]
    omega
  | setExternalHeader fFlags hcb =>
    obtain ⟨r, hr, honly⟩ := replace_spec env hinv 0 hpre.1 _ fFlags hpre.2
    cases hq.symm.trans hr
    rw [honly.itagMicFree]
    exact replace_alike hinv h hpre.1 fFlags hcb hpre.2 hq hq' hsort
  | replaceReservedTag itag hcb =>
    obtain ⟨r, hr, honly⟩ := replace_spec env hinv itag hpre.2.1 _ 0 hpre.2.2
    cases hq.symm.trans hr
    rw [honly.itagMicFree]
    exact replace_alike hinv h hpre.2.1 0 hcb hpre.2.2 hq hq' hsort
  | reorganizeData =>
    obtain ⟨r, hr, hrep, -⟩ := reorganizeData_spec env hinv
    cases hq.symm.trans hr
    rw [hrep.itagMicFree]
    exact reorganizeData_alike hsort hinv h hq hq'

end Step

theorem run_alike {env : Env} (hsort : SortsByKeys env.sort) {ops ops' : List PageOp}
    (htwins : Forall₂ Twin ops ops') :
    ∀ {p p' : Page}, LayoutInv p → Alike p.itagMicFree p p' → PreRun env p ops →
      TagBitsAgreeRun env p p' ops ops' →
      ∃ q q', run env p ops = some q ∧ run env p' ops' = some q' ∧ LayoutInv q ∧
        Alike q.itagMicFree q q' := by
  induction htwins with
  | nil =>
    intro p p' hinv h _ _
    exact ⟨p, p', rfl, rfl, hinv, h⟩
  | cons htwin htwins ih =>
    intro p p' hinv h hpre hbits
    obtain ⟨q, hq, hinv', -⟩ := (stepOk_iff env hinv hpre.1).mpr (htwin.roomForTag env p).1
    obtain ⟨q', hq', -⟩ := (stepOk_iff env (h.inv hinv) (htwin.pre hinv h hpre.1)).mpr
      (htwin.roomForTag env p').2
    have hstep := exec_alike hsort hinv h hpre.1 htwin hbits.1 hq hq'
    obtain ⟨r, r', hr, hr', hend⟩ := ih hinv' hstep (hpre.2 q hq) (hbits.2 q q' hq hq')
    refine ⟨r, r', ?_, ?_, hend⟩
    · rw [run, foldlM_cons, hq]
      exact hr
    · rw [run, foldlM_cons, hq']
      exact hr'

section Scrubbed

variable {p p' : Page} (hinv : LayoutInv p) (h : Alike p.itagMicFree p p')

include hinv h

theorem ibDataEnd_alike : ibDataEnd p' = ibDataEnd p := by
  have hslot : ∀ i, i < p.itagMicFree → p'.tagIb i = p.tagIb i ∧ p'.tagCb i = p.tagCb i :=
    fun i hi => ⟨h.tagIb hi (hinv.tagOnPage hi), h.tagCb hi (hinv.tagOnPage hi)⟩
  have htags : usedTags p' = usedTags p := by
    rw [usedTags, usedTags, h.itagMicFree]
    refine filter_congr fun i hi => ?_
    rw [(hslot i (mem_range.mp hi)).2]
  rw [ibDataEnd, ibDataEnd, htags]
  refine foldr_ext _ _ _ fun i hi ib => ?_
  obtain ⟨hib, hcb⟩ := hslot i (mem_usedTags.mp hi).1
  rw [hib, hcb]

theorem inLine_alike (a : Nat) : InLine p' a ↔ InLine p a := by
  rw [InLine, InLine, h.itagMicFree]
  refine exists_congr fun i => and_congr_right fun hi => ?_
  rw [h.tagIb hi (hinv.tagOnPage hi), h.tagCb hi (hinv.tagOnPage hi), h.shape.pbFromIb]

theorem inLine_agree (hlines : ∀ i, i < p.itagMicFree → p'.tagData i = p.tagData i) {a : Nat}
    (ha : InLine p a) : p'.buf a = p.buf a := by
  obtain ⟨i, hi, hlo, hhi⟩ := ha
  have hdata := hlines i hi
  rw [Page.tagData, Page.tagData, h.tagIb hi (hinv.tagOnPage hi), h.tagCb hi (hinv.tagOnPage hi),
    h.shape.pbFromIb] at hdata
  have hbyte := (copied_of_slice_eq hdata) (a - p.pbFromIb (p.tagIb i)) (by omega)
  rwa [Nat.add_sub_of_le hlo] at hbyte

theorem scrubbed_alike (hlines : ∀ i, i < p.itagMicFree → p'.tagData i = p.tagData i)
    (chZero : UInt8) {a : Nat} (ha : a < p.cbBuffer) (hsum : ¬ InChecksum p a) :
    scrubbed p' chZero a = scrubbed p chZero a := by
  simp only [scrubbed, h.shape.cbPageHeader, h.shape.cbBuffer, h.itagMicFree,
    inLine_alike hinv h, ibDataEnd_alike hinv h]
  by_cases hgap : p.cbPageHeader ≤ a ∧ a + 4 * p.itagMicFree < p.cbBuffer ∧ ¬ InLine p a
  · rw [if_pos hgap, if_pos hgap]
  · rw [if_neg hgap, if_neg hgap]
    refine setWord_congr fun _ _ => ?_
    rcases lt_or_ge a p.cbPageHeader with hheader | hdata
    · exact h.agree a (Or.inl ⟨hheader, hsum⟩)
    · rcases lt_or_ge (a + 4 * p.itagMicFree) p.cbBuffer with hlt | htag
      · exact inLine_agree hinv h hlines (by_contra fun hout => hgap ⟨hdata, hlt, hout⟩)
      · exact h.agree a (Or.inr ⟨htag, ha⟩)

end Scrubbed

/-- Two runs of the same operations from pages that are alike, on lines of the same sizes.  If each
tag added behind the others keeps the same bits and the lines that stand at the end have the same
bytes, then the pages are the same once their unused bytes are overwritten, checksums apart. -/
theorem overwritten_noResidue (env : Env) (hsort : SortsByKeys env.sort) (p p' : Page)
    (ops ops' : List PageOp) (chZero : UInt8) (hinv : LayoutInv p)
    (hpages : Alike p.itagMicFree p p') (htwins : Forall₂ Twin ops ops')
    (hpre : PreRun env p ops) (hbits : TagBitsAgreeRun env p p' ops ops') :
    ∃ q q', run env p ops = some q ∧ run env p' ops' = some q' ∧ q'.itagMicFree = q.itagMicFree ∧
      ((∀ i, i < q.itagMicFree → q'.tagData i = q.tagData i) →
        ∃ r r', overwriteUnusedSpace env q chZero = some r ∧
          overwriteUnusedSpace env q' chZero = some r' ∧ SameShape r r' ∧
          r'.itagMicFree = r.itagMicFree ∧ r'.ctagReserved = r.ctagReserved ∧
          ∀ a, a < r.cbBuffer → ¬ InChecksum r a → r'.buf a = r.buf a) := by
  obtain ⟨q, q', hq, hq', hinv', halike⟩ := run_alike hsort htwins hinv hpages hpre hbits
  refine ⟨q, q', hq, hq', halike.itagMicFree, fun hlines => ?_⟩
  refine ⟨_, _, overwriteUnusedSpace_eq env hinv' chZero,
    overwriteUnusedSpace_eq env (halike.inv hinv') chZero, ?_, ?_, ?_, ?_⟩
  · exact ⟨halike.shape.cbPage, halike.shape.cbBuffer⟩
  · exact halike.itagMicFree
  · exact halike.ctagReserved
  · intro a ha hsum
    exact scrubbed_alike hinv' halike hlines chZero ha hsum

/-- A 2K page with an empty external header and one line of 2000 bytes, up to the tags; `b` is the
byte of the line at address 2037. -/
def fullPage (b : UInt8) : Page where
  cbPage := 2048
  cbBuffer := 2048
  buf := fun a =>
    if a = 32 then 0xd0 else if a = 33 then 0x07 else
    if a = 34 then 0x02 else if a = 35 then 0x10 else
    if a = 2037 then b else
    if a = 2040 then 0xd0 else if a = 2041 then 0x07 else 0
  itagMicFree := 2
  ctagReserved := 1

/-- The line is replaced by one of two bytes, and another such line is added behind it. -/
def shrinkAndAdd : List PageOp := [.replace 1 [.bytes [1, 2]] 0, .insert 2 [.bytes [3, 4]] 0]

theorem fullPage_inv : LayoutInv (fullPage 0) where
  normal := ⟨by decide, rfl⟩
  valid := by decide

theorem insertionTagSort_sortsByKeys : SortsByKeys insertionTagSort := by
  intro key key' tags hkeys
  have hmap := map_insertionSort (r := fun i j => key' i ≤ key' j)
    (s := fun i j => key i ≤ key j) id tags fun i hi j hj => by
      rw [hkeys i hi, hkeys j hj]
      rfl
  rwa [map_id, map_id] at hmap

theorem fullPage_preRun : PreRun reservedTagsEnv (fullPage 0) shrinkAndAdd := by
  refine ⟨⟨by decide, by decide⟩, ?_⟩
  intro q hq
  have hroom : ((exec reservedTagsEnv (fullPage 0) (.replace 1 [.bytes [1, 2]] 0)).all fun q =>
      2 ≤ q.itagMicFree && 6 ≤ q.cbFree) = true := by decide +kernel
  rw [hq, Option.all_some, Bool.and_eq_true, decide_eq_true_eq, decide_eq_true_eq] at hroom
  exact ⟨hroom, fun _ _ => trivial⟩

/-- The byte at 2037 is one of the line that is replaced, yet its upper bits stay in the tag of the
new line, and on the page image. -/
theorem fullPage_residue :
    (∀ a, (fullPage 0xff).buf a ≠ (fullPage 0).buf a → InLine (fullPage 0) a) ∧
      LayoutInv (fullPage 0) ∧ PreRun reservedTagsEnv (fullPage 0) shrinkAndAdd ∧
      ∃ q q' r r', run reservedTagsEnv (fullPage 0) shrinkAndAdd = some q ∧
        run reservedTagsEnv (fullPage 0xff) shrinkAndAdd = some q' ∧
        (∀ i, i < q.itagMicFree → q'.tagData i = q.tagData i) ∧
        overwriteUnusedSpace reservedTagsEnv q 0 = some r ∧
        overwriteUnusedSpace reservedTagsEnv q' 0 = some r' ∧
        r.buf 2037 = 0 ∧ r'.buf 2037 = 0xe0 := by
  refine ⟨?_, fullPage_inv, fullPage_preRun, _, _, _, _, rfl, rfl, ?_, rfl, rfl, ?_, ?_⟩
  · intro a hne
    obtain rfl : a = 2037 := by
      by_contra hother
      simp only [fullPage, hother, if_false, ne_eq, not_true_eq_false] at hne
    exact ⟨1, by decide, by decide, by decide⟩
  · decide +kernel
  · decide +kernel
  · decide +kernel

theorem fullPage_alike (b : UInt8) : Alike 2 (fullPage 0) (fullPage b) := by
  refine ⟨⟨rfl, rfl⟩, rfl, rfl, ?_⟩
  intro a ha
  have hother : a ≠ 2037 := by
    rintro rfl
    exact not_lit (by decide) (by decide) ha
  simp only [fullPage, hother, if_false]

/-- A byte with the same upper bits leaves nothing. -/
theorem fullPage_noResidue :
    (fullPage 0x1f).buf 2037 ≠ (fullPage 0).buf 2037 ∧
      ∃ q q' r r', run reservedTagsEnv (fullPage 0) shrinkAndAdd = some q ∧
        run reservedTagsEnv (fullPage 0x1f) shrinkAndAdd = some q' ∧
        overwriteUnusedSpace reservedTagsEnv q 0 = some r ∧
        overwriteUnusedSpace reservedTagsEnv q' 0 = some r' ∧
        ∀ a, a < r.cbBuffer → ¬ InChecksum r a → r'.buf a = r.buf a := by
  refine ⟨by decide, ?_⟩
  have htwins : Forall₂ Twin shrinkAndAdd shrinkAndAdd :=
    .cons (.replace 1 0 rfl) (.cons (.insert 2 0 rfl) .nil)
  have hbits : TagBitsAgreeRun reservedTagsEnv (fullPage 0) (fullPage 0x1f) shrinkAndAdd
      shrinkAndAdd := by
    refine ⟨trivial, ?_⟩
    intro q q' hq hq'
    have hsame : ((exec reservedTagsEnv (fullPage 0) (.replace 1 [.bytes [1, 2]] 0)).all fun q =>
        (exec reservedTagsEnv (fullPage 0x1f) (.replace 1 [.bytes [1, 2]] 0)).all fun q' =>
          q.fSmallPageFormat && keptBits q (word q'.buf (q.ptagFromItag 2)) ==
            keptBits q (word q.buf (q.ptagFromItag 2))) = true := by decide +kernel
    rw [hq, hq', Option.all_some, Option.all_some, Bool.and_eq_true, beq_iff_eq] at hsame
    exact ⟨fun _ => ⟨hsame.2, Or.inl hsame.1⟩, fun _ _ _ _ => trivial⟩
  obtain ⟨q, q', hq, hq', -, hend⟩ := overwritten_noResidue reservedTagsEnv
    insertionTagSort_sortsByKeys (fullPage 0) (fullPage 0x1f) shrinkAndAdd shrinkAndAdd 0
    fullPage_inv (fullPage_alike 0x1f) htwins fullPage_preRun hbits
  have hlines : ((run reservedTagsEnv (fullPage 0) shrinkAndAdd).all fun q =>
      (run reservedTagsEnv (fullPage 0x1f) shrinkAndAdd).all fun q' =>
        (range q.itagMicFree).all fun i => q'.tagData i == q.tagData i) = true := by
    decide +kernel
  rw [hq, hq', Option.all_some, Option.all_some, all_eq_true] at hlines
  obtain ⟨r, r', hr, hr', -, -, -, hbytes⟩ := hend fun i hi =>
    beq_iff_eq.mp (hlines i (mem_range.mpr hi))
  exact ⟨q, q', r, r', hq, hq', hr, hr', hbytes⟩

end EseLinux.PageTwins
