import EseLinux.PageRun
import Mathlib.Data.List.MinMax

/-!
The bytes of the data area that belong to no line.  `ReorganizeData_` leaves none of them below
`ibMicFree`; `OverwriteUnusedSpace` fills all of them, walking the lines in the order of their
offsets.
-/

namespace EseLinux.PageGaps

open ByteMemory PageEdit PageFormat PageLayout PageReorganize PageRun PageTags SlotLayout List

def InLine (p : Page) (a : Nat) : Prop :=
  ∃ i < p.itagMicFree, p.pbFromIb (p.tagIb i) ≤ a ∧ a < p.pbFromIb (p.tagIb i) + p.tagCb i

section Packed

variable {p : Page}

theorem inLine_of_packed (hinv : LayoutInv p) (hfull : used (slots p) = p.ibMicFree) {ib : Nat}
    (hib : ib < p.ibMicFree) : InLine p (p.pbFromIb ib) := by
  have hcovered := covered_eq_range hinv.valid.apart hinv.valid.below hfull
  have hmem : ib ∈ covered (slots p) := by
    rw [show covered (slots p) = _ from hcovered]
    exact Finset.mem_range.mpr hib
  obtain ⟨s, hs, hlo, hhi⟩ := mem_covered.mp hmem
  obtain ⟨i, hi, rfl⟩ := mem_map.mp hs
  have hlo' : p.tagIb i ≤ ib := hlo
  have hhi' : ib < p.tagIb i + p.tagCb i := hhi
  refine ⟨i, mem_range.mp hi, ?_, ?_⟩
  · simp only [Page.pbFromIb]
    omega
  · simp only [Page.pbFromIb]
    omega

theorem cbContiguousFree_eq_iff (hinv : LayoutInv p) :
    p.cbContiguousFree = p.cbFree ↔ used (slots p) = p.ibMicFree := by
  have hacc := hinv.accounting
  rw [hinv.contiguous]
  omega

end Packed

/-- `ReorganizeData_` leaves the lines of all tags as they are, reserved tags included, and packs
them: no byte below `ibMicFree` is unused, so that all free bytes are contiguous. -/
theorem reorganizeData_packs (env : Env) (p : Page) (hinv : LayoutInv p) :
    ∃ q, reorganizeData env p = some q ∧ LayoutInv q ∧
      q.itagMicFree = p.itagMicFree ∧ q.ctagReserved = p.ctagReserved ∧
      (∀ i, i < p.itagMicFree → q.tagCb i = p.tagCb i ∧ q.tagFFlags i = p.tagFFlags i ∧
        q.tagData i = p.tagData i) ∧
      (∀ ib, ib < q.ibMicFree → InLine q (q.pbFromIb ib)) ∧
      q.cbContiguousFree = q.cbFree ∧ q.cbFree = p.cbFree := by
  obtain ⟨q, hq, hrep, hmic⟩ := reorganizeData_spec env hinv
  have hfull : used (slots q) = q.ibMicFree := by
    rw [hmic]
    exact used_slots_congr hrep.itagMicFree hrep.cbEq
  refine ⟨q, hq, hrep.inv, hrep.itagMicFree, hrep.ctagReserved, ?_, ?_, ?_, hrep.cbFree⟩
  · intro i hi
    have hline := hrep.lineEq i hi
    exact ⟨hrep.cbEq i hi, congrArg Line.fFlags hline, congrArg Line.data hline⟩
  · intro ib hib
    exact inLine_of_packed hrep.inv hfull hib
  · exact (cbContiguousFree_eq_iff hrep.inv).mpr hfull

/-- The crowded page has 102 free bytes, two of them contiguous; then all of them are. -/
theorem crowdedPage_packed :
    crowdedPage.cbContiguousFree = 2 ∧
      ∃ q, reorganizeData reservedTagsEnv crowdedPage = some q ∧ q.cbContiguousFree = 102 := by
  refine ⟨by decide, ?_⟩
  obtain ⟨q, hq, -, -, -, -, -, hcont, hfree⟩ :=
    reorganizeData_packs reservedTagsEnv crowdedPage crowdedPage_inv
  refine ⟨q, hq, ?_⟩
  rw [hcont, hfree]
  decide

def usedTags (p : Page) : List Nat :=
  (range p.itagMicFree).filter fun itag => decide (0 < p.tagCb itag)

/-- The loop of `ZeroOutGaps_` over neighbours in the sorted tags; tags that overlap fail an
`Enforce`. -/
def zeroBetween (chZero : UInt8) : Page → List Nat → Option Page
  | p, itag :: itagNext :: rgptag =>
    let pbStartZeroing := p.pbFromIb (p.tagIb itag) + p.tagCb itag
    let pbNext := p.pbFromIb (p.tagIb itagNext)
    if pbNext < pbStartZeroing then none
    else
      zeroBetween chZero
        (p.setBuf (fill p.buf pbStartZeroing (pbNext - pbStartZeroing) chZero))
        (itagNext :: rgptag)
  | p, _ => some p

def zeroOutGaps (env : Env) (p : Page) (chZero : UInt8) : Option Page :=
  match env.sort.run p.tagIb (usedTags p) with
  | [] => some (p.setIbMicFree 0)
  | itagFirst :: rgptag =>
    let itagLast := rgptag.getLastD itagFirst
    let p := p.setBuf (fill p.buf (p.pbFromIb 0)
      (p.pbFromIb (p.tagIb itagFirst) - p.pbFromIb 0) chZero)
    let p := p.setIbMicFree (p.tagIb itagLast + p.tagCb itagLast)
    zeroBetween chZero p (itagFirst :: rgptag)

def overwriteUnusedSpace (env : Env) (p : Page) (chZero : UInt8) : Option Page := do
  let p ← if p.cbContiguousFree ≠ p.cbFree then zeroOutGaps env p chZero else some p
  return p.setBuf (fill p.buf (p.pbFromIb p.ibMicFree) p.cbContiguousFree.toNat chZero)

def Follows (s t : Slot) : Prop := s.ib + s.cb ≤ t.ib

/-- Fill the bytes between neighbours, in a data area that starts at `base`. -/
def fillBetween (base : Nat) (b : UInt8) : Memory → List Slot → Memory
  | m, s :: t :: slots =>
    fillBetween base b (fill m (base + (s.ib + s.cb)) (t.ib - (s.ib + s.cb)) b) (t :: slots)
  | m, _ => m

section Between

variable {base : Nat} {b : UInt8}

theorem follows_getLastD {s : Slot} {slots : List Slot} (h : (s :: slots).Pairwise Follows) :
    ∀ t ∈ s :: slots, t.ib + t.cb ≤ (slots.getLastD s).ib + (slots.getLastD s).cb := by
  induction slots generalizing s with
  | nil =>
    intro t ht
    rw [mem_singleton.mp ht]
    exact le_rfl
  | cons u slots ih =>
    obtain ⟨hhead, htail⟩ := pairwise_cons.mp h
    have hnext : s.ib + s.cb ≤ u.ib := hhead u mem_cons_self
    have hlast := ih htail
    rw [getLastD_cons]
    intro t ht
    rcases mem_cons.mp ht with rfl | ht
    · have hu := hlast u mem_cons_self
      omega
    · exact hlast t ht

theorem fillBetween_apply {s : Slot} {slots : List Slot} (m : Memory) (a : Nat)
    (h : (s :: slots).Pairwise Follows) :
    fillBetween base b m (s :: slots) a = if base + (s.ib + s.cb) ≤ a ∧
          a < base + ((slots.getLastD s).ib + (slots.getLastD s).cb) ∧
          ∀ t ∈ slots, ¬ (base + t.ib ≤ a ∧ a < base + t.ib + t.cb) then b
      else m a := by
  induction slots generalizing s m with
  | nil =>
    rw [if_neg]
    · rfl
    · rintro ⟨hlo, hhi, -⟩
      rw [getLastD_nil] at hhi
      omega
  | cons t slots ih =>
    obtain ⟨hhead, htail⟩ := pairwise_cons.mp h
    have hnext : s.ib + s.cb ≤ t.ib := hhead t mem_cons_self
    have hlast := follows_getLastD htail t mem_cons_self
    have hbehind : ∀ u ∈ slots, t.ib + t.cb ≤ u.ib := (pairwise_cons.mp htail).1
    have hfilled : fill m (base + (s.ib + s.cb)) (t.ib - (s.ib + s.cb)) b a =
        if base + (s.ib + s.cb) ≤ a ∧ a < base + t.ib then b else m a :=
      if_congr (by omega) rfl rfl
    rw [fillBetween, ih _ htail, getLastD_cons, hfilled, ← ite_or]
    simp only [forall_mem_cons]
    refine if_congr ⟨?_, ?_⟩ rfl rfl
    · rintro (⟨hlo, hhi, hrest⟩ | ⟨hlo, hhi⟩)
      · exact ⟨by omega, hhi, by omega, hrest⟩
      · refine ⟨hlo, by omega, by omega, fun u hu => ?_⟩
        have hu' := hbehind u hu
        omega
    · rintro ⟨hlo, hhi, hout, hrest⟩
      by_cases hlow : a < base + t.ib
      · exact .inr ⟨hlo, hlow⟩
      · exact .inl ⟨by omega, hhi, hrest⟩

end Between

variable {tags : List Nat} {i : Nat}

section Walk

variable {p : Page}

theorem mem_usedTags : i ∈ usedTags p ↔ i < p.itagMicFree ∧ 0 < p.tagCb i := by
  simp [usedTags]

theorem follows_of_sorted (hinv : LayoutInv p) (hperm : tags.Perm (usedTags p))
    (hsorted : tags.Pairwise fun i j => p.tagIb i ≤ p.tagIb j) :
    (tags.map (slot p)).Pairwise Follows := by
  have hnodup : tags.Nodup := hperm.nodup_iff.mpr (nodup_range.filter _)
  refine pairwise_map.mpr ((hsorted.and hnodup).imp_of_mem ?_)
  rintro i j hi hj ⟨hle, hne⟩
  obtain ⟨hin, hcbi⟩ := mem_usedTags.mp (hperm.mem_iff.mp hi)
  obtain ⟨hjn, hcbj⟩ := mem_usedTags.mp (hperm.mem_iff.mp hj)
  rcases hinv.apart hin hjn hne (ne_of_gt hcbi) (ne_of_gt hcbj) with hap | hap
  · exact hap
  · change p.tagIb j + p.tagCb j ≤ p.tagIb i at hap
    omega

theorem zeroBetween_eq (hinv : LayoutInv p) (chZero : UInt8) (tags : List Nat) (m : Memory)
    (hkeep : ∀ i < p.itagMicFree, AgreeOn p.buf m (p.ptagFromItag i) 4)
    (hmem : ∀ i ∈ tags, i ∈ usedTags p) (hfollows : (tags.map (slot p)).Pairwise Follows) :
    zeroBetween chZero (p.setBuf m) tags =
      some (p.setBuf (fillBetween p.cbPageHeader chZero m (tags.map (slot p)))) := by
  induction tags generalizing m with
  | nil => rfl
  | cons i tags ih =>
    cases tags with
    | nil => rfl
    | cons j tags =>
      have hslot : ∀ k ∈ i :: j :: tags, slot (p.setBuf m) k = slot p k := fun k hk =>
        slot_eq_of_agreeOn (sameShape_setBuf p m) (hkeep k (mem_usedTags.mp (hmem k hk)).1)
      have hi := hslot i mem_cons_self
      have hj := hslot j (mem_cons_of_mem i mem_cons_self)
      have hibi : (p.setBuf m).tagIb i = p.tagIb i := congrArg Slot.ib hi
      have hcbi : (p.setBuf m).tagCb i = p.tagCb i := congrArg Slot.cb hi
      have hibj : (p.setBuf m).tagIb j = p.tagIb j := congrArg Slot.ib hj
      obtain ⟨hhead, htail⟩ := pairwise_cons.mp hfollows
      have hnext : p.tagIb i + p.tagCb i ≤ p.tagIb j := hhead (slot p j) mem_cons_self
      obtain ⟨hjn, hcbj⟩ := mem_usedTags.mp (hmem j (mem_cons_of_mem i mem_cons_self))
      have hpb : ∀ ib, (p.setBuf m).pbFromIb ib = p.cbPageHeader + ib := fun _ => rfl
      have horder : ¬ (p.cbPageHeader + p.tagIb j <
          p.cbPageHeader + p.tagIb i + p.tagCb i) := by omega
      have hgap : p.cbPageHeader + p.tagIb j - (p.cbPageHeader + p.tagIb i + p.tagCb i) =
          p.tagIb j - (p.tagIb i + p.tagCb i) := by omega
      simp only [zeroBetween, hibi, hcbi, hibj, hpb, if_neg horder, hgap, setBuf_buf]
      rw [add_assoc]
      refine ih _ ?_ (fun k hk => hmem k (mem_cons_of_mem i hk)) htail
      intro k hk
      refine (hkeep k hk).trans (fill_agreeOn _ _ _ _ _ _ (Or.inr ?_))
      have hend := hinv.data_le_ptag hjn hk (ne_of_gt hcbj)
      simp only [Page.pbFromIb] at hend
      omega

end Walk

def ibDataEnd (p : Page) : Nat :=
  (usedTags p).foldr (fun itag ib => max (p.tagIb itag + p.tagCb itag) ib) 0

instance (p : Page) (a : Nat) : Decidable (InLine p a) :=
  inferInstanceAs (Decidable (∃ i < p.itagMicFree, _))

/-- Every byte between header and tag array that is in no line holds `chZero`, and `ibMicFree` is
the end of the last line. -/
def scrubbed (p : Page) (chZero : UInt8) : Memory := fun a =>
  if p.cbPageHeader ≤ a ∧ a + 4 * p.itagMicFree < p.cbBuffer ∧ ¬ InLine p a then chZero
  else setWord p.buf 32 (ibDataEnd p) a

variable {a : Nat}

section DataEnd

variable {p : Page}

theorem ibDataEnd_eq (p : Page) :
    ibDataEnd p = ((usedTags p).map fun itag => p.tagIb itag + p.tagCb itag).foldr max ⊥ :=
  foldr_map.symm

theorem le_ibDataEnd (h : i ∈ usedTags p) : p.tagIb i + p.tagCb i ≤ ibDataEnd p := by
  rw [ibDataEnd_eq]
  exact le_max_of_le (mem_map_of_mem h) le_rfl

theorem ibDataEnd_le {b : Nat} (h : ∀ i ∈ usedTags p, p.tagIb i + p.tagCb i ≤ b) :
    ibDataEnd p ≤ b := by
  rw [ibDataEnd_eq]
  exact max_le_of_forall_le _ b (forall_mem_map.mpr h)

theorem ibDataEnd_le_ibMicFree (hinv : LayoutInv p) : ibDataEnd p ≤ p.ibMicFree := by
  apply ibDataEnd_le
  intro i hi
  obtain ⟨hin, hcb⟩ := mem_usedTags.mp hi
  exact hinv.below hin (ne_of_gt hcb)

theorem inLine_iff : InLine p a ↔ ∃ i ∈ usedTags p, p.cbPageHeader + p.tagIb i ≤ a ∧
      a < p.cbPageHeader + p.tagIb i + p.tagCb i := by
  constructor
  · rintro ⟨i, hi, hlo, hhi⟩
    exact ⟨i, mem_usedTags.mpr ⟨hi, by omega⟩, hlo, hhi⟩
  · rintro ⟨i, hi, hlo, hhi⟩
    exact ⟨i, (mem_usedTags.mp hi).1, hlo, hhi⟩

theorem InLine.lt (h : InLine p a) : a < p.cbPageHeader + ibDataEnd p := by
  obtain ⟨i, hi, -, hhi⟩ := inLine_iff.mp h
  have hend := le_ibDataEnd hi
  omega

theorem ibDataEnd_of_packed (hinv : LayoutInv p) (hfull : used (slots p) = p.ibMicFree) :
    ibDataEnd p = p.ibMicFree := by
  apply Nat.le_antisymm (ibDataEnd_le_ibMicFree hinv)
  by_contra hnot
  have hlt : ibDataEnd p < p.ibMicFree := Nat.lt_of_not_le hnot
  have hline := (inLine_of_packed hinv hfull hlt).lt
  simp only [Page.pbFromIb] at hline
  omega

end DataEnd

section Overwrite

variable {p : Page}

theorem cbContiguousFree_setBuf (hinv : LayoutInv p) (m : Memory) (ib : Nat)
    (hmic : (p.setBuf m).ibMicFree = ib) (hle : ib ≤ p.ibMicFree) :
    p.cbPageHeader + ib + (p.setBuf m).cbContiguousFree.toNat + 4 * p.itagMicFree = p.cbBuffer := by
  have hfits := hinv.fits
  have hfull := hinv.normal.cbBuffer_eq
  simp only [Page.cbContiguousFree, Page.cbContiguousBufferFree, Page.cbBufferData,
    Page.cbAdjustForPage, Page.cbTagArray, hmic, cbTag]
  change p.cbPageHeader + ib + (((p.cbBuffer - p.cbPageHeader : Nat) : Int) - ib -
    ((p.itagMicFree * 4 : Nat) : Int) + ((p.cbPage - p.cbBuffer : Nat) : Int)).toNat +
    4 * p.itagMicFree = p.cbBuffer
  omega

theorem scrubbed_of_packed (hinv : LayoutInv p) (hfull : used (slots p) = p.ibMicFree)
    (chZero : UInt8) :
    fill p.buf (p.pbFromIb p.ibMicFree) p.cbContiguousFree.toNat chZero = scrubbed p chZero := by
  have hend := ibDataEnd_of_packed hinv hfull
  have hcont := cbContiguousFree_setBuf hinv p.buf p.ibMicFree rfl (Nat.le_refl _)
  have hsame : (p.setBuf p.buf).cbContiguousFree = p.cbContiguousFree := rfl
  funext a
  have hword : setWord p.buf 32 (ibDataEnd p) = p.buf := by
    rw [hend]
    exact setWord_word p.buf 32
  have hiff : (p.cbPageHeader ≤ a ∧ a + 4 * p.itagMicFree < p.cbBuffer ∧ ¬ InLine p a) ↔
      p.pbFromIb p.ibMicFree ≤ a ∧ a < p.pbFromIb p.ibMicFree + p.cbContiguousFree.toNat := by
    simp only [Page.pbFromIb]
    constructor
    · rintro ⟨hlo, hhi, hnot⟩
      refine ⟨?_, by omega⟩
      by_contra hlt
      have hbelow : a - p.cbPageHeader < p.ibMicFree := by omega
      have hin := inLine_of_packed hinv hfull hbelow
      simp only [Page.pbFromIb, Nat.add_sub_cancel' hlo] at hin
      exact hnot hin
    · rintro ⟨hlo, hhi⟩
      refine ⟨by omega, by omega, fun hin => ?_⟩
      have hlt := hin.lt
      omega
  simp only [scrubbed, hword, hiff, fill]

theorem getLastD_eq_ibDataEnd (hperm : (i :: tags).Perm (usedTags p))
    (hfollows : ((i :: tags).map (slot p)).Pairwise Follows) :
    p.tagIb (tags.getLastD i) + p.tagCb (tags.getLastD i) = ibDataEnd p := by
  apply le_antisymm
  · have hmem : tags.getLastD i ∈ i :: tags := getLastD_mem_cons
    exact le_ibDataEnd (hperm.mem_iff.mp hmem)
  · apply ibDataEnd_le
    intro j hj
    have hle := follows_getLastD hfollows (slot p j) (mem_map_of_mem (hperm.mem_iff.mpr hj))
    rw [getLastD_map] at hle
    exact hle

theorem not_inLine_iff (hperm : (i :: tags).Perm (usedTags p)) (a : Nat) :
    ¬ InLine p a ↔ (¬ (p.cbPageHeader + p.tagIb i ≤ a ∧
      a < p.cbPageHeader + p.tagIb i + p.tagCb i)) ∧ ∀ t ∈ tags.map (slot p),
        ¬ (p.cbPageHeader + t.ib ≤ a ∧ a < p.cbPageHeader + t.ib + t.cb) := by
  constructor
  · intro hnot
    refine ⟨fun hin => hnot (inLine_iff.mpr ⟨i, hperm.mem_iff.mp mem_cons_self, hin⟩), ?_⟩
    intro t ht hin
    obtain ⟨j, hj, rfl⟩ := mem_map.mp ht
    exact hnot (inLine_iff.mpr ⟨j, hperm.mem_iff.mp (mem_cons_of_mem i hj), hin⟩)
  · rintro ⟨hi, hrest⟩ hline
    obtain ⟨j, hj, hin⟩ := inLine_iff.mp hline
    rcases mem_cons.mp (hperm.mem_iff.mpr hj) with rfl | hj
    · exact hi hin
    · exact hrest (slot p j) (mem_map_of_mem hj) hin

/-- The page once the bytes in front of the first line are filled and `ibMicFree` is set. -/
def front (p : Page) (chZero : UInt8) (i : Nat) : Memory :=
  setWord (fill p.buf p.cbPageHeader (p.tagIb i) chZero) 32 (ibDataEnd p)

theorem setWord_fill (p : Page) (n ib : Nat) (b : UInt8) (a : Nat) :
    setWord (fill p.buf p.cbPageHeader n b) 32 ib a =
      if p.cbPageHeader ≤ a ∧ a < p.cbPageHeader + n then b else setWord p.buf 32 ib a := by
  have hge := cbPageHeader_ge p
  by_cases hin : p.cbPageHeader ≤ a ∧ a < p.cbPageHeader + n
  · have hne : a ≠ 32 := by omega
    have hne' : a ≠ 32 + 1 := by omega
    simp only [setWord, hne, hne', if_false, fill, if_pos hin]
  · rw [if_neg hin]
    refine setWord_congr fun _ _ => ?_
    simp only [fill, if_neg hin]

theorem scrubbed_of_sorted (hinv : LayoutInv p) (chZero : UInt8)
    (hperm : (i :: tags).Perm (usedTags p))
    (hsorted : (i :: tags).Pairwise fun i j => p.tagIb i ≤ p.tagIb j) {cb : Nat}
    (hcb : p.cbPageHeader + ibDataEnd p + cb + 4 * p.itagMicFree = p.cbBuffer) :
    fill (fillBetween p.cbPageHeader chZero (front p chZero i) ((i :: tags).map (slot p)))
      (p.cbPageHeader + ibDataEnd p) cb chZero = scrubbed p chZero := by
  have hfollows := follows_of_sorted hinv hperm hsorted
  have hiend := le_ibDataEnd (hperm.mem_iff.mp mem_cons_self)
  have hlast : ((tags.map (slot p)).getLastD (slot p i)).ib +
      ((tags.map (slot p)).getLastD (slot p i)).cb = ibDataEnd p := by
    rw [getLastD_map]
    exact getLastD_eq_ibDataEnd hperm hfollows
  funext a
  have hline : InLine p a → p.cbPageHeader + p.tagIb i ≤ a := by
    intro hin
    obtain ⟨j, hj, hlo, -⟩ := inLine_iff.mp hin
    rcases mem_cons.mp (hperm.mem_iff.mpr hj) with rfl | hj
    · exact hlo
    · have hle := (pairwise_cons.mp hsorted).1 j hj
      omega
  have hnot := not_inLine_iff hperm a
  rw [fill, map_cons, fillBetween_apply _ _ hfollows, hlast, front, setWord_fill, scrubbed,
    ← ite_or, ← ite_or]
  refine if_congr ⟨?_, ?_⟩ rfl rfl
  · rintro ((⟨hlo, hhi⟩ | ⟨hlo, hhi, hrest⟩) | ⟨hlo, hhi⟩)
    · refine ⟨by omega, by omega, fun hin => ?_⟩
      have hlt := hin.lt
      omega
    · refine ⟨by omega, by omega, hnot.mpr ⟨fun hin => ?_, hrest⟩⟩
      exact Nat.not_le_of_lt (Nat.add_assoc _ _ _ ▸ hin.2) hlo
    · refine ⟨hlo, by omega, fun hin => ?_⟩
      have hle := hline hin
      omega
  · rintro ⟨hlo, hhi, hout⟩
    obtain ⟨hfirst, hrest⟩ := hnot.mp hout
    by_cases htail : p.cbPageHeader + ibDataEnd p ≤ a
    · exact .inl (.inl ⟨htail, by omega⟩)
    · by_cases hgap : p.cbPageHeader + (p.tagIb i + p.tagCb i) ≤ a
      · exact .inl (.inr ⟨hgap, by omega, hrest⟩)
      · exact .inr ⟨hlo, by omega⟩

theorem fillBetween_frame (base : Nat) (b : UInt8) (m : Memory) (slots : List Slot) :
    Frame (fun a => base ≤ a) m (fillBetween base b m slots) := by
  induction slots generalizing m with
  | nil => exact Frame.refl _ _
  | cons s slots ih =>
    cases slots with
    | nil => exact Frame.refl _ _
    | cons t slots =>
      refine Frame.trans ?_ (ih _)
      exact frame_fill _ _ _ _ fun a hlo _ => by omega

theorem zeroOutGaps_nil (env : Env) (chZero : UInt8)
    (hrun : env.sort.run p.tagIb (usedTags p) = []) :
    zeroOutGaps env p chZero = some (p.setBuf (setWord p.buf 32 (ibDataEnd p))) := by
  have hperm := env.sort.run_perm p.tagIb (usedTags p)
  rw [hrun] at hperm
  have hend : ibDataEnd p = 0 := by rw [ibDataEnd, nil_perm.mp hperm, foldr_nil]
  rw [zeroOutGaps, hrun, hend]
  rfl

theorem zeroOutGaps_cons (env : Env) (hinv : LayoutInv p) (chZero : UInt8)
    (hrun : env.sort.run p.tagIb (usedTags p) = i :: tags) :
    zeroOutGaps env p chZero = some (p.setBuf (fillBetween p.cbPageHeader chZero
      (front p chZero i) ((i :: tags).map (slot p)))) := by
  have hperm := env.sort.run_perm p.tagIb (usedTags p)
  have hsorted := env.sort.run_sorted p.tagIb (usedTags p)
  rw [hrun] at hperm hsorted
  have hfollows := follows_of_sorted hinv hperm hsorted
  have hge := cbPageHeader_ge p
  obtain ⟨hin, hcbi⟩ := mem_usedTags.mp (hperm.mem_iff.mp mem_cons_self)
  have hkeep j (hj : j < p.itagMicFree) :
      AgreeOn p.buf (fill p.buf p.cbPageHeader (p.tagIb i) chZero) (p.ptagFromItag j) 4 := by
    have hend := hinv.data_le_ptag hin hj (ne_of_gt hcbi)
    simp only [Page.pbFromIb] at hend
    exact fill_agreeOn _ _ _ _ _ _ (Or.inr (by omega))
  have hmem : tags.getLastD i ∈ usedTags p := hperm.mem_iff.mp getLastD_mem_cons
  have hslot := slot_eq_of_agreeOn
    (sameShape_setBuf p (fill p.buf p.cbPageHeader (p.tagIb i) chZero))
    (hkeep _ (mem_usedTags.mp hmem).1)
  have hlast := getLastD_eq_ibDataEnd hperm hfollows
  rw [← show _ = p.tagIb (tags.getLastD i) from congrArg Slot.ib hslot,
    ← show _ = p.tagCb (tags.getLastD i) from congrArg Slot.cb hslot] at hlast
  have hwalk := zeroBetween_eq hinv chZero (i :: tags) (front p chZero i) (by
      intro j hj
      have hle := cbPageHeader_le_ptagFromItag (hinv.tagOnPage hj)
      exact (hkeep j hj).trans (setWord_agreeOn _ _ _ _ _ (Or.inr (by omega))))
    (fun j hj => hperm.mem_iff.mp hj) hfollows
  have hgap : p.pbFromIb (p.tagIb i) - p.pbFromIb 0 = p.tagIb i := by
    simp only [Page.pbFromIb]
    omega
  rw [← hwalk, zeroOutGaps, hrun, front, ← hlast]
  simp only [hgap]
  rfl

theorem overwriteUnusedSpace_of_gaps (env : Env) (hinv : LayoutInv p) (chZero : UInt8) (m : Memory)
    (hcont : p.cbContiguousFree ≠ p.cbFree)
    (hgaps : zeroOutGaps env p chZero = some (p.setBuf m))
    (hmic : (p.setBuf m).ibMicFree = ibDataEnd p) :
    ∃ cb, overwriteUnusedSpace env p chZero =
        some (p.setBuf (fill m (p.cbPageHeader + ibDataEnd p) cb chZero)) ∧
      p.cbPageHeader + ibDataEnd p + cb + 4 * p.itagMicFree = p.cbBuffer := by
  refine ⟨_, ?_, cbContiguousFree_setBuf hinv m _ hmic (ibDataEnd_le_ibMicFree hinv)⟩
  simp only [overwriteUnusedSpace, hcont, ne_eq, not_false_eq_true, if_true, hgaps,
    Option.bind_eq_bind, Option.bind_some, hmic]
  rfl

theorem overwriteUnusedSpace_eq (env : Env) (hinv : LayoutInv p) (chZero : UInt8) :
    overwriteUnusedSpace env p chZero = some (p.setBuf (scrubbed p chZero)) := by
  by_cases hcont : p.cbContiguousFree = p.cbFree
  · have hfull := (cbContiguousFree_eq_iff hinv).mp hcont
    simp only [overwriteUnusedSpace, hcont, ne_eq, not_true_eq_false, if_false]
    rw [← scrubbed_of_packed hinv hfull]
    rfl
  have hperm := env.sort.run_perm p.tagIb (usedTags p)
  have hsorted := env.sort.run_sorted p.tagIb (usedTags p)
  have hge := cbPageHeader_ge p
  have hmax := hinv.normal.cbBuffer_lt
  have hfits := hinv.fits
  have hmicLe := ibDataEnd_le_ibMicFree hinv
  have hword : ∀ m, word (setWord m 32 (ibDataEnd p)) 32 = ibDataEnd p := fun m =>
    word_setWord_of_lt m 32 _ (by omega)
  cases hrun : env.sort.run p.tagIb (usedTags p) with
  | nil =>
    rw [hrun] at hperm
    obtain ⟨cb, hover, hcb⟩ := overwriteUnusedSpace_of_gaps env hinv chZero _ hcont
      (zeroOutGaps_nil env chZero hrun) (hword p.buf)
    rw [hover]
    congr 2
    funext a
    have hnone : usedTags p = [] := nil_perm.mp hperm
    have hout : ¬ InLine p a := by simp [inLine_iff, hnone]
    have hend : ibDataEnd p = 0 := by rw [ibDataEnd, hnone, foldr_nil]
    simp only [fill, scrubbed, hout, not_false_eq_true, and_true]
    exact if_congr (by omega) rfl rfl
  | cons i tags =>
    rw [hrun] at hperm hsorted
    have hmic : (p.setBuf (fillBetween p.cbPageHeader chZero (front p chZero i)
        ((i :: tags).map (slot p)))).ibMicFree = ibDataEnd p := by
      have hframe := fillBetween_frame p.cbPageHeader chZero (front p chZero i)
        ((i :: tags).map (slot p))
      exact (hframe.agreeOn fun a _ hhi ha => by omega).word_eq.trans (hword _)
    obtain ⟨cb, hover, hcb⟩ := overwriteUnusedSpace_of_gaps env hinv chZero _ hcont
      (zeroOutGaps_cons env hinv chZero hrun) hmic
    rw [hover, scrubbed_of_sorted hinv chZero hperm hsorted hcb]

theorem scrubbed_of_kept {chZero : UInt8} (hmic : ¬ (32 ≤ a ∧ a < 34))
    (hkept : a < p.cbPageHeader ∨ InLine p a ∨ p.cbBuffer ≤ a + 4 * p.itagMicFree) :
    scrubbed p chZero a = p.buf a := by
  have hout : ¬ (p.cbPageHeader ≤ a ∧ a + 4 * p.itagMicFree < p.cbBuffer ∧ ¬ InLine p a) := by
    rintro ⟨hlo, hhi, hgap⟩
    rcases hkept with h | h | h
    · omega
    · exact hgap h
    · omega
  rw [scrubbed, if_neg hout]
  exact setWord_agreeOn p.buf 32 _ a 1 (by omega) a (le_rfl) (by omega)

theorem scrubbed_ibMicFree (hinv : LayoutInv p) (chZero : UInt8) :
    (p.setBuf (scrubbed p chZero)).ibMicFree = ibDataEnd p := by
  have hge := cbPageHeader_ge p
  have hmax := hinv.normal.cbBuffer_lt
  have hfits := hinv.fits
  have hmicLe := ibDataEnd_le_ibMicFree hinv
  have hagree : AgreeOn (setWord p.buf 32 (ibDataEnd p)) (scrubbed p chZero) 32 2 := by
    intro a hlo hhi
    rw [scrubbed, if_neg (by omega)]
  exact hagree.word_eq.trans (word_setWord_of_lt _ _ _ (by omega))

/-- `OverwriteUnusedSpace` fills every byte between header and tag array that is in no line.  It
changes no byte of a line or of the tag array, and in the header only `ibMicFree`, which becomes
the end of the last line. -/
theorem overwriteUnusedSpace_fills (env : Env) (p : Page) (chZero : UInt8) (hinv : LayoutInv p) :
    ∃ q, overwriteUnusedSpace env p chZero = some q ∧ SameShape p q ∧
      q.itagMicFree = p.itagMicFree ∧ q.ctagReserved = p.ctagReserved ∧
      (∀ a, p.cbPageHeader ≤ a → a + p.cbTagArray < p.cbBuffer → ¬ InLine p a → q.buf a = chZero) ∧
      (∀ a, InLine p a → q.buf a = p.buf a) ∧
      (∀ a, p.cbBuffer ≤ a + p.cbTagArray → q.buf a = p.buf a) ∧
      (∀ a, a < p.cbPageHeader → ¬ (32 ≤ a ∧ a < 34) → q.buf a = p.buf a) ∧
      q.ibMicFree = ibDataEnd p := by
  have hge := cbPageHeader_ge p
  have hfits := hinv.fits
  have htags : p.cbTagArray = 4 * p.itagMicFree := mul_comm _ _
  rw [htags]
  refine ⟨p.setBuf (scrubbed p chZero), overwriteUnusedSpace_eq env hinv chZero,
    sameShape_setBuf p _, rfl, rfl, fun a hlo hhi hgap => if_pos ⟨hlo, hhi, hgap⟩, ?_, ?_, ?_,
    scrubbed_ibMicFree hinv chZero⟩
  · intro a hin
    have hpast : p.cbPageHeader ≤ a := by
      obtain ⟨i, -, hlo, -⟩ := hin
      exact le_trans (Nat.le_add_right _ _) hlo
    exact scrubbed_of_kept (by omega) (Or.inr (Or.inl hin))
  · intro a ha
    exact scrubbed_of_kept (by omega) (Or.inr (Or.inr ha))
  · intro a ha hmic
    exact scrubbed_of_kept hmic (Or.inl ha)

/-- The first hundred bytes of the crowded page are in no line and are filled. -/
theorem crowdedPage_filled :
    ∃ q, overwriteUnusedSpace reservedTagsEnv crowdedPage 0x55 = some q ∧ q.buf 40 = 0x55 := by
  obtain ⟨q, hq, -, -, -, hfill, -⟩ :=
    overwriteUnusedSpace_fills reservedTagsEnv crowdedPage 0x55 crowdedPage_inv
  exact ⟨q, hq, hfill 40 (by decide) (by decide) (by decide)⟩

/-- A 2K page with an empty external header and one line of five bytes at offset 10, as the
deletion of the lines around it leaves it: `ibMicFree` is 100. -/
def sparsePage : Page where
  cbPage := 2048
  cbBuffer := 2048
  buf
    | 28 => 0xcb | 29 => 0x07 | 32 => 100 | 34 => 0x02 | 35 => 0x10 | 2040 => 5 | 2042 => 10
    | _ => 0
  itagMicFree := 2
  ctagReserved := 1

theorem sparsePage_inv : LayoutInv sparsePage where
  normal := ⟨by decide, rfl⟩
  valid := by decide

/-- The header of the sparse page changes: `ibMicFree` goes down from 100 to 15. -/
theorem sparsePage_ibMicFree :
    LayoutInv sparsePage ∧ sparsePage.buf 32 = 100 ∧
      ∃ q, overwriteUnusedSpace reservedTagsEnv sparsePage 0 = some q ∧ q.buf 32 = 15 := by
  refine ⟨sparsePage_inv, rfl, _, overwriteUnusedSpace_eq _ sparsePage_inv 0, ?_⟩
  decide

end Overwrite

end EseLinux.PageGaps
