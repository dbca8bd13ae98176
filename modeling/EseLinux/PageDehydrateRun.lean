import EseLinux.PageDehydrate

/-!
Runs of dehydrations, each to a size that the page allows, and the rehydration that ends them.
-/

namespace EseLinux.PageDehydrateRun

open ByteMemory PageDehydrate PageFormat PageLayout PageStamp PageTags

/-- One call of `DehydratePage`. -/
structure Shrink where
  fDirty : Bool
  cbNewSize : Nat
deriving DecidableEq, Repr

def dehydrations (env : DehydrateEnv) : Page → List Shrink → Option (List Page)
  | _, [] => some []
  | p, s :: ss =>
    (dehydratePage env p s.fDirty s.cbNewSize).bind fun q =>
      (dehydrations env q ss).map (q :: ·)

/-- The sizes of a run are between the reported minimum and the size of the buffer. -/
def InRange (env : DehydrateEnv) : Page → List Shrink → Prop
  | _, [] => True
  | p, s :: ss =>
    ((fPageIsDehydratable env p).2 = true →
      (fPageIsDehydratable env p).1 ≤ s.cbNewSize ∧ s.cbNewSize ≤ p.cbBuffer) ∧
    ∀ q, dehydratePage env p s.fDirty s.cbNewSize = some q → InRange env q ss

def TagsApart (p : Page) : Prop :=
  ∀ i j, i < p.itagMicFree → j < p.itagMicFree → p.tagCb i ≠ 0 →
    p.pbFromIb (p.tagIb i) + p.tagCb i ≤ p.ptagFromItag j ∧ p.ptagFromItag j + cbTag ≤ p.cbBuffer

section Runs

variable {env : DehydrateEnv} {p q : Page}

theorem tagsApart_of_bufferInv (hinv : BufferInv p) : TagsApart p := by
  intro i j hi hj hcb
  have hfits := hinv.fits
  have hbelow := hinv.below hi hcb
  simp only [cbContent, Page.cbTagArray, cbTag] at hfits
  simp only [Page.pbFromIb, Page.ptagFromItag, cbTag]
  omega

theorem dehydrations_spec (hinv : BufferInv p) (steps : List Shrink)
    (hrange : InRange env p steps) :
    ∃ qs, dehydrations env p steps = some qs ∧ (∀ q ∈ qs, Intact p q) ∧
      Intact p (qs.getLastD p) ∧ (qs.getLastD p).cbBuffer ≤ p.cbBuffer ∧
      ∀ s ∈ steps.head?, (fPageIsDehydratable env p).2 = true →
        (qs.getLastD p).cbBuffer ≤ s.cbNewSize := by
  induction steps generalizing p with
  | nil => exact ⟨[], rfl, by simp, Intact.refl hinv, le_rfl, by simp⟩
  | cons s ss ih =>
    obtain ⟨q, hq, hintact, hcb⟩ := dehydratePage_spec env hinv s.fDirty hrange.1
    obtain ⟨qs, hqs, hall, hend, hlast, -⟩ := ih hintact.inv (hrange.2 q hq)
    have hle : q.cbBuffer ≤ p.cbBuffer := by
      rw [hcb]
      split
      · rename_i hdehydratable
        exact (hrange.1 hdehydratable).2
      · exact le_rfl
    refine ⟨q :: qs, by simp only [dehydrations, hq, hqs, Option.bind_some, Option.map_some],
      ?_, ?_⟩
    · rintro r (_ | ⟨_, hr⟩)
      · exact hintact
      · exact hintact.trans (hall r hr)
    · rw [List.getLastD_cons]
      refine ⟨hintact.trans hend, hlast.trans hle, ?_⟩
      rintro _ ⟨⟩ hdehydratable
      rw [if_pos hdehydratable] at hcb
      exact hlast.trans hcb.le

/-- A page that is dehydrated, any number of times, and then rehydrated has its lines, its flags,
its header and its free space again; on the way no tag overlaps a line. -/
theorem rehydratePage_dehydrations (env : DehydrateEnv) (p : Page) (s : Shrink)
    (ss : List Shrink) (hinv : LayoutInv p) (hdehydratable : (fPageIsDehydratable env p).2 = true)
    (hlt : s.cbNewSize < p.cbBuffer) (hrange : InRange env p (s :: ss)) :
    ∃ qs, dehydrations env p (s :: ss) = some qs ∧ (∀ q ∈ qs, Intact p q ∧ TagsApart q) ∧
      ∀ fDirty fresh, ∃ r, rehydratePage env (qs.getLastD p) fDirty fresh = some r ∧
        Intact p r ∧ TagsApart r ∧ LayoutInv r ∧ r.cbBuffer = p.cbBuffer ∧
        r.cbFree = p.cbFree := by
  have hbuf := LayoutInv.bufferInv hinv
  obtain ⟨qs, hqs, hall, hend, -, hlast⟩ := dehydrations_spec hbuf (s :: ss) hrange
  have hsmaller := hlast s rfl hdehydratable
  refine ⟨qs, hqs, fun r hr => ⟨hall r hr, tagsApart_of_bufferInv (hall r hr).inv⟩, ?_⟩
  intro fDirty fresh
  have hfull := hinv.normal.cbBuffer_eq
  obtain ⟨r, hr, hgrown, hsize⟩ := rehydratePage_spec env hend.inv fDirty fresh
    (by rw [hend.cbPage]; omega)
  have hpr := hend.trans hgrown
  rw [hend.cbPage] at hsize
  refine ⟨r, hr, hpr, tagsApart_of_bufferInv hpr.inv,
    ⟨⟨hpr.inv.size, hsize.trans hpr.cbPage.symm⟩, hpr.inv.valid⟩, hsize.trans hfull.symm, ?_⟩
  have hfree := hpr.cbPageFree
  simp only [Page.cbPageFree, Page.cbAdjustForPage, hpr.cbPage, hsize, hfull] at hfree
  omega

end Runs

def loosePage : Page where
  cbPage := 16384
  cbBuffer := 16384
  buf
    | 24 => 5 | 28 => 0xa8 | 29 => 0x3f | 32 => 4 | 34 => 1 | 80 => 1 | 16380 => 4 | _ => 0
  itagMicFree := 1
  ctagReserved := 1

theorem loosePage_inv : LayoutInv loosePage where
  normal := ⟨by decide, rfl⟩
  valid := by decide

def commitEnv (computePageChecksum : Memory → Nat → PageChecksum) : DehydrateEnv :=
  ⟨4096, false, computePageChecksum⟩

theorem loosePage_dehydratable (compute : Memory → Nat → PageChecksum) :
    fPageIsDehydratable (commitEnv compute) loosePage = (88, true) := by
  have hinit : fUninitialized loosePage = false := by decide
  have hcontent : cbContent loosePage = 88 := by decide
  have hfree : loosePage.cbContiguousBufferFree = 16296 := by decide
  have hbuffer : loosePage.cbBuffer = 16384 := rfl
  simp [fPageIsDehydratable, commitEnv, hinit, hcontent, hfree, cbContiguousDehydrateRequired,
    hbuffer, ulSub]

theorem loosePage_inRange (compute : Memory → Nat → PageChecksum) (fDirty : Bool) :
    InRange (commitEnv compute) loosePage [⟨fDirty, 4096⟩] := by
  refine ⟨fun _ => ?_, fun _ _ => trivial⟩
  rw [loosePage_dehydratable]
  simp [loosePage]

theorem loosePage_rehydrated :
    ∃ qs, dehydrations (commitEnv fun _ _ => ⟨0, 0, 0, 0⟩) loosePage [⟨true, 4096⟩] = some qs ∧
      (∀ q ∈ qs, Intact loosePage q ∧ TagsApart q) ∧
      ∀ fDirty fresh, ∃ r, rehydratePage (commitEnv fun _ _ => ⟨0, 0, 0, 0⟩)
          (qs.getLastD loosePage) fDirty fresh = some r ∧
        Intact loosePage r ∧ TagsApart r ∧ LayoutInv r ∧ r.cbBuffer = loosePage.cbBuffer ∧
        r.cbFree = loosePage.cbFree :=
  rehydratePage_dehydrations _ loosePage ⟨true, 4096⟩ [] loosePage_inv
    (by rw [loosePage_dehydratable]) (by decide) (loosePage_inRange _ true)

/-- Whatever the checksum is, a clean page comes back with the flag of the new checksum format. -/
theorem loosePage_restamped :
    LayoutInv loosePage ∧ loosePage.fFlags = 0 ∧ ∀ compute : Memory → Nat → PageChecksum,
        fPageIsDehydratable (commitEnv compute) loosePage = (88, true) ∧
        ∃ q r, dehydratePage (commitEnv compute) loosePage false 4096 = some q ∧
          rehydratePage (commitEnv compute) q false (fun _ => 0) = some r ∧
          r.fFlags = 0x2000 := by
  refine ⟨loosePage_inv, rfl, fun compute => ⟨loosePage_dehydratable compute, ?_⟩⟩
  obtain ⟨q, hq, hintact, hcb⟩ := dehydratePage_spec (commitEnv compute)
    (LayoutInv.bufferInv loosePage_inv) false (loosePage_inRange compute false).1
  have hdehydratable : (fPageIsDehydratable (commitEnv compute) loosePage).2 = true := by
    rw [loosePage_dehydratable]
  have hsmaller : q.cbBuffer < q.cbPage := by
    rw [hcb, if_pos hdehydratable, hintact.cbPage]
    simp [loosePage]
  obtain ⟨r, hr, hgrown, -⟩ :=
    rehydratePage_spec (commitEnv compute) hintact.inv false (fun _ => 0) hsmaller
  refine ⟨q, r, hq, hr, ?_⟩
  have hflag : q.buf 37 = 0x20 := dehydratePage_flag hdehydratable hq hintact
  have hend : r.buf 37 = 0x20 := by
    rcases hgrown.flag with h | h <;> rw [h, hflag]
    rfl
  have hother (a : Nat) (ha : a = 36 ∨ a = 38 ∨ a = 39) : r.buf a = 0 := by
    have hheader : loosePage.cbPageHeader = 80 := rfl
    rw [(hintact.trans hgrown).header a (by omega) (by simp only [StampByte]; omega) (by omega)]
    rcases ha with rfl | rfl | rfl <;> rfl
  simp only [Page.fFlags, dword, word, Nat.reduceAdd, hother, hend, true_or, or_true]
  rfl

/-- The units that are committed for a buffer of `cb` bytes. -/
def cCommitUnits (cbCommitGranularity cb : Nat) : Nat :=
  (cb + (cbCommitGranularity - 1)) / cbCommitGranularity

/-- A page that is reported as dehydratable fits in the minimum size, and a buffer of that size
has at least one unit less. -/
def SoundAnswer (env : DehydrateEnv) (p : Page) : Prop :=
  (fPageIsDehydratable env p).2 = true → cbContent p ≤ (fPageIsDehydratable env p).1 ∧
      cCommitUnits env.cbCommitGranularity (fPageIsDehydratable env p).1 + 1 ≤
        cCommitUnits env.cbCommitGranularity p.cbBuffer

section Units

variable {env : DehydrateEnv} {p : Page}

theorem cCommitUnits_mono (cbCommitGranularity : Nat) {cb cb' : Nat} (hle : cb ≤ cb') :
    cCommitUnits cbCommitGranularity cb ≤ cCommitUnits cbCommitGranularity cb' :=
  Nat.div_le_div_right (Nat.add_le_add_right hle _)

theorem cCommitUnits_add {cbCommitGranularity : Nat} (hpos : 0 < cbCommitGranularity) (cb : Nat) :
    cCommitUnits cbCommitGranularity (cb + cbCommitGranularity) =
      cCommitUnits cbCommitGranularity cb + 1 := by
  rw [cCommitUnits, add_right_comm, Nat.add_div_right _ hpos]
  rfl

theorem soundAnswer_of_le (hinv : BufferInv p) (hpos : 0 < env.cbCommitGranularity)
    (hle : env.cbCommitGranularity ≤ p.cbBuffer) : SoundAnswer env p := by
  intro htrue
  have hcontent : cbContent p ≤ (fPageIsDehydratable env p).1 := content_le_of_minimum hinv (le_rfl)
  refine ⟨hcontent, ?_⟩
  have hmax : p.cbBuffer < 2 ^ 32 := by
    have hbuffer := hinv.cbBuffer_le
    have hpage := hinv.cbPage_le
    omega
  have hroom : (fPageIsDehydratable env p).1 < p.cbBuffer - env.cbCommitGranularity := by
    rw [← ulSub_of_le hle hmax]
    by_cases hinit : fUninitialized p = true
    · simp [fPageIsDehydratable, hinit] at htrue
    · simpa only [fPageIsDehydratable, hinit, Bool.false_eq_true, if_false,
        decide_eq_true_eq] using htrue
  rw [← cCommitUnits_add hpos]
  exact cCommitUnits_mono _ (by omega)

/-- A unit larger than the buffer makes the difference of the sizes wrap around: the page is
reported with its own size as the minimum. -/
theorem fPageIsDehydratable_of_lt (hinv : BufferInv p) (hinit : fUninitialized p = false)
    (hlt : p.cbBuffer < env.cbCommitGranularity) (hint : env.cbCommitGranularity < 2 ^ 31) :
    fPageIsDehydratable env p = (p.cbPage, true) := by
  have hfree : ¬ ((env.cbCommitGranularity : Int) ≤ p.cbContiguousBufferFree) := by
    simp only [Page.cbContiguousBufferFree, Page.cbBufferData]
    omega
  have hpage := hinv.cbPage_le
  have hwrap : p.cbPage < ulSub p.cbBuffer env.cbCommitGranularity := by
    rw [ulSub, Nat.mod_eq_of_lt (by omega)]
    omega
  simp only [fPageIsDehydratable, hinit, hfree, false_and, if_false, Bool.false_eq_true, hwrap,
    decide_true]

/-- The answer is sound exactly when a unit fits in the buffer; a page that was never initialized
is not reported at all. -/
theorem fPageIsDehydratable_sound_iff (env : DehydrateEnv) (p : Page) (hinv : BufferInv p)
    (hpos : 0 < env.cbCommitGranularity) (hint : env.cbCommitGranularity < 2 ^ 31) :
    SoundAnswer env p ↔ fUninitialized p = true ∨ env.cbCommitGranularity ≤ p.cbBuffer := by
  constructor
  · intro hsound
    by_contra hnot
    simp only [not_or, Bool.not_eq_true, not_le] at hnot
    have hanswer := fPageIsDehydratable_of_lt hinv hnot.1 hnot.2 hint
    have hunits := (hsound (by rw [hanswer])).2
    simp only [hanswer] at hunits
    have hmono := cCommitUnits_mono env.cbCommitGranularity hinv.cbBuffer_le
    omega
  · rintro (hinit | hle)
    · intro htrue
      simp [fPageIsDehydratable, hinit] at htrue
    · exact soundAnswer_of_le hinv hpos hle

end Units

/-- With units of 4K the answer for the page without lines is sound. -/
theorem loosePage_frees : SoundAnswer (commitEnv fun _ _ => ⟨0, 0, 0, 0⟩) loosePage :=
  (fPageIsDehydratable_sound_iff _ loosePage (LayoutInv.bufferInv loosePage_inv) (by decide)
    (by decide)).mpr (Or.inr (by decide))

/-- With units of 64K the same page is reported, though no size of at least its minimum frees
anything. -/
theorem loosePage_frees_nothing :
    LayoutInv loosePage ∧
      fPageIsDehydratable ⟨65536, false, fun _ _ => ⟨0, 0, 0, 0⟩⟩ loosePage = (16384, true) ∧
      ¬ SoundAnswer ⟨65536, false, fun _ _ => ⟨0, 0, 0, 0⟩⟩ loosePage := by
  have hbuf := LayoutInv.bufferInv loosePage_inv
  have hanswer : fPageIsDehydratable ⟨65536, false, fun _ _ => ⟨0, 0, 0, 0⟩⟩ loosePage =
      (16384, true) :=
    fPageIsDehydratable_of_lt hbuf (by decide) (by decide) (by decide)
  refine ⟨loosePage_inv, hanswer, fun hsound => ?_⟩
  have hunits := (hsound (by rw [hanswer])).2
  exact absurd hunits (by decide)

end EseLinux.PageDehydrateRun
