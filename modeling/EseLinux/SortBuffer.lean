import EseLinux.SortPlan
import EseLinux.SortQuick

/-!
The sort buffers.  Records are put into normal memory one after the other, each at a multiple of the
index granularity, with a sort pair for each; when either memory is full the pairs are sorted and
the records written out as a run.
-/

namespace EseLinux.ExternalSort

open ByteMemory SegmentSort SortQuick SortedThin List

def cbPageMin : Nat := 4096

def cbFreeSPAGE (cbPage : Nat) : Nat := max cbPage cbPageMin - 8

def cbSortMemNorm : Nat := 1024 * 1024

def cspairSortMax : Nat := 4088

def cbSortMemNormUsed (cbPage : Nat) : Nat :=
  cbSortMemNorm / cbFreeSPAGE cbPage * cbFreeSPAGE cbPage

/-- The granularity at which an index of 16 bits addresses the record buffer. -/
def cbIndexGran (cbPage : Nat) : Nat := (cbSortMemNormUsed cbPage + 0xFFFF) / 0x10000

def cirecToStoreCb (cbPage cb : Nat) : Nat := (cb + cbIndexGran cbPage - 1) / cbIndexGran cbPage

structure Scb where
  flags : Flags
  rgspair : Nat → Spair
  ispairMac : Nat
  rgbRec : Memory
  irecMac : Nat
  crecBuf : Nat
  cbData : Nat
  cRecords : Nat
  runs : List Run

def errSORTOpen (flags : Flags) (rgspair : Nat → Spair) (rgbRec : Memory) : Scb where
  flags
  rgspair
  ispairMac := 0
  rgbRec
  irecMac := 0
  crecBuf := 0
  cbData := 0
  cRecords := 0
  runs := []

section Model

variable (cbPage : Nat) (alloc : Nat → Pages)

def psrecFromPbIrec (rgbRec : Memory) (irec : Nat) : Srec :=
  psrec rgbRec (irec * cbIndexGran cbPage)

def Scb.record (scb : Scb) (ispair : Nat) : Srec :=
  psrecFromPbIrec cbPage scb.rgbRec (scb.rgspair ispair).irec

def Scb.records (scb : Scb) : List Srec := (range scb.ispairMac).map (scb.record cbPage)

def Scb.text (scb : Scb) (irec : Nat) : List UInt8 := (psrecFromPbIrec cbPage scb.rgbRec irec).text

def sortPairs (scb : Scb) : Scb :=
  { scb with
    rgspair := sortiQuicksort (isortiCmpPspairPspair (scb.text cbPage)) scb.rgspair 0
      scb.ispairMac [] }

def outputLoop (flags : Flags) : Option Srec → List Srec → RunOut → RunOut
  | _, [], out => out
  | none, srec :: srecs, out =>
    outputLoop flags (some srec) srecs (errSORTIRunInsert (cbFreeSPAGE cbPage) out srec)
  | some last, srec :: srecs, out =>
    outputLoop flags (some srec) srecs
      (if fSORTIDuplicate flags srec last then out
        else errSORTIRunInsert (cbFreeSPAGE cbPage) out srec)

/-- Writes the buffer out as a run, put before the others, and empties it. -/
def errSORTIOutputRun (scb : Scb) : Scb :=
  { scb with
    ispairMac := 0
    irecMac := 0
    crecBuf := 0
    cbData := 0
    runs := sortiRunEnd (outputLoop cbPage scb.flags none (scb.records cbPage)
      (errSORTIRunStart (alloc scb.cbData))) :: scb.runs }

def addRecord (scb : Scb) (srec : Srec) : Scb :=
  let rgbRec := store scb.rgbRec (scb.irecMac * cbIndexGran cbPage) srec.bytes
  { scb with
    rgbRec
    irecMac := scb.irecMac + cirecToStoreCb cbPage srec.cbRec
    crecBuf := scb.crecBuf + 1
    cbData := scb.cbData + srec.cbRec
    rgspair := Function.update scb.rgspair scb.ispairMac
      ⟨scb.irecMac % 65536, rgbKeyOf (psrecFromPbIrec cbPage rgbRec scb.irecMac)⟩
    ispairMac := scb.ispairMac + 1
    cRecords := scb.cRecords + 1 }

def fFull (scb : Scb) (srec : Srec) : Prop :=
  scb.irecMac * cbIndexGran cbPage + srec.cbRec > cbSortMemNormUsed cbPage ∨
    scb.crecBuf = cspairSortMax

instance (scb : Scb) (srec : Srec) : Decidable (fFull cbPage scb srec) :=
  inferInstanceAs (Decidable (_ ∨ _))

def errSORTInsert (scb : Scb) (srec : Srec) : Scb :=
  addRecord cbPage
    (if fFull cbPage scb srec then errSORTIOutputRun cbPage alloc (sortPairs cbPage scb) else scb)
    srec

end Model

def SortPageSize (cbPage : Nat) : Prop :=
  cbPage = 4096 ∨ cbPage = 8192 ∨ cbPage = 16384 ∨ cbPage = 32768

theorem SortPageSize.sizes {cbPage : Nat} (h : SortPageSize cbPage) :
    cbIndexGran cbPage = 16 ∧ cbFreeSPAGE cbPage < 32768 ∧
      cbFreeSPAGE cbPage ≤ cbSortMemNormUsed cbPage ∧
      cbSortMemNormUsed cbPage ≤ 65536 * cbIndexGran cbPage := by
  rcases h with rfl | rfl | rfl | rfl <;> decide

section Correct

variable {cbPage : Nat} {alloc : Nat → Pages} {scb : Scb}

/-- The pair's record is in the buffer, below `irecMac`. -/
structure Stored (cbPage irecMac : Nat) (rgbRec : Memory) (pspair : Spair) : Prop where
  bytes : slice rgbRec (pspair.irec * cbIndexGran cbPage)
      (psrecFromPbIrec cbPage rgbRec pspair.irec).cbRec =
    (psrecFromPbIrec cbPage rgbRec pspair.irec).bytes
  size : (psrecFromPbIrec cbPage rgbRec pspair.irec).cbRec < 65536
  below : pspair.irec * cbIndexGran cbPage + (psrecFromPbIrec cbPage rgbRec pspair.irec).cbRec ≤
    irecMac * cbIndexGran cbPage
  rgbKey : pspair.rgbKey = rgbKeyOf (psrecFromPbIrec cbPage rgbRec pspair.irec)

structure Buffered (cbPage : Nat) (scb : Scb) (srecs : List Srec) : Prop where
  records : scb.records cbPage = srecs
  stored : ∀ ispair < scb.ispairMac, Stored cbPage scb.irecMac scb.rgbRec (scb.rgspair ispair)

theorem buffered_open (flags : Flags) (rgspair : Nat → Spair) (rgbRec : Memory) :
    Buffered cbPage (errSORTOpen flags rgspair rgbRec) [] := ⟨rfl, nofun⟩

theorem buffered_outputRun (scb : Scb) : Buffered cbPage (errSORTIOutputRun cbPage alloc scb) [] :=
  ⟨rfl, nofun⟩

theorem Stored.store {irecMac : Nat} {rgbRec : Memory} {pspair : Spair}
    (h : Stored cbPage irecMac rgbRec pspair) (bs : List UInt8) {irecMac' : Nat}
    (hmac : irecMac ≤ irecMac') :
    psrecFromPbIrec cbPage (store rgbRec (irecMac * cbIndexGran cbPage) bs) pspair.irec =
        psrecFromPbIrec cbPage rgbRec pspair.irec ∧
      Stored cbPage irecMac' (store rgbRec (irecMac * cbIndexGran cbPage) bs) pspair := by
  have hbelow := h.below
  have hslice : slice (ByteMemory.store rgbRec (irecMac * cbIndexGran cbPage) bs)
      (pspair.irec * cbIndexGran cbPage) (psrecFromPbIrec cbPage rgbRec pspair.irec).cbRec =
      (psrecFromPbIrec cbPage rgbRec pspair.irec).bytes := by
    rw [(store_agreeOn rgbRec _ bs _ _ (.inl hbelow)).slice_eq]
    exact h.bytes
  have hsame : psrecFromPbIrec cbPage (ByteMemory.store rgbRec (irecMac * cbIndexGran cbPage) bs)
      pspair.irec = psrecFromPbIrec cbPage rgbRec pspair.irec :=
    (psrec_of_slice hslice h.size).1
  refine ⟨hsame, ?_, ?_, ?_, ?_⟩
  · rw [hsame]
    exact hslice
  · rw [hsame]
    exact h.size
  · rw [hsame]
    exact h.below.trans (Nat.mul_le_mul_right _ hmac)
  · rw [hsame]
    exact h.rgbKey

theorem le_cirecToStoreCb (hgran : 0 < cbIndexGran cbPage) (cb : Nat) :
    cb ≤ cirecToStoreCb cbPage cb * cbIndexGran cbPage := by
  have hdiv := Nat.div_add_mod (cb + cbIndexGran cbPage - 1) (cbIndexGran cbPage)
  have hmod := Nat.mod_lt (cb + cbIndexGran cbPage - 1) hgran
  rw [mul_comm] at hdiv
  unfold cirecToStoreCb
  omega

variable {srecs : List Srec} {srec : Srec}

theorem Buffered.addRecord (hpage : SortPageSize cbPage)
    (h : Buffered cbPage scb srecs) (hsize : srec.cbRec < 65536)
    (hroom : scb.irecMac * cbIndexGran cbPage + srec.cbRec ≤ cbSortMemNormUsed cbPage) :
    Buffered cbPage (addRecord cbPage scb srec) (srecs ++ [srec]) := by
  obtain ⟨hgran, -, -, hused⟩ := hpage.sizes
  have hheader : 0 < srec.cbRec := by
    unfold Srec.cbRec cbSrecHeader
    omega
  have hirec : scb.irecMac < 65536 := by
    rw [hgran] at hroom hused
    omega
  have hmac : scb.irecMac ≤ scb.irecMac + cirecToStoreCb cbPage srec.cbRec := Nat.le_add_right _ _
  have hslice : slice (ByteMemory.store scb.rgbRec (scb.irecMac * cbIndexGran cbPage) srec.bytes)
      (scb.irecMac * cbIndexGran cbPage) srec.cbRec = srec.bytes := by
    rw [← srec.bytes_length]
    exact slice_store _ _ _
  have hnew : psrecFromPbIrec cbPage
      (ByteMemory.store scb.rgbRec (scb.irecMac * cbIndexGran cbPage) srec.bytes) scb.irecMac =
      srec := (psrec_of_slice hslice hsize).1
  have hpair : (ExternalSort.addRecord cbPage scb srec).rgspair scb.ispairMac =
      ⟨scb.irecMac, rgbKeyOf srec⟩ := by
    simp only [ExternalSort.addRecord, Function.update_self, hnew, Nat.mod_eq_of_lt hirec]
  have hold : ∀ ispair < scb.ispairMac,
      (ExternalSort.addRecord cbPage scb srec).rgspair ispair = scb.rgspair ispair :=
    fun ispair hlt => Function.update_of_ne (ne_of_lt hlt) _ _
  constructor
  · rw [← h.records, Scb.records, Scb.records]
    show (range (scb.ispairMac + 1)).map _ = _
    rw [range_succ, map_append, map_singleton, Scb.record, hpair]
    refine congrArg₂ (· ++ ·) ?_ (congrArg (fun srec => [srec]) hnew)
    apply map_congr_left
    intro ispair hmem
    have hlt := mem_range.mp hmem
    rw [Scb.record, hold ispair hlt]
    exact ((h.stored ispair hlt).store srec.bytes hmac).1
  · intro ispair hlt
    by_cases hlast : ispair = scb.ispairMac
    · rw [hlast, hpair]
      have hbelow : srec.cbRec ≤ cirecToStoreCb cbPage srec.cbRec * cbIndexGran cbPage :=
        le_cirecToStoreCb (by omega) srec.cbRec
      refine ⟨?_, ?_, ?_, congrArg rgbKeyOf hnew.symm⟩
      · show slice _ _ (psrecFromPbIrec cbPage _ scb.irecMac).cbRec = _
        simp only [ExternalSort.addRecord, hnew]
        exact hslice
      · simp only [ExternalSort.addRecord, hnew]
        exact hsize
      · simp only [ExternalSort.addRecord, hnew, add_mul]
        omega
    · have hlt' : ispair < scb.ispairMac := by
        have : ispair < scb.ispairMac + 1 := hlt
        omega
      rw [hold ispair hlt']
      exact ((h.stored ispair hlt').store srec.bytes hmac).2

def KeysApart (srecs : List Srec) : Prop :=
  ∀ srec ∈ srecs, ∀ srec' ∈ srecs, srec.key <+: srec'.key → srec.key = srec'.key

theorem Buffered.sortPairs (h : Buffered cbPage scb srecs) (hkeys : KeysApart srecs) :
    ∃ sorted, Buffered cbPage (sortPairs cbPage scb) sorted ∧ sorted.Perm srecs ∧
      Ascending isortiCmpKeyData sorted := by
  obtain ⟨hmoved, hsorted⟩ := sortiQuicksort_spec (isortiCmpPspairPspair (scb.text cbPage))
    scb.rgspair 0 scb.ispairMac
  have hstored : ∀ ispair < scb.ispairMac, Stored cbPage scb.irecMac scb.rgbRec
      ((ExternalSort.sortPairs cbPage scb).rgspair ispair) := by
    intro ispair hlt
    exact hmoved.forall (p := Stored cbPage scb.irecMac scb.rgbRec)
      (fun i _ hi => h.stored i hi) ispair (Nat.zero_le _) hlt
  have hperm : ((ExternalSort.sortPairs cbPage scb).records cbPage).Perm srecs := by
    have hpairs := hmoved.perm.map fun pspair => psrecFromPbIrec cbPage scb.rgbRec pspair.irec
    rw [map_map, map_map] at hpairs
    rw [← h.records]
    exact hpairs
  refine ⟨_, ⟨rfl, hstored⟩, hperm, ?_⟩
  rw [Ascending, Scb.records, pairwise_map]
  have hrange : (range scb.ispairMac).Pairwise fun i j => i < j ∧ j < scb.ispairMac :=
    pairwise_lt_range.imp_of_mem fun _ hj hlt => ⟨hlt, mem_range.mp hj⟩
  apply hrange.imp
  rintro i j ⟨hij, hj⟩
  have hi : i < scb.ispairMac := hij.trans hj
  have hmem ispair (hlt : ispair < scb.ispairMac) :
      (ExternalSort.sortPairs cbPage scb).record cbPage ispair ∈ srecs := by
    exact hperm.mem_iff.mp (mem_map_of_mem (mem_range.mpr hlt))
  have hle := hsorted i j (Nat.zero_le _) hij hj
  have hcmp : isortiCmpPspairPspair (scb.text cbPage)
      ((ExternalSort.sortPairs cbPage scb).rgspair i)
      ((ExternalSort.sortPairs cbPage scb).rgspair j) =
      isortiCmpKeyData ((ExternalSort.sortPairs cbPage scb).record cbPage i)
        ((ExternalSort.sortPairs cbPage scb).record cbPage j) := by
    rw [isortiCmpPspairPspair_eq ⟨rfl, (hstored i hi).rgbKey⟩ ⟨rfl, (hstored j hj).rgbKey⟩]
    exact compare_text (hkeys _ (hmem i hi) _ (hmem j hj)) (hkeys _ (hmem j hj) _ (hmem i hi))
  exact (congrArg Ordering.isLE hcmp).symm.trans hle

theorem outputLoop_from {flags : Flags} (last : Srec)
    (hfits : Fits (cbFreeSPAGE cbPage) srecs) {out : RunOut} {old : List Srec}
    (hout : out.Holds (cbFreeSPAGE cbPage) old) :
    (outputLoop cbPage flags (some last) srecs out).Holds (cbFreeSPAGE cbPage)
      (old ++ thinFrom (fSORTIDuplicate flags) last srecs) := by
  induction srecs generalizing last out old with
  | nil => rwa [thinFrom, append_nil]
  | cons srec srecs ih =>
    have hrest : Fits (cbFreeSPAGE cbPage) srecs :=
      fun srec' hmem => hfits srec' (mem_cons_of_mem _ hmem)
    rw [outputLoop, thinFrom]
    split
    · exact ih srec hrest hout
    · have hnext := ih srec hrest
        (holds_runInsert hout (hfits srec mem_cons_self).1)
      rwa [append_assoc] at hnext

theorem outputLoop_spec {flags : Flags} (hfits : Fits (cbFreeSPAGE cbPage) srecs) {out : RunOut}
    (hout : out.Holds (cbFreeSPAGE cbPage) []) :
    (outputLoop cbPage flags none srecs out).Holds (cbFreeSPAGE cbPage)
      (thin (fSORTIDuplicate flags) srecs) := by
  cases srecs with
  | nil => exact hout
  | cons srec srecs =>
    rw [outputLoop]
    exact outputLoop_from srec (fun srec' hmem => hfits srec' (mem_cons_of_mem _ hmem))
      (holds_runInsert hout (hfits srec mem_cons_self).1)

theorem Buffered.outputRun {sorted : List Srec} (h : Buffered cbPage scb sorted)
    (hsorted : Ascending isortiCmpKeyData sorted) (hfits : Fits (cbFreeSPAGE cbPage) sorted)
    {lists : List (List Srec)} (hruns : HoldsAll (cbFreeSPAGE cbPage) scb.runs lists) :
    HoldsAll (cbFreeSPAGE cbPage) (errSORTIOutputRun cbPage alloc scb).runs
      (thin (fSORTIDuplicate scb.flags) sorted :: lists) := by
  refine .cons ⟨?_, hsorted.thin _, ?_⟩ hruns
  · rw [h.records]
    exact (outputLoop_spec hfits (holds_runStart _)).runEnd
  · exact fun srec hmem => hfits srec ((thin_sublist _ sorted).subset hmem)

/-- What the sort keeps of its runs and its buffer is what it is to keep of the records
inserted. -/
structure Loaded (cbPage : Nat) (scb : Scb) (inserted : List Srec) : Prop where
  buffer : ∃ lists srecs, HoldsAll (cbFreeSPAGE cbPage) scb.runs lists ∧
    Buffered cbPage scb srecs ∧ srecs ⊆ inserted ∧
    SameKept scb.flags (lists.flatten ++ srecs) inserted
  cRecords : scb.cRecords = inserted.length

def FitPages (cbPage : Nat) (srecs : List Srec) : Prop :=
  ∀ srec ∈ srecs, srec.cbRec < cbFreeSPAGE cbPage

theorem FitPages.fits (hpage : SortPageSize cbPage)
    (h : FitPages cbPage srecs) : Fits (cbFreeSPAGE cbPage) srecs := by
  intro srec hmem
  have hsize := h srec hmem
  have hmax := hpage.sizes.2.1
  omega

variable {inserted : List Srec}

theorem Loaded.spill (alloc : Nat → Pages) (hpage : SortPageSize cbPage)
    (h : Loaded cbPage scb inserted) (hfit : FitPages cbPage inserted)
    (hkeys : KeysApart inserted) : ∃ lists, HoldsAll (cbFreeSPAGE cbPage)
        (errSORTIOutputRun cbPage alloc (sortPairs cbPage scb)).runs lists ∧
      SameKept scb.flags lists.flatten inserted := by
  obtain ⟨lists, srecs, hruns, hbuffer, hsub, hsame⟩ := h.buffer
  obtain ⟨sorted, hbuffered, hperm, hsorted⟩ := hbuffer.sortPairs
    fun x hx y hy => hkeys x (hsub hx) y (hsub hy)
  have hfits : Fits (cbFreeSPAGE cbPage) sorted :=
    fun srec hmem => hfit.fits hpage srec (hsub (hperm.mem_iff.mp hmem))
  refine ⟨_, hbuffered.outputRun hsorted hfits hruns, ?_⟩
  have hthin : SameKept scb.flags (thin (fSORTIDuplicate scb.flags) sorted) srecs := by
    intro z
    have hkept := keepAlike_of_count (classes_duplicate scb.flags)
      (count_thin (classes_duplicate scb.flags) hsorted)
    exact (hkept z).trans (keepAlike_of_perm hperm z)
  intro z
  rw [flatten_cons]
  have happend := hthin.append (classes_duplicate scb.flags) (fun _ => rfl : SameKept scb.flags
    lists.flatten lists.flatten) z
  exact (happend.trans (keepAlike_of_perm perm_append_comm z)).trans (hsame z)

theorem Loaded.addRecord (hpage : SortPageSize cbPage)
    (h : Loaded cbPage scb inserted) (hsize : srec.cbRec < cbFreeSPAGE cbPage)
    (hroom : scb.irecMac * cbIndexGran cbPage + srec.cbRec ≤ cbSortMemNormUsed cbPage) :
    Loaded cbPage (addRecord cbPage scb srec) (inserted ++ [srec]) := by
  obtain ⟨⟨lists, srecs, hruns, hbuffer, hsub, hsame⟩, hcount⟩ := h
  have hmax := hpage.sizes.2.1
  refine ⟨⟨lists, srecs ++ [srec], hruns, hbuffer.addRecord hpage (by omega) hroom, ?_, ?_⟩, ?_⟩
  · exact append_subset.mpr ⟨fun x hx => mem_append_left _ (hsub hx),
      subset_append_right _ _⟩
  · rw [← append_assoc]
    exact hsame.append (classes_duplicate scb.flags) fun _ => rfl
  · rw [length_append, ← hcount]
    rfl

theorem Loaded.insert (alloc : Nat → Pages) (hpage : SortPageSize cbPage)
    (h : Loaded cbPage scb inserted) (hfit : FitPages cbPage (inserted ++ [srec]))
    (hkeys : KeysApart (inserted ++ [srec])) :
    Loaded cbPage (errSORTInsert cbPage alloc scb srec) (inserted ++ [srec]) := by
  have hsize := hfit srec (mem_append_right _ (mem_singleton_self srec))
  have hleft : ∀ {x}, x ∈ inserted → x ∈ inserted ++ [srec] := mem_append_left _
  unfold errSORTInsert
  split
  · obtain ⟨lists, hruns, hsame⟩ := h.spill alloc hpage
      (fun x hx => hfit x (hleft hx)) fun x hx y hy => hkeys x (hleft hx) y (hleft hy)
    have hspilled : Loaded cbPage (errSORTIOutputRun cbPage alloc (sortPairs cbPage scb))
        inserted := by
      refine ⟨⟨lists, [], hruns, buffered_outputRun _, nil_subset _, ?_⟩, h.cRecords⟩
      rw [append_nil]
      exact hsame
    apply hspilled.addRecord hpage hsize
    have hused := hpage.sizes.2.2.1
    show 0 * _ + _ ≤ _
    omega
  · rename_i hroom
    apply h.addRecord hpage hsize
    unfold fFull at hroom
    omega

theorem Buffered.insert (alloc : Nat → Pages) (hpage : SortPageSize cbPage)
    (h : Buffered cbPage scb srecs) (hsize : srec.cbRec < cbFreeSPAGE cbPage) :
    Buffered cbPage (errSORTInsert cbPage alloc scb srec) (srecs ++ [srec]) ∨
      Buffered cbPage (errSORTInsert cbPage alloc scb srec) [srec] := by
  have hmax := hpage.sizes.2.1
  unfold errSORTInsert
  split
  · right
    apply (buffered_outputRun _).addRecord hpage (by omega)
    have hused := hpage.sizes.2.2.1
    show 0 * _ + _ ≤ _
    omega
  case isFalse hroom =>
    left
    apply h.addRecord hpage (by omega)
    unfold fFull at hroom
    omega

theorem buffered_foldl_insert (alloc : Nat → Pages) (hpage : SortPageSize cbPage)
    (hfit : FitPages cbPage inserted) {old : List Srec}
    (h : Buffered cbPage scb srecs) (hsuffix : srecs <:+ old) :
    ∃ srecs', Buffered cbPage (inserted.foldl (errSORTInsert cbPage alloc) scb) srecs' ∧
      srecs' <:+ old ++ inserted := by
  induction inserted generalizing scb old srecs with
  | nil => exact ⟨srecs, h, by rwa [append_nil]⟩
  | cons srec inserted ih =>
    have hrest : FitPages cbPage inserted := fun x hx => hfit x (mem_cons_of_mem _ hx)
    rw [append_cons]
    rcases h.insert alloc hpage (hfit srec mem_cons_self) with hadded | hfirst
    · obtain ⟨before, rfl⟩ := hsuffix
      exact ih hrest hadded ⟨before, (append_assoc ..).symm⟩
    · exact ih hrest hfirst (suffix_append old [srec])

theorem Buffered.compare_eq (h : Buffered cbPage scb srecs) {i j : Nat}
    (hi : i < scb.ispairMac) (hj : j < scb.ispairMac) :
    isortiCmpPspairPspair (scb.text cbPage) (scb.rgspair i) (scb.rgspair j) =
      compare (scb.record cbPage i).text (scb.record cbPage j).text :=
  isortiCmpPspairPspair_eq ⟨rfl, (h.stored i hi).rgbKey⟩ ⟨rfl, (h.stored j hj).rgbKey⟩

end Correct

/-- Whatever has been inserted into a sort, the pairs of its buffer compare as the keys and data of
their records in one piece do, and as keys and then data do if neither key begins the other. -/
theorem pairs_compare_as_records {cbPage : Nat} (hpage : SortPageSize cbPage)
    (alloc : Nat → Pages) (flags : Flags) (rgspair : Nat → Spair) (rgbRec : Memory)
    {inserted : List Srec} (hfit : FitPages cbPage inserted) :
    let scb := inserted.foldl (errSORTInsert cbPage alloc) (errSORTOpen flags rgspair rgbRec)
    scb.records cbPage <:+ inserted ∧ ∀ i j, i < scb.ispairMac → j < scb.ispairMac →
        isortiCmpPspairPspair (scb.text cbPage) (scb.rgspair i) (scb.rgspair j) =
            compare ((scb.record cbPage i).key ++ (scb.record cbPage i).data)
              ((scb.record cbPage j).key ++ (scb.record cbPage j).data) ∧
          (((scb.record cbPage i).key <+: (scb.record cbPage j).key →
              (scb.record cbPage i).key = (scb.record cbPage j).key) →
            ((scb.record cbPage j).key <+: (scb.record cbPage i).key →
              (scb.record cbPage j).key = (scb.record cbPage i).key) →
            isortiCmpPspairPspair (scb.text cbPage) (scb.rgspair i) (scb.rgspair j) =
              isortiCmpKeyData (scb.record cbPage i) (scb.record cbPage j)) := by
  obtain ⟨srecs, hbuffered, hsuffix⟩ := buffered_foldl_insert alloc hpage hfit
    (buffered_open flags rgspair rgbRec) nil_suffix
  rw [nil_append, ← hbuffered.records] at hsuffix
  refine ⟨hsuffix, fun i j hi hj => ⟨hbuffered.compare_eq hi hj, fun hkey hkey' => ?_⟩⟩
  rw [hbuffered.compare_eq hi hj]
  exact compare_text hkey hkey'

/-- A key that is followed by zeros in its pair, and one that goes on with a zero. -/
def zeroKeys : List Srec := [⟨[1, 2], []⟩, ⟨[1, 2, 0], []⟩]

theorem zeroKeys_compare_as_records :
    let scb := zeroKeys.foldl (errSORTInsert 4096 fun _ _ _ => 0)
      (errSORTOpen ⟨false, false⟩ (fun _ => ⟨0, []⟩) fun _ => 0)
    FitPages 4096 zeroKeys ∧ scb.ispairMac = 2 ∧
      isortiCmpPspairPspair (scb.text 4096) (scb.rgspair 0) (scb.rgspair 1) =
        compare ((scb.record 4096 0).key ++ (scb.record 4096 0).data)
          ((scb.record 4096 1).key ++ (scb.record 4096 1).data) := by
  have hfit : FitPages 4096 zeroKeys := by
    intro srec hmem
    obtain rfl | rfl : srec = ⟨[1, 2], []⟩ ∨ srec = ⟨[1, 2, 0], []⟩ := by
      simpa [zeroKeys] using hmem
    · decide
    · decide
  have horders := pairs_compare_as_records (.inl rfl : SortPageSize 4096) (fun _ _ _ => 0)
    ⟨false, false⟩ (fun _ => ⟨0, []⟩) (fun _ => 0) hfit
  exact ⟨hfit, by decide, (horders.2 0 1 (by decide) (by decide)).1⟩

end EseLinux.ExternalSort
