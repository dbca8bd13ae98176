import EseLinux.SortBuffer

/-!
The sort from its first insert to its last record.  Records are inserted one by one, the sort is
ended, and then moved through: from memory if no run has been written, else by the last merge.  It
returns what was inserted in ascending order, with the copies that its flags ask for.
-/

namespace EseLinux.ExternalSort

open SortedThin Function List

section Unique

variable (flags : Flags) (record : Spair → Srec)

/-- Moves the pairs from `ispairSrc` on that do not duplicate the last one kept to the front. -/
def uniqueLoop : Nat → Nat → Nat → (Nat → Spair) → (Nat → Spair) × Nat
  | 0, ispairDest, _, rgspair => (rgspair, ispairDest + 1)
  | count + 1, ispairDest, ispairSrc, rgspair =>
    if fSORTIDuplicate flags (record (rgspair ispairSrc)) (record (rgspair ispairDest)) then
      uniqueLoop count ispairDest (ispairSrc + 1) rgspair
    else
      uniqueLoop count (ispairDest + 1) (ispairSrc + 1)
        (update rgspair (ispairDest + 1) (rgspair ispairSrc))

def cspairSORTIUnique (rgspair : Nat → Spair) (ispairMac : Nat) : (Nat → Spair) × Nat :=
  if ispairMac = 0 ∨ (flags.fRemoveDuplicateKeyData = false ∧ flags.fRemoveDuplicateKey = false)
  then (rgspair, ispairMac)
  else uniqueLoop flags record (ispairMac - 1) 0 1 rgspair

end Unique

inductive Err where
  | success
  | wrnSortOverflow
  | errNoCurrentRecord
  | errInternalError
  deriving DecidableEq

def cbResidentTTMax : Nat := 64 * 1024

structure Fucb where
  scb : Scb
  mrg : Merge
  ispairCurr : Int

section Model

variable (cbPage : Nat) (alloc : Nat → Pages)

def errOverflow (scb : Scb) : Err :=
  if scb.runs.length > 0 ∨ scb.irecMac * cbIndexGran cbPage > cbResidentTTMax then .wrnSortOverflow
  else .success

def noMerge : Merge := ⟨0, fun _ => ⟨.inf, 0⟩, fun _ => ⟨fun _ _ => 0, 0, 0, 0⟩⟩

def errSORTEndInsert (scb : Scb) : Option (Err × Fucb) :=
  if scb.cRecords = 0 then some (.success, ⟨scb, noMerge, -1⟩)
  else if scb.runs.length ≠ 0 then
    let scb := errSORTIOutputRun cbPage alloc (sortPairs cbPage scb)
    (errSORTIOptTreeMerge (cbFreeSPAGE cbPage) scb.flags alloc scb.runs).bind fun runs =>
      if runs.length ≤ crunFanInMax then
        some (errOverflow cbPage scb, ⟨scb, errSORTIMergeStart runs, -1⟩)
      else none
  else
    let scb := sortPairs cbPage scb
    let r := cspairSORTIUnique scb.flags
      (fun pspair => psrecFromPbIrec cbPage scb.rgbRec pspair.irec) scb.rgspair scb.ispairMac
    let scb := { scb with rgspair := r.1, ispairMac := r.2, cRecords := r.2 }
    some (errOverflow cbPage scb, ⟨scb, noMerge, -1⟩)

def errSORTNext (fucb : Fucb) : Option (Except Err Srec × Fucb) :=
  if fucb.scb.runs.length ≠ 0 then
    (errSORTIMergeNext (cbFreeSPAGE cbPage) fucb.scb.flags fucb.mrg).map fun r =>
      (match r.1 with
        | some srec => .ok srec
        | none => .error .errNoCurrentRecord, { fucb with mrg := r.2 })
  else if fucb.ispairCurr > fucb.scb.ispairMac then some (.error .errInternalError, fucb)
  else if fucb.ispairCurr + 1 < fucb.scb.ispairMac then
    some (.ok (fucb.scb.record cbPage (fucb.ispairCurr + 1).toNat),
      { fucb with ispairCurr := fucb.ispairCurr + 1 })
  else some (.error .errNoCurrentRecord, { fucb with ispairCurr := fucb.scb.ispairMac })

def Delivers : Fucb → List Srec → Prop
  | fucb, [] => ∃ fucb', errSORTNext cbPage fucb = some (.error .errNoCurrentRecord, fucb')
  | fucb, srec :: srecs =>
    ∃ fucb', errSORTNext cbPage fucb = some (.ok srec, fucb') ∧ Delivers fucb' srecs

def runSort (flags : Flags) (rgspair : Nat → Spair) (rgbRec : ByteMemory.Memory)
    (inserted : List Srec) : Option (Err × Fucb) :=
  errSORTEndInsert cbPage alloc
    (inserted.foldl (errSORTInsert cbPage alloc) (errSORTOpen flags rgspair rgbRec))

end Model

def KeyThenData (srec srec' : Srec) : Prop :=
  ((compare srec.key srec'.key).then (compare srec.data srec'.data)).isLE = true

/-- How often a record is to be returned: once, if it has the smallest data of its key; once; or as
often as it was inserted. -/
def multiplicity (flags : Flags) (inserted : List Srec) (srec : Srec) : Nat :=
  if flags.fRemoveDuplicateKey then
    if srec ∈ inserted ∧
        ∀ srec' ∈ inserted, srec'.key = srec.key → (compare srec.data srec'.data).isLE = true
    then 1 else 0
  else if flags.fRemoveDuplicateKeyData then if srec ∈ inserted then 1 else 0
  else inserted.count srec

theorem keyThenData_iff (srec srec' : Srec) :
    KeyThenData srec srec' ↔ (isortiCmpKeyData srec srec').isLE = true := by
  rw [isortiCmpKeyData, isortiCmpKey, KeyOrder.cmpKey_eq_compare, KeyOrder.cmpKey_eq_compare]
  exact Iff.rfl

theorem multiplicity_eq (flags : Flags) (inserted : List Srec) (srec : Srec) :
    multiplicity flags inserted srec =
      keptCount isortiCmpKeyData (fSORTIDuplicate flags) inserted srec := by
  unfold multiplicity
  split
  · rename_i hkey
    have hdup (x y : Srec) : fSORTIDuplicate flags x y = true ↔ x.key = y.key := by
      rw [fSORTIDuplicate, if_pos hkey, decide_eq_true_iff, isortiCmpKey_eq_eq]
    have hleast : (srec ∈ inserted ∧ ∀ srec' ∈ inserted, srec'.key = srec.key →
        (compare srec.data srec'.data).isLE = true) ↔
        Least isortiCmpKeyData (fSORTIDuplicate flags) inserted srec := by
      refine and_congr_right fun _ => forall₂_congr fun srec' _ => ?_
      rw [hdup]
      refine forall_congr' fun hsame => ?_
      rw [← keyThenData_iff, KeyThenData, hsame, Std.ReflOrd.compare_self]
      rfl
    rw [keptCount_of_self ((hdup _ _).mpr rfl)]
    simp only [hleast]
  · rename_i hkey
    split
    · rename_i hdata
      have hdup (x y : Srec) : fSORTIDuplicate flags x y = true ↔ x = y := by
        rw [fSORTIDuplicate, if_neg hkey, if_pos hdata, decide_eq_true_iff]
        exact Std.LawfulEqCmp.compare_eq_iff_eq
      have hleast : srec ∈ inserted ↔
          Least isortiCmpKeyData (fSORTIDuplicate flags) inserted srec := by
        refine ⟨fun hmem => ⟨hmem, ?_⟩, And.left⟩
        intro srec' _ hsame
        rw [(hdup _ _).mp hsame]
        exact Std.ReflCmp.isLE_rfl
      rw [keptCount_of_self ((hdup _ _).mpr rfl)]
      simp only [hleast]
    · rename_i hdata
      rw [keptCount_of_not_self]
      rw [fSORTIDuplicate, if_neg hkey, if_neg hdata]

section Correct

variable {cbPage : Nat}

theorem map_update_range {β : Type*} (f : Spair → β) (rgspair : Nat → Spair) (pspair : Spair)
    (n : Nat) : (range (n + 1)).map (fun i => f (update rgspair n pspair i)) =
      (range n).map (fun i => f (rgspair i)) ++ [f pspair] := by
  rw [range_succ, map_append, map_singleton, update_self]
  refine congrArg (· ++ [f pspair]) (map_congr_left fun i hi => ?_)
  rw [update_of_ne (mem_range.mp hi).ne]

theorem uniqueLoop_spec (flags : Flags) (record : Spair → Srec) (count : Nat) {dest src : Nat}
    (rgspair : Nat → Spair) (hdest : dest < src) :
    (range (uniqueLoop flags record count dest src rgspair).2).map
        (fun i => record ((uniqueLoop flags record count dest src rgspair).1 i)) =
      (range (dest + 1)).map (fun i => record (rgspair i)) ++
        thinKept (fSORTIDuplicate flags) (record (rgspair dest))
          ((range' src count).map fun i => record (rgspair i)) := by
  induction count generalizing dest src rgspair with
  | zero => simp [uniqueLoop, thinKept]
  | succ count ih =>
    rw [uniqueLoop, range'_succ, map_cons, thinKept]
    split
    · exact ih rgspair (by omega)
    · rw [ih _ (by omega), map_update_range, update_self, append_assoc]
      have hlater : (range' (src + 1) count).map
          (fun i => record (update rgspair (dest + 1) (rgspair src) i)) =
          (range' (src + 1) count).map fun i => record (rgspair i) := by
        apply map_congr_left
        intro i hi
        have := (mem_range'_1.mp hi).1
        rw [update_of_ne (by omega)]
      rw [hlater]
      rfl

theorem thinFrom_none {dup : Srec → Srec → Bool} (h : ∀ x y, dup x y = false) (last : Srec)
    (srecs : List Srec) : thinFrom dup last srecs = srecs := by
  induction srecs generalizing last with
  | nil => rfl
  | cons srec srecs ih =>
    rw [thinFrom, h]
    exact congrArg (srec :: ·) (ih srec)

theorem cspairSORTIUnique_spec (flags : Flags) (record : Spair → Srec) (rgspair : Nat → Spair)
    (ispairMac : Nat) :
    (range (cspairSORTIUnique flags record rgspair ispairMac).2).map
        (fun i => record ((cspairSORTIUnique flags record rgspair ispairMac).1 i)) =
      thin (fSORTIDuplicate flags) ((range ispairMac).map fun i => record (rgspair i)) := by
  unfold cspairSORTIUnique
  cases ispairMac with
  | zero => rfl
  | succ mac =>
    have hrange : (range (mac + 1)).map (fun i => record (rgspair i)) =
        record (rgspair 0) :: (range' 1 mac).map fun i => record (rgspair i) := by
      rw [range_eq_range', range'_succ, map_cons]
    split
    · rename_i hnone
      have hdup x y : fSORTIDuplicate flags x y = false := by
        have hflags := hnone.resolve_left (Nat.succ_ne_zero mac)
        simp [fSORTIDuplicate, hflags.1, hflags.2]
      rw [hrange, thin, thinFrom_none hdup]
    · rw [hrange, thin, Nat.add_sub_cancel,
        uniqueLoop_spec flags record mac rgspair Nat.zero_lt_one,
        thinKept_eq (classes_duplicate flags) (fun _ => rfl)]
      rfl

theorem delivers_memory (fucb : Fucb) (hruns : fucb.scb.runs = []) {k : Nat}
    (hk : k ≤ fucb.scb.ispairMac) (hcurr : fucb.ispairCurr = k - 1) :
    Delivers cbPage fucb
      ((range' k (fucb.scb.ispairMac - k)).map (fucb.scb.record cbPage)) := by
  induction hn : fucb.scb.ispairMac - k generalizing fucb k with
  | zero =>
    refine ⟨{ fucb with ispairCurr := fucb.scb.ispairMac }, ?_⟩
    rw [errSORTNext, hruns, if_neg (by simp), if_neg (by omega), if_neg (by omega)]
  | succ n ih =>
    rw [range'_succ, map_cons]
    refine ⟨{ fucb with ispairCurr := fucb.ispairCurr + 1 }, ?_, ?_⟩
    · rw [errSORTNext, hruns, if_neg (by simp), if_neg (by omega), if_pos (by omega),
        show (fucb.ispairCurr + 1).toNat = k by omega]
    · refine ih { fucb with ispairCurr := fucb.ispairCurr + 1 } hruns
        (by show k + 1 ≤ fucb.scb.ispairMac; omega) ?_
        (by show fucb.scb.ispairMac - (k + 1) = n; omega)
      show fucb.ispairCurr + 1 = ((k + 1 : Nat) : Int) - 1
      omega

theorem delivers_merge (fucb : Fucb) (hruns : fucb.scb.runs.length ≠ 0) {srecs : List Srec}
    (h : Yields (cbFreeSPAGE cbPage) fucb.scb.flags fucb.mrg srecs) :
    Delivers cbPage fucb srecs := by
  induction srecs generalizing fucb with
  | nil =>
    obtain ⟨mrg', hnext⟩ := h
    refine ⟨{ fucb with mrg := mrg' }, ?_⟩
    rw [errSORTNext, if_pos hruns, hnext]
    rfl
  | cons srec srecs ih =>
    obtain ⟨mrg', hnext, hrest⟩ := h
    refine ⟨{ fucb with mrg := mrg' }, ?_, ?_⟩
    · rw [errSORTNext, if_pos hruns, hnext]
      rfl
    · exact ih { fucb with mrg := mrg' } hruns hrest

variable {inserted : List Srec} {scb : Scb}

theorem loaded_inserts (alloc : Nat → Pages) (hpage : SortPageSize cbPage)
    (h : Loaded cbPage scb inserted) {srecs : List Srec} (hfit : FitPages cbPage
    (inserted ++ srecs))
    (hkeys : KeysApart (inserted ++ srecs)) :
    Loaded cbPage (srecs.foldl (errSORTInsert cbPage alloc) scb) (inserted ++ srecs) ∧
      (srecs.foldl (errSORTInsert cbPage alloc) scb).flags = scb.flags := by
  induction srecs generalizing scb inserted with
  | nil => exact ⟨by rwa [append_nil], rfl⟩
  | cons srec srecs ih =>
    rw [append_cons] at hfit hkeys ⊢
    have hleft : ∀ {x}, x ∈ inserted ++ [srec] → x ∈ inserted ++ [srec] ++ srecs :=
      mem_append_left _
    have hnext := h.insert alloc hpage (fun x hx => hfit x (hleft hx))
      fun x hx y hy => hkeys x (hleft hx) y (hleft hy)
    obtain ⟨hloaded, hflags⟩ := ih hnext hfit hkeys
    refine ⟨hloaded, hflags.trans ?_⟩
    unfold errSORTInsert
    split <;> rfl

def Returned (flags : Flags) (inserted srecs : List Srec) : Prop :=
  srecs.Pairwise KeyThenData ∧ ∀ srec, srecs.count srec = multiplicity flags inserted srec

theorem returned_thin {flags : Flags} {sorted : List Srec}
    (hsorted : Ascending isortiCmpKeyData sorted) (hsame : SameKept flags sorted inserted) :
    Returned flags inserted (thin (fSORTIDuplicate flags) sorted) := by
  constructor
  · exact (hsorted.thin _).imp fun h => (keyThenData_iff _ _).mpr h
  · intro srec
    rw [multiplicity_eq, count_thin (classes_duplicate flags) hsorted]
    exact hsame srec

theorem Loaded.endInsert_memory (alloc : Nat → Pages)
    (h : Loaded cbPage scb inserted) (hkeys : KeysApart inserted) (hne : inserted ≠ [])
    (hruns : scb.runs = []) :
    ∃ err fucb srecs, errSORTEndInsert cbPage alloc scb = some (err, fucb) ∧
      Delivers cbPage fucb srecs ∧ Returned scb.flags inserted srecs := by
  obtain ⟨lists, srecs, hholds, hbuffer, hsub, hsame⟩ := h.buffer
  rw [hruns] at hholds
  obtain rfl : lists = [] := by
    cases hholds
    rfl
  obtain ⟨sorted, hbuffered, hperm, hsorted⟩ := hbuffer.sortPairs
    fun x hx y hy => hkeys x (hsub hx) y (hsub hy)
  have hcRecords : scb.cRecords ≠ 0 := by
    rw [h.cRecords, Ne, length_eq_zero_iff]
    exact hne
  rw [errSORTEndInsert, if_neg hcRecords, if_neg (by simp [hruns])]
  refine ⟨_, _, _, rfl, delivers_memory _ hruns (Nat.zero_le _) rfl, ?_⟩
  have hrecords := cspairSORTIUnique_spec scb.flags
    (fun pspair => psrecFromPbIrec cbPage scb.rgbRec pspair.irec)
    (sortPairs cbPage scb).rgspair scb.ispairMac
  have hthin : (range scb.ispairMac).map (fun i => psrecFromPbIrec cbPage scb.rgbRec
      ((sortPairs cbPage scb).rgspair i).irec) = sorted := hbuffered.records
  rw [hthin] at hrecords
  rw [Nat.sub_zero, ← range_eq_range']
  refine (congrArg (Returned scb.flags inserted) hrecords).mpr (returned_thin hsorted ?_)
  intro z
  exact (keepAlike_of_perm hperm z).trans (hsame z)

theorem Loaded.endInsert_merge (alloc : Nat → Pages) (hpage : SortPageSize cbPage)
    (h : Loaded cbPage scb inserted) (hfit : FitPages cbPage inserted)
    (hkeys : KeysApart inserted) (hne : inserted ≠ []) (hruns : scb.runs ≠ []) :
    ∃ err fucb srecs, errSORTEndInsert cbPage alloc scb = some (err, fucb) ∧
      Delivers cbPage fucb srecs ∧ Returned scb.flags inserted srecs := by
  obtain ⟨lists, hholds, hsame⟩ := h.spill alloc hpage hfit hkeys
  have hlen : scb.runs.length ≠ 0 := fun hzero => hruns (eq_nil_of_length_eq_zero hzero)
  have hcRecords : scb.cRecords ≠ 0 := by
    rw [h.cRecords, Ne, length_eq_zero_iff]
    exact hne
  have hcount : (errSORTIOutputRun cbPage alloc (sortPairs cbPage scb)).runs.length =
      scb.runs.length + 1 := rfl
  obtain ⟨runs, hplan, hmin, hmax, hmade⟩ := optTreeMerge_spec scb.flags alloc hholds
    (by omega)
  obtain ⟨lists', hholds', hsame'⟩ := hmade
  obtain ⟨sorted, hsorted, hperm, hyields⟩ := mergeStart_yields scb.flags hholds' hmin
  rw [errSORTEndInsert, if_neg hcRecords, if_pos hlen]
  have hdelivers := delivers_merge ⟨errSORTIOutputRun cbPage alloc (sortPairs cbPage scb),
    errSORTIMergeStart runs, -1⟩ (Nat.succ_ne_zero scb.runs.length) hyields
  refine ⟨errOverflow cbPage (errSORTIOutputRun cbPage alloc (sortPairs cbPage scb)), _, _, ?_,
    hdelivers, returned_thin hsorted ?_⟩
  · show (errSORTIOptTreeMerge (cbFreeSPAGE cbPage) scb.flags alloc _).bind _ = _
    rw [hplan, Option.bind_some, if_pos hmax]
  · intro z
    exact ((keepAlike_of_perm hperm z).trans (hsame' z)).trans (hsame z)

/-- The sort is correct from end to end.  Whatever is inserted, in whatever memory and on whatever
pages, as long as every record fits on a sort page and no key begins another: moving through the
sort returns records in ascending order, each as often as the flags ask for, and then tells that
there is none left. -/
theorem sort_returns (hpage : SortPageSize cbPage) (alloc : Nat → Pages) (flags : Flags)
    (rgspair : Nat → Spair) (rgbRec : ByteMemory.Memory) (inserted : List Srec)
    (hfit : FitPages cbPage inserted) (hkeys : KeysApart inserted) :
    ∃ err fucb srecs, runSort cbPage alloc flags rgspair rgbRec inserted = some (err, fucb) ∧
      Delivers cbPage fucb srecs ∧ srecs.Pairwise KeyThenData ∧
      ∀ srec, srecs.count srec = multiplicity flags inserted srec := by
  by_cases hne : inserted = []
  · subst hne
    refine ⟨_, _, [], rfl, ⟨_, rfl⟩, .nil, ?_⟩
    intro srec
    rw [multiplicity_eq, ← count_thin (classes_duplicate flags) .nil]
    rfl
  · have hopen : Loaded cbPage (errSORTOpen flags rgspair rgbRec) [] :=
      ⟨⟨[], [], .nil, buffered_open flags rgspair rgbRec, nil_subset _, fun _ => rfl⟩, rfl⟩
    obtain ⟨hloaded, hflags⟩ := loaded_inserts alloc hpage hopen hfit hkeys
    rw [runSort]
    by_cases hruns : (inserted.foldl (errSORTInsert cbPage alloc)
        (errSORTOpen flags rgspair rgbRec)).runs = []
    · have hend := hloaded.endInsert_memory alloc hkeys hne hruns
      rwa [hflags] at hend
    · have hend := hloaded.endInsert_merge alloc hpage hfit hkeys hne hruns
      rwa [hflags] at hend

/-- Copies of a record that take more than the memory of a sort, sorted with duplicates removed. -/
theorem copies_sorted : SortPageSize 4096 ∧
    ∃ err fucb srecs, runSort 4096 (fun _ _ _ => 0) ⟨false, true⟩ (fun _ => ⟨0, []⟩) (fun _ => 0)
        (⟨[1], [9, 9]⟩ :: replicate 1000000 ⟨[2], [7]⟩) = some (err, fucb) ∧
      Delivers 4096 fucb srecs ∧ srecs.Pairwise KeyThenData ∧
      ∀ srec, srecs.count srec =
        multiplicity ⟨false, true⟩ (⟨[1], [9, 9]⟩ :: replicate 1000000 ⟨[2], [7]⟩) srec := by
  have hmem srec (h : srec ∈ (⟨[1], [9, 9]⟩ : Srec) :: replicate 1000000 ⟨[2], [7]⟩) :
      srec = ⟨[1], [9, 9]⟩ ∨ srec = ⟨[2], [7]⟩ :=
    (mem_cons.mp h).imp_right eq_of_mem_replicate
  refine ⟨.inl rfl, sort_returns (.inl rfl) _ _ _ _ _ (fun srec h => ?_) fun srec h srec' h' => ?_⟩
  · obtain rfl | rfl := hmem srec h <;> decide
  · obtain rfl | rfl := hmem srec h <;> obtain rfl | rfl := hmem srec' h' <;> decide

end Correct

end EseLinux.ExternalSort
