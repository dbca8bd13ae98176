import EseLinux.SortMerge

/-!
The merge plan.  More than 16 runs are merged level by level down to the last merge; a first merge
of a smaller fan-in is chosen so that all others have the full one.  The plan is a tree whose nodes
say how many original runs and which subtrees they merge, and it is carried out depth first.
-/

namespace EseLinux.ExternalSort

open SortedThin List

def crunFanInMax : Nat := 16

inductive Otnode where
  | node (crun : Nat) (rgpotnode : List Otnode)

section Walk

variable {ρ σ : Type}

def takeRuns : Nat → List ρ → List ρ → Option (List ρ × List ρ)
  | 0, originals, runs => some (runs, originals)
  | _ + 1, [], _ => none
  | crun + 1, run :: originals, runs => takeRuns crun originals (run :: runs)

variable (merge : List ρ → σ → Option (ρ × σ))

mutual

/-- `ErrSORTIOptTreeMergeDF` with any merge: the runs to be merged at a node, the original runs
left, and the state of the merges. -/
def mergeDFWith : Otnode → List ρ → σ → Option (List ρ × List ρ × σ)
  | .node crun rgpotnode, originals, s =>
    (mergeSubtreesWith rgpotnode originals [] s).bind fun r =>
      (takeRuns crun r.2.1 r.1).map fun t => (t.1, t.2, r.2.2)

def mergeSubtreesWith : List Otnode → List ρ → List ρ → σ → Option (List ρ × List ρ × σ)
  | [], originals, runs, s => some (runs, originals, s)
  | potnode :: potnodes, originals, runs, s =>
    (mergeDFWith potnode originals s).bind fun r =>
      (merge r.1 r.2.2).bind fun m => mergeSubtreesWith potnodes r.2.1 (m.1 :: runs) m.2

end

end Walk

section Model

variable (cbFree : Nat) (flags : Flags) (alloc : Nat → Pages)

def mergeToRunLoop : Nat → Merge → RunOut → Option RunOut
  | 0, _, _ => none
  | rounds + 1, mrg, out =>
    match errSORTIMergeNext cbFree flags mrg with
    | none => none
    | some (none, _) => some out
    | some (some srec, mrg') => mergeToRunLoop rounds mrg' (errSORTIRunInsert cbFree out srec)

/-- Merges runs into a new one, on pages allocated for the size of them all.  The tree has a node
for each of 16 runs. -/
def errSORTIMergeToRun (runs : List Run) : Option Run :=
  if runs.length ≤ crunFanInMax then
    (mergeToRunLoop cbFree flags (errSORTIMergeStart runs).rounds (errSORTIMergeStart runs)
      (errSORTIRunStart (alloc (runs.map Run.cbRun).sum))).map sortiRunEnd
  else none

inductive Level where
  | level0 (crun : Nat)
  | nodes (potnodes : List Otnode)

def Level.crun : Level → Nat
  | .level0 crun => crun
  | .nodes potnodes => potnodes.length

/-- The original runs a node merges when the next `n` of a level are added to it. -/
def Level.crunTaken (level : Level) (n crun : Nat) : Nat :=
  match level with
  | .level0 _ => n
  | .nodes _ => crun

def Level.potnodesTaken (level : Level) (n : Nat) : List Otnode :=
  match level with
  | .level0 _ => []
  | .nodes potnodes => potnodes.take n

def Level.drop (level : Level) (n : Nat) : Level :=
  match level with
  | .level0 crun => .level0 (crun - n)
  | .nodes potnodes => .nodes (potnodes.drop n)

/-- A node with the next `n` of a level.  There is room for 16 subtrees. -/
def addRuns (level : Level) (n crun : Nat) (potnodes : List Otnode) : Option Otnode :=
  if (potnodes ++ level.potnodesTaken n).length ≤ crunFanInMax then
    some (.node (level.crunTaken n crun) (potnodes ++ level.potnodesTaken n))
  else none

def crunFanInFirst (crunLast2 crunLast : Nat) : Nat :=
  if crunLast2 + crunLast ≤ crunFanInMax then crunLast2 + crunLast
  else 2 + (crunLast2 + crunLast - crunFanInMax - 1) % (crunFanInMax - 1)

theorem Level.crun_drop (level : Level) (n : Nat) : (level.drop n).crun = level.crun - n := by
  cases level with
  | level0 crun => rfl
  | nodes potnodes => exact length_drop

/-- As many full merges as a level has runs for, put before the nodes there are. -/
def fullMerges (last : Level) (this : List Otnode) : Option (Level × List Otnode) :=
  if crunFanInMax ≤ last.crun then
    match addRuns last crunFanInMax 0 [] with
    | none => none
    | some potnode => fullMerges (last.drop crunFanInMax) (potnode :: this)
  else some (last, this)
termination_by last.crun
decreasing_by
  rw [Level.crun_drop]
  unfold crunFanInMax at *
  omega

/-- One level of the plan: what is left of the last one, and the new one. -/
def buildLevel (last2 last : Level) : Option (Level × Level) :=
  let n := crunFanInFirst last2.crun last.crun - last2.crun
  match addRuns last n (last2.crunTaken last2.crun 0) (last2.potnodesTaken last2.crun) with
  | none => none
  | some potnodeFirst =>
    match fullMerges (last.drop n) [] with
    | none => none
    | some (rest, this) => some (rest, .nodes (potnodeFirst :: this))

variable {last last2 : Level}

theorem fullMerges_crun {this : List Otnode} {rest : Level} {this' : List Otnode}
    (h : fullMerges last this = some (rest, this')) :
    rest.crun + crunFanInMax * this'.length = last.crun + crunFanInMax * this.length ∧
      rest.crun < crunFanInMax := by
  fun_induction fullMerges last this with
  | case1 => cases h
  | case2 last this hfull potnode _ ih =>
    obtain ⟨hcount, hless⟩ := ih h
    rw [Level.crun_drop, length_cons] at hcount
    unfold crunFanInMax at *
    exact ⟨by omega, hless⟩
  | case3 last this hfew =>
    cases h
    exact ⟨rfl, by omega⟩

theorem buildLevel_crun_lt {last2' last' : Level}
    (h : buildLevel last2 last = some (last2', last')) (hmore : 1 < last2'.crun + last'.crun) :
    last2'.crun + last'.crun < last2.crun + last.crun := by
  simp only [buildLevel] at h
  split at h
  · cases h
  · split at h
    · cases h
    · rename_i rest this hfull
      cases h
      have hcount := (fullMerges_crun hfull).1
      rw [Level.crun_drop, length_nil] at hcount
      rw [show (Level.nodes (_ :: this)).crun = this.length + 1 from rfl] at hmore ⊢
      unfold crunFanInFirst crunFanInMax at hcount
      split at hcount <;> omega

def errSORTIOptTreeBuild (last2 last : Level) : Option Otnode :=
  match _h : buildLevel last2 last with
  | none => none
  | some (last2', last') =>
    if _hmore : 1 < last2'.crun + last'.crun then errSORTIOptTreeBuild last2' last'
    else match last' with
      | .nodes (potnode :: _) => some potnode
      | _ => none
termination_by last2.crun + last.crun
decreasing_by exact buildLevel_crun_lt _h _hmore

/-- What `ErrSORTIOptTreeMergeDF` hands to a walk over the plan: the merge of runs into a new
one. -/
def mergeRuns (runs : List Run) (_ : Unit) : Option (Run × Unit) :=
  (errSORTIMergeToRun cbFree flags alloc runs).map (·, ())

def errSORTIOptTreeMergeDF (potnode : Otnode) (originals : List Run) :
    Option (List Run × List Run × Unit) :=
  mergeDFWith (mergeRuns cbFree flags alloc) potnode originals ()

def errSORTIOptTreeMerge (runs : List Run) : Option (List Run) :=
  if runs.length ≤ crunFanInMax then some runs
  else
    (errSORTIOptTreeBuild (.nodes []) (.level0 runs.length)).bind fun potnode =>
      (errSORTIOptTreeMergeDF cbFree flags alloc potnode runs).map Prod.fst

end Model

mutual

def Otnode.originals : Otnode → Nat
  | .node crun rgpotnode => originalsAll rgpotnode + crun

def originalsAll : List Otnode → Nat
  | [] => 0
  | potnode :: potnodes => potnode.originals + originalsAll potnodes

end

def Otnode.fanIn : Otnode → Nat
  | .node crun rgpotnode => crun + rgpotnode.length

inductive Sound : Otnode → Prop
  | node {crun : Nat} {rgpotnode : List Otnode} (hmin : 1 < crun + rgpotnode.length)
      (hmax : crun + rgpotnode.length ≤ crunFanInMax)
      (hsub : ∀ potnode ∈ rgpotnode, Sound potnode) :
      Sound (.node crun rgpotnode)

theorem originalsAll_append (potnodes potnodes' : List Otnode) :
    originalsAll (potnodes ++ potnodes') = originalsAll potnodes + originalsAll potnodes' := by
  induction potnodes with
  | nil => simp [originalsAll]
  | cons potnode potnodes ih =>
    rw [cons_append, originalsAll, ih, originalsAll, add_assoc]

def Level.originals : Level → Nat
  | .level0 crun => crun
  | .nodes potnodes => originalsAll potnodes

def Level.Sound : Level → Prop
  | .level0 _ => True
  | .nodes potnodes => ∀ potnode ∈ potnodes, ExternalSort.Sound potnode

variable {crun : Nat}

theorem addRuns_spec {level : Level} {n : Nat} (potnodes : List Otnode) (hn : n ≤ level.crun)
    (hcrun : ∀ c, level = .level0 c → crun = 0) (hlevel : level.Sound)
    (hnodes : ∀ potnode ∈ potnodes, Sound potnode) (hmin : 1 < crun + potnodes.length + n)
    (hmax : crun + potnodes.length + n ≤ crunFanInMax) :
    ∃ potnode, addRuns level n crun potnodes = some potnode ∧ Sound potnode ∧
      potnode.originals + (level.drop n).originals =
        crun + originalsAll potnodes + level.originals ∧ (level.drop n).Sound := by
  unfold addRuns
  cases level with
  | level0 c =>
    obtain rfl := hcrun c rfl
    rw [Level.potnodesTaken, append_nil, if_pos (by omega)]
    refine ⟨_, rfl, .node ?_ ?_ hnodes, ?_, trivial⟩
    · show 1 < n + _
      omega
    · show n + _ ≤ _
      omega
    · rw [Level.crun] at hn
      simp only [Otnode.originals, Level.crunTaken, Level.drop, Level.originals]
      omega
  | nodes last =>
    rw [Level.crun] at hn
    have hlen : (potnodes ++ last.take n).length = potnodes.length + n := by
      rw [length_append, length_take]
      omega
    rw [Level.potnodesTaken, hlen, if_pos (by omega)]
    refine ⟨_, rfl, .node ?_ ?_ ?_, ?_, ?_⟩
    · rw [hlen]
      show 1 < crun + _
      omega
    · rw [hlen]
      show crun + _ ≤ _
      omega
    · intro potnode hmem
      rcases mem_append.mp hmem with hmem | hmem
      · exact hnodes potnode hmem
      · exact hlevel potnode (mem_of_mem_take hmem)
    · have hsplit := originalsAll_append (last.take n) (last.drop n)
      rw [take_append_drop] at hsplit
      simp only [Otnode.originals, Level.crunTaken, Level.drop, Level.originals,
        originalsAll_append, hsplit]
      omega
    · intro potnode hmem
      exact hlevel potnode (mem_of_mem_drop hmem)

theorem fullMerges_spec (this : List Otnode) (hlast : last.Sound)
    (hthis : ∀ potnode ∈ this, Sound potnode) :
    ∃ rest this', fullMerges last this = some (rest, this') ∧ rest.Sound ∧
      (∀ potnode ∈ this', Sound potnode) ∧
      rest.originals + originalsAll this' = last.originals + originalsAll this := by
  fun_induction fullMerges last this with
  | case1 last this hfull hnone =>
    obtain ⟨potnode, hsome, -⟩ := addRuns_spec [] hfull (fun _ _ => rfl) hlast
      nofun (by decide) (by decide)
    rw [hnone] at hsome
    cases hsome
  | case2 last this hfull potnode hsome ih =>
    obtain ⟨first, hfirst, hsound, hcount, hrest⟩ := addRuns_spec [] hfull
      (fun _ _ => rfl) hlast nofun (by decide) (by decide)
    rw [hsome] at hfirst
    cases hfirst
    obtain ⟨rest, this', heq, hrest', hthis', hcount'⟩ := ih hrest (by
      intro potnode' hmem
      rcases mem_cons.mp hmem with rfl | hmem
      · exact hsound
      · exact hthis potnode' hmem)
    refine ⟨rest, this', heq, hrest', hthis', ?_⟩
    rw [hcount', originalsAll]
    simp only [originalsAll] at hcount
    omega
  | case3 last this hfew => exact ⟨last, this, rfl, hlast, hthis, rfl⟩

/-- Two levels of a plan for `crun` original runs. -/
structure Planned (crun : Nat) (last2 last : Level) : Prop where
  originals : last2.originals + last.originals = crun
  sound2 : last2.Sound
  sound : last.Sound
  apart : ∀ c, last = .level0 c → last2 = .nodes []
  more : 1 < last2.crun + last.crun
  -- after the first merge of the plan all fan-ins are full
  full : last2.crun = 0 ∨ last2.crun < crunFanInMax ∧ (last2.crun + last.crun) % 15 = 1

theorem Planned.fanInFirst (h : Planned crun last2 last) :
    last2.crun ≤ crunFanInFirst last2.crun last.crun ∧ 1 < crunFanInFirst last2.crun last.crun ∧
      crunFanInFirst last2.crun last.crun ≤ crunFanInMax ∧
      crunFanInFirst last2.crun last.crun ≤ last2.crun + last.crun ∧
      (last2.crun + last.crun - crunFanInFirst last2.crun last.crun) % 15 = 0 := by
  have hmore := h.more
  have hfull := h.full
  unfold crunFanInFirst crunFanInMax at *
  split <;> omega

theorem Level.taken_all (level : Level) :
    level.crunTaken level.crun 0 + (level.potnodesTaken level.crun).length = level.crun ∧
      level.crunTaken level.crun 0 + originalsAll (level.potnodesTaken level.crun) =
        level.originals := by
  cases level with
  | level0 crun => exact ⟨rfl, rfl⟩
  | nodes potnodes =>
    rw [Level.potnodesTaken, Level.crun, take_length]
    exact ⟨zero_add _, zero_add _⟩

theorem Planned.buildLevel (h : Planned crun last2 last) :
    ∃ rest potnode this, buildLevel last2 last = some (rest, .nodes (potnode :: this)) ∧
      rest.originals + originalsAll (potnode :: this) = crun ∧ rest.Sound ∧
      (∀ potnode' ∈ potnode :: this, Sound potnode') ∧ rest.crun < crunFanInMax ∧
      (rest.crun + (this.length + 1)) % 15 = 1 := by
  obtain ⟨hle, hmin, hmax, htotal, hmod⟩ := h.fanInFirst
  obtain ⟨hcount, horiginals⟩ := last2.taken_all
  generalize hn : crunFanInFirst last2.crun last.crun - last2.crun = n
  have hzero c (hc : last = .level0 c) : last2.crunTaken last2.crun 0 = 0 := by
    rw [h.apart c hc]
    rfl
  have hnodes : ∀ potnode ∈ last2.potnodesTaken last2.crun, Sound potnode := by
    have hsound := h.sound2
    cases last2 with
    | level0 crun => nofun
    | nodes potnodes => exact fun potnode hmem => hsound potnode (mem_of_mem_take hmem)
  obtain ⟨potnode, hfirst, hpotnode, hused, hsound⟩ := addRuns_spec _ (by omega) hzero h.sound
    hnodes (by omega : 1 < last2.crunTaken last2.crun 0 +
      (last2.potnodesTaken last2.crun).length + n) (by omega)
  obtain ⟨rest, this, hmerges, hrest, hthis, hleft⟩ := fullMerges_spec [] hsound nofun
  obtain ⟨hcrun, hless⟩ := fullMerges_crun hmerges
  refine ⟨rest, potnode, this, ?_, ?_, hrest, ?_, hless, ?_⟩
  · simp only [ExternalSort.buildLevel, hn, hfirst, hmerges]
  · have := h.originals
    simp only [originalsAll] at hleft ⊢
    omega
  · intro potnode' hmem
    rcases mem_cons.mp hmem with rfl | hmem
    · exact hpotnode
    · exact hthis potnode' hmem
  · rw [Level.crun_drop, length_nil] at hcrun
    unfold crunFanInMax at hcrun
    omega

theorem errSORTIOptTreeBuild_eq {rest : Level} {potnode : Otnode} {this : List Otnode}
    (hbuild : buildLevel last2 last = some (rest, .nodes (potnode :: this))) :
    errSORTIOptTreeBuild last2 last = if 1 < rest.crun + (this.length + 1) then
        errSORTIOptTreeBuild rest (.nodes (potnode :: this))
      else some potnode := by
  rw [errSORTIOptTreeBuild]
  split
  case h_1 hnone =>
    rw [hbuild] at hnone
    cases hnone
  case h_2 hsome =>
    rw [hbuild] at hsome
    cases hsome
    rfl

theorem Level.of_crun_eq_zero {level : Level} (h : level.crun = 0) :
    level = .level0 0 ∨ level = .nodes [] := by
  cases level with
  | level0 crun => exact .inl (congrArg _ h)
  | nodes potnodes => exact .inr (congrArg _ (eq_nil_of_length_eq_zero h))

theorem Planned.optTreeBuild (h : Planned crun last2 last) :
    ∃ potnode, errSORTIOptTreeBuild last2 last = some potnode ∧ Sound potnode ∧
      potnode.originals = crun := by
  induction hT : last2.crun + last.crun using Nat.strongRecOn generalizing last2 last with
  | ind T ih =>
    obtain ⟨rest, potnode, this, hbuild, horiginals, hrest, hsound, hless, hmod⟩ := h.buildLevel
    rw [errSORTIOptTreeBuild_eq hbuild]
    split
    case isTrue hmore =>
      have hlt := buildLevel_crun_lt hbuild hmore
      exact ih _ (hT ▸ hlt) ⟨horiginals, hrest, hsound, nofun, hmore, .inr ⟨hless, hmod⟩⟩ rfl
    case isFalse hdone =>
      obtain rfl : this = [] := by
        apply eq_nil_of_length_eq_zero
        omega
      have hnone : rest.originals = 0 := by
        rcases Level.of_crun_eq_zero (show rest.crun = 0 by omega) with rfl | rfl <;> rfl
      refine ⟨potnode, rfl, hsound potnode mem_cons_self, ?_⟩
      simp only [originalsAll] at horiginals
      omega

section Correct

variable {cbFree : Nat} {flags : Flags} {alloc : Nat → Pages}

abbrev SameKept (flags : Flags) (srecs srecs' : List Srec) : Prop :=
  KeepAlike isortiCmpKeyData (fSORTIDuplicate flags) srecs srecs'

def Made (cbFree : Nat) (flags : Flags) (runs : List Run) (source : List Srec) : Prop :=
  ∃ lists, HoldsAll cbFree runs lists ∧ SameKept flags lists.flatten source

variable {runs : List Run} {lists : List (List Srec)}

theorem HoldsAll.made (h : HoldsAll cbFree runs lists) : Made cbFree flags runs lists.flatten :=
  ⟨lists, h, fun _ => rfl⟩

theorem HoldsAll.fits (h : HoldsAll cbFree runs lists) : Fits cbFree lists.flatten := by
  induction h with
  | nil => nofun
  | cons hrun _ ih =>
    intro srec hmem
    rcases mem_append.mp hmem with hmem | hmem
    · exact hrun.2.2 srec hmem
    · exact ih srec hmem

variable {source : List Srec}

theorem Made.append {runs' : List Run} {source' : List Srec}
    (h : Made cbFree flags runs source) (h' : Made cbFree flags runs' source') :
    Made cbFree flags (runs' ++ runs) (source ++ source') := by
  obtain ⟨lists, hlists, hsame⟩ := h
  obtain ⟨lists', hlists', hsame'⟩ := h'
  refine ⟨lists' ++ lists, rel_append hlists' hlists, ?_⟩
  intro z
  rw [flatten_append]
  exact (hsame'.append (classes_duplicate flags) hsame z).trans
    (keepAlike_of_perm perm_append_comm z)

theorem mergeToRunLoop_spec {mrg : Merge} {srecs : List Srec} (h : Yields cbFree flags mrg srecs)
    (hfits : Fits cbFree srecs) {out : RunOut} {old : List Srec} (hout : out.Holds cbFree old)
    {rounds : Nat} (hrounds : srecs.length < rounds) :
    ∃ out', mergeToRunLoop cbFree flags rounds mrg out = some out' ∧
      out'.Holds cbFree (old ++ srecs) := by
  induction srecs generalizing mrg out old rounds with
  | nil =>
    obtain ⟨mrg', hnext⟩ := h
    obtain ⟨rounds, rfl⟩ : ∃ r, rounds = r + 1 := ⟨rounds - 1, by omega⟩
    refine ⟨out, ?_, by rwa [append_nil]⟩
    simp only [mergeToRunLoop, hnext]
  | cons srec srecs ih =>
    obtain ⟨mrg', hnext, hrest⟩ := h
    rw [length_cons] at hrounds
    obtain ⟨rounds, rfl⟩ : ∃ r, rounds = r + 1 := ⟨rounds - 1, by omega⟩
    have hinsert := holds_runInsert hout (hfits srec mem_cons_self).1
    obtain ⟨out', hloop, hout'⟩ := ih hrest
      (fun srec' hmem => hfits srec' (mem_cons_of_mem _ hmem)) hinsert
      (by omega : srecs.length < rounds)
    refine ⟨out', ?_, ?_⟩
    · simp only [mergeToRunLoop, hnext]
      exact hloop
    · rwa [append_assoc] at hout'

theorem Made.mergeToRun (alloc : Nat → Pages)
    (h : Made cbFree flags runs source) (hmin : 1 < runs.length)
    (hmax : runs.length ≤ crunFanInMax) :
    ∃ run, errSORTIMergeToRun cbFree flags alloc runs = some run ∧
      Made cbFree flags [run] source := by
  obtain ⟨lists, hlists, hsame⟩ := h
  obtain ⟨srecs, hsorted, hperm, hyields⟩ := mergeStart_yields flags hlists hmin
  have hsub := thin_sublist (fSORTIDuplicate flags) srecs
  have hfits : Fits cbFree (thin (fSORTIDuplicate flags) srecs) :=
    fun srec hmem => hlists.fits srec (hperm.mem_iff.mp (hsub.subset hmem))
  have hrounds :
      (thin (fSORTIDuplicate flags) srecs).length < (errSORTIMergeStart runs).rounds := by
    have hpending := (merging_start hlists hmin).length_pending_lt
    have hle := hsub.length_le
    rw [hperm.length_eq, ← flatMap_getD_range, ← hlists.length_eq] at hle
    exact hle.trans_lt hpending
  obtain ⟨out, hloop, hout⟩ := mergeToRunLoop_spec hyields hfits
    (holds_runStart (alloc (runs.map Run.cbRun).sum)) hrounds
  refine ⟨sortiRunEnd out, ?_, [thin (fSORTIDuplicate flags) srecs],
    .cons ⟨hout.runEnd, hsorted.thin _, hfits⟩ .nil, ?_⟩
  · rw [errSORTIMergeToRun, if_pos hmax, hloop]
    rfl
  · intro z
    have hkept := keepAlike_of_count (classes_duplicate flags)
      (count_thin (classes_duplicate flags) hsorted)
    rw [flatten_singleton]
    exact ((hkept z).trans (keepAlike_of_perm hperm z)).trans (hsame z)

theorem takeRuns_made {n : Nat} {originals : List Run}
    (h : HoldsAll cbFree originals lists) (hn : n ≤ originals.length)
    (hruns : Made cbFree flags runs source) :
    ∃ runs', takeRuns n originals runs = some (runs', originals.drop n) ∧
      runs'.length = n + runs.length ∧
      Made cbFree flags runs' (source ++ (lists.take n).flatten) := by
  induction n generalizing originals lists runs source with
  | zero =>
    refine ⟨runs, rfl, (zero_add _).symm, ?_⟩
    rwa [take_zero, flatten_nil, append_nil]
  | succ n ih =>
    cases h with
    | nil => exact absurd hn (Nat.not_succ_le_zero n)
    | cons hrun hrest =>
      rename_i run list originals lists
      have hone : Made cbFree flags [run] [list].flatten := HoldsAll.made (.cons hrun .nil)
      obtain ⟨runs', htake, hlen, hmade⟩ := ih hrest (Nat.le_of_succ_le_succ hn)
        (hruns.append hone)
      refine ⟨runs', htake, ?_, ?_⟩
      · rw [hlen, length_append, length_singleton]
        omega
      · rw [take_succ_cons, flatten_cons]
        rwa [flatten_singleton, append_assoc] at hmade

/-- A node takes its share of the original runs, and keeps of them what is to be kept. -/
def Carries (cbFree : Nat) (flags : Flags) (alloc : Nat → Pages) (potnode : Otnode) : Prop :=
  ∀ (originals : List Run) (lists : List (List Srec)), HoldsAll cbFree originals lists →
    potnode.originals ≤ originals.length →
    ∃ runs, errSORTIOptTreeMergeDF cbFree flags alloc potnode originals =
        some (runs, originals.drop potnode.originals, ()) ∧
      runs.length = potnode.fanIn ∧
      Made cbFree flags runs (lists.take potnode.originals).flatten

theorem Sound.fanIn {potnode : Otnode} (h : Sound potnode) :
    1 < potnode.fanIn ∧ potnode.fanIn ≤ crunFanInMax := by
  cases h with
  | node hmin hmax _ => exact ⟨hmin, hmax⟩

theorem mergeSubtrees_made {potnodes : List Otnode} (hsound : ∀ potnode ∈ potnodes, Sound potnode)
    (hcarries : ∀ potnode ∈ potnodes, Carries cbFree flags alloc potnode) {originals : List Run}
    (h : HoldsAll cbFree originals lists)
    (hn : originalsAll potnodes ≤ originals.length) (hruns : Made cbFree flags runs source) :
    ∃ runs', mergeSubtreesWith (mergeRuns cbFree flags alloc) potnodes originals runs () =
        some (runs', originals.drop (originalsAll potnodes), ()) ∧
      runs'.length = potnodes.length + runs.length ∧
      Made cbFree flags runs' (source ++ (lists.take (originalsAll potnodes)).flatten) := by
  induction potnodes generalizing originals lists runs source with
  | nil =>
    refine ⟨runs, rfl, (zero_add _).symm, ?_⟩
    rwa [originalsAll, take_zero, flatten_nil, append_nil]
  | cons potnode potnodes ih =>
    rw [originalsAll] at hn ⊢
    obtain ⟨sub, hdf, hfan, hsub⟩ := hcarries potnode mem_cons_self originals lists h
      (by omega)
    obtain ⟨hmin, hmax⟩ := (hsound potnode mem_cons_self).fanIn
    obtain ⟨run, hmerge, hrun⟩ := hsub.mergeToRun alloc (hfan ▸ hmin) (hfan ▸ hmax)
    obtain ⟨runs', hrest, hlen, hmade⟩ := ih
      (fun t hmem => hsound t (mem_cons_of_mem _ hmem))
      (fun t hmem => hcarries t (mem_cons_of_mem _ hmem))
      (forall₂_drop potnode.originals h) (by rw [length_drop]; omega)
      (hruns.append hrun)
    refine ⟨runs', ?_, ?_, ?_⟩
    · rw [errSORTIOptTreeMergeDF] at hdf
      rw [mergeSubtreesWith, hdf, Option.bind_some, mergeRuns, hmerge, ← drop_drop]
      exact hrest
    · rw [hlen, length_append, length_singleton, length_cons]
      omega
    · rw [take_add, flatten_append, ← append_assoc]
      exact hmade

theorem Sound.carries (flags : Flags) (alloc : Nat → Pages) {potnode : Otnode}
    (h : Sound potnode) :
    Carries cbFree flags alloc potnode := by
  induction h with
  | @node crun rgpotnode _ _ hsub ih =>
    intro originals lists hlists hn
    rw [Otnode.originals] at hn ⊢
    have hnone : Made cbFree flags [] ([] : List (List Srec)).flatten := HoldsAll.made .nil
    obtain ⟨runs, hsubs, hlen, hmade⟩ := mergeSubtrees_made hsub ih hlists
      (by omega : originalsAll rgpotnode ≤ originals.length) hnone
    obtain ⟨runs', htake, hlen', hmade'⟩ := takeRuns_made
      (forall₂_drop (originalsAll rgpotnode) hlists)
      (by rw [length_drop]; omega : crun ≤ _) hmade
    refine ⟨runs', ?_, ?_, ?_⟩
    · rw [errSORTIOptTreeMergeDF, mergeDFWith, hsubs, Option.bind_some, ← drop_drop, htake]
      rfl
    · rw [hlen', hlen, Otnode.fanIn]
      rfl
    · rw [take_add, flatten_append]
      exact hmade'

theorem optTreeMerge_spec (flags : Flags) (alloc : Nat → Pages)
    (h : HoldsAll cbFree runs lists) (hmin : 1 < runs.length) :
    ∃ runs', errSORTIOptTreeMerge cbFree flags alloc runs = some runs' ∧ 1 < runs'.length ∧
      runs'.length ≤ crunFanInMax ∧ Made cbFree flags runs' lists.flatten := by
  unfold errSORTIOptTreeMerge
  split
  · rename_i hfew
    exact ⟨runs, rfl, hmin, hfew, h.made⟩
  · rename_i hmany
    have hplanned : Planned runs.length (.nodes []) (.level0 runs.length) :=
      ⟨zero_add _, nofun, trivial, fun _ _ => rfl, by
        rw [show (Level.nodes []).crun = 0 from rfl, zero_add]
        exact hmin, .inl rfl⟩
    obtain ⟨potnode, hbuild, hsound, horiginals⟩ := hplanned.optTreeBuild
    obtain ⟨runs', hdf, hfan, hmade⟩ := hsound.carries flags alloc runs lists h horiginals.le
    rw [horiginals, h.length_eq, take_length] at hmade
    obtain ⟨hmin', hmax'⟩ := hsound.fanIn
    refine ⟨runs', ?_, hfan ▸ hmin', hfan ▸ hmax', hmade⟩
    rw [hbuild, Option.bind_some, hdf]
    rfl

end Correct

end EseLinux.ExternalSort
