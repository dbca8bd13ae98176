import EseLinux.SortPlan

/-!
What the merge plan does to the runs.  Runs are named here by how they came about, and the merges
are written down in the order in which they are made; the merge itself is a parameter, so that the
same walk over the plan gives the names and the runs.
-/

namespace EseLinux.ExternalSort

open List Level

mutual

def Otnode.short : Otnode → Nat
  | .node crun rgpotnode =>
    shortAll rgpotnode + if crun + rgpotnode.length < crunFanInMax then 1 else 0

def shortAll : List Otnode → Nat
  | [] => 0
  | potnode :: potnodes => potnode.short + shortAll potnodes

end

def Level.short : Level → Nat
  | .level0 _ => 0
  | .nodes potnodes => shortAll potnodes

theorem shortAll_append (potnodes potnodes' : List Otnode) :
    shortAll (potnodes ++ potnodes') = shortAll potnodes + shortAll potnodes' := by
  induction potnodes with
  | nil => exact (zero_add _).symm
  | cons potnode potnodes ih => rw [cons_append, shortAll, shortAll, ih, add_assoc]

theorem Level.short_taken (level : Level) (n : Nat) :
    shortAll (level.potnodesTaken n) + (level.drop n).short = level.short := by
  cases level with
  | level0 crun => rfl
  | nodes potnodes =>
    rw [potnodesTaken, drop, short, short, ← shortAll_append,
      take_append_drop]

variable {potnode : Otnode} {crun : Nat}

theorem addRuns_short {level : Level} {n : Nat} {potnodes : List Otnode}
    (h : addRuns level n crun potnodes = some potnode) (hn : n ≤ level.crun)
    (hcrun : ∀ c, level = .level0 c → crun = 0) : potnode.fanIn = crun + potnodes.length + n ∧
      potnode.short + (level.drop n).short = shortAll potnodes + level.short +
        if crun + potnodes.length + n < crunFanInMax then 1 else 0 := by
  have htaken := level.short_taken n
  have hfanIn : level.crunTaken n crun + (potnodes ++ level.potnodesTaken n).length =
      crun + potnodes.length + n := by
    rw [length_append]
    cases level with
    | level0 c =>
      obtain rfl := hcrun c rfl
      rw [crunTaken, potnodesTaken, length_nil]
      omega
    | nodes last =>
      rw [Level.crun] at hn
      rw [crunTaken, potnodesTaken, length_take]
      omega
  rw [addRuns] at h
  split at h
  · cases h
    refine ⟨hfanIn, ?_⟩
    rw [Otnode.short, shortAll_append, hfanIn]
    omega
  · cases h

variable {last rest : Level} {this : List Otnode}

theorem fullMerges_short {this' : List Otnode} (h : fullMerges last this = some (rest, this')) :
    rest.short + shortAll this' = last.short + shortAll this := by
  fun_induction fullMerges last this with
  | case1 last this hfull hnone => cases h
  | case2 last this hfull potnode hsome ih =>
    obtain ⟨-, hshort⟩ := addRuns_short hsome hfull (fun _ _ => rfl)
    rw [length_nil, if_neg (by decide), shortAll] at hshort
    rw [ih h, shortAll]
    omega
  | case3 last this hfew =>
    cases h
    rfl

variable {last2 : Level}

theorem Planned.buildLevel_short (h : Planned crun last2 last)
    (hbuild : ExternalSort.buildLevel last2 last = some (rest, .nodes (potnode :: this))) :
    potnode.fanIn = crunFanInFirst last2.crun last.crun ∧
      rest.short + shortAll (potnode :: this) = last2.short + last.short +
        (if crunFanInFirst last2.crun last.crun < crunFanInMax then 1 else 0) ∧
      rest.crun + crunFanInMax * this.length + crunFanInFirst last2.crun last.crun =
        last2.crun + last.crun := by
  obtain ⟨hle, -, -, htotal, -⟩ := h.fanInFirst
  have hcount := last2.taken_all.1
  have htaken : shortAll (last2.potnodesTaken last2.crun) = last2.short := by
    cases last2 with
    | level0 crun => rfl
    | nodes potnodes => rw [Level.potnodesTaken, Level.crun, take_length, Level.short]
  have hzero c (hc : last = .level0 c) : last2.crunTaken last2.crun 0 = 0 := by
    rw [h.apart c hc]
    rfl
  rw [ExternalSort.buildLevel] at hbuild
  split at hbuild
  · cases hbuild
  case h_2 first hfirst =>
    split at hbuild
    · cases hbuild
    case h_2 rest' this' hmerges =>
      cases hbuild
      obtain ⟨hfanIn, hshort⟩ := addRuns_short hfirst (by omega) hzero
      have hrest := fullMerges_short hmerges
      rw [hcount, Nat.add_sub_cancel' hle] at hfanIn hshort
      have hcrun := (fullMerges_crun hmerges).1
      rw [crun_drop, length_nil] at hcrun
      simp only [shortAll] at hrest ⊢
      exact ⟨hfanIn, by omega, by omega⟩

theorem Planned.optTreeBuild_short (h : Planned crun last2 last)
    (hfull : (last2.crun + last.crun) % 15 = 1)
    (hbuild : errSORTIOptTreeBuild last2 last = some potnode) :
    potnode.fanIn = crunFanInMax ∧ potnode.short = last2.short + last.short := by
  induction hT : last2.crun + last.crun using Nat.strongRecOn generalizing last2 last with
  | ind T ih =>
    have hmore := h.more
    have hfirst : crunFanInFirst last2.crun last.crun = crunFanInMax := by
      unfold crunFanInFirst crunFanInMax
      split <;> omega
    obtain ⟨rest, first, this, hlevel, horiginals, hrest, hsound, hless, hmod⟩ := h.buildLevel
    obtain ⟨hfanIn, hshort, -⟩ := h.buildLevel_short hlevel
    rw [hfirst] at hfanIn hshort
    rw [if_neg (lt_irrefl _), add_zero] at hshort
    rw [errSORTIOptTreeBuild_eq hlevel] at hbuild
    split at hbuild
    case isTrue hmore' =>
      have hlt := buildLevel_crun_lt hlevel hmore'
      have hnext : Planned crun rest (.nodes (first :: this)) :=
        ⟨horiginals, hrest, hsound, nofun, hmore', .inr ⟨hless, hmod⟩⟩
      obtain ⟨hroot, hsame⟩ := ih _ (hT ▸ hlt) hnext hmod hbuild rfl
      exact ⟨hroot, hsame.trans hshort⟩
    case isFalse hdone =>
      cases hbuild
      obtain rfl : this = [] := by
        apply eq_nil_of_length_eq_zero
        omega
      have hnone : rest.short = 0 := by
        rcases of_crun_eq_zero (show rest.crun = 0 by omega) with rfl | rfl <;> rfl
      rw [hnone, shortAll, shortAll] at hshort
      exact ⟨hfanIn, by omega⟩

theorem optTreeBuild_full (hcrun : crunFanInMax < crun) :
    ∃ potnode, errSORTIOptTreeBuild (.nodes []) (.level0 crun) = some potnode ∧ Sound potnode ∧
      potnode.originals = crun ∧ potnode.fanIn = crunFanInMax ∧ potnode.short ≤ 1 := by
  have hmin : 16 < crun := hcrun
  have hplanned : Planned crun (.nodes []) (.level0 crun) :=
    ⟨zero_add _, fun _ h => absurd h not_mem_nil, trivial, fun _ _ => rfl,
      by simp only [Level.crun, length_nil]; omega, .inl rfl⟩
  obtain ⟨potnode, hbuild, hsound, horiginals⟩ := hplanned.optTreeBuild
  refine ⟨potnode, hbuild, hsound, horiginals, ?_⟩
  obtain ⟨rest, first, this, hlevel, hcount, hrest, hthis, hless, hmod⟩ := hplanned.buildLevel
  obtain ⟨hfanIn, hshort, htotal⟩ := hplanned.buildLevel_short hlevel
  have hbelow : crunFanInFirst (nodes []).crun (level0 crun).crun < crun := by
    change crunFanInFirst 0 crun < crun
    rw [crunFanInFirst, if_neg (by omega), crunFanInMax]
    omega
  have hlevel0 : (nodes []).crun + (level0 crun).crun = crun := zero_add crun
  have hmore : 1 < rest.crun + (this.length + 1) := by
    rcases this with _ | ⟨second, this⟩
    · rw [length_nil] at htotal ⊢
      omega
    · rw [length_cons]
      omega
  have hnext : Planned crun rest (.nodes (first :: this)) :=
    ⟨hcount, hrest, hthis, (fun _ h => by cases h), hmore, .inr ⟨hless, hmod⟩⟩
  rw [errSORTIOptTreeBuild_eq hlevel, if_pos hmore] at hbuild
  obtain ⟨hroot, hsame⟩ := hnext.optTreeBuild_short hmod hbuild
  refine ⟨hroot, ?_⟩
  have hnodes : (nodes (first :: this)).short = shortAll (first :: this) := rfl
  have hzero : (nodes []).short + (level0 crun).short = 0 := rfl
  rw [hsame, hnodes, hshort, hzero]
  split <;> omega

inductive RunId where
  | original (irun : Nat)
  | merged (imerge : Nat)
deriving DecidableEq, Repr

def traceMerge (runs : List RunId) (merges : List (List RunId)) :
    Option (RunId × List (List RunId)) :=
  if runs.length ≤ crunFanInMax then some (.merged merges.length, merges ++ [runs]) else none

/-- The runs that `n` merges after `before` others make. -/
def madeIds (before n : Nat) : List RunId := (range' before n).map .merged

theorem madeIds_add (before n n' : Nat) :
    madeIds before (n + n') = madeIds before n ++ madeIds (before + n) n' := by
  rw [madeIds, ← range'_append_1, map_append]
  rfl

/-- Merges `made` after `before` others use runs and leave some. -/
structure Uses (used : List RunId) (before : Nat) (made : List (List RunId)) (left : List RunId)
    (short : Nat) : Prop where
  once : ∀ id, made.flatten.count id + left.count id =
    used.count id + (madeIds before made.length).count id
  fanIn : ∀ runs ∈ made, 1 < runs.length ∧ runs.length ≤ crunFanInMax
  few : made.countP (fun runs => runs.length < crunFanInMax) = short

theorem takeRuns_spec {n : Nat} {originals : List RunId} (hn : n ≤ originals.length)
    (runs : List RunId) :
    takeRuns n originals runs = some ((originals.take n).reverse ++ runs, originals.drop n) := by
  induction n generalizing originals runs with
  | zero => rfl
  | succ n ih =>
    rcases originals with _ | ⟨run, originals⟩
    · exact absurd hn (Nat.not_succ_le_zero n)
    · rw [takeRuns, ih (Nat.le_of_succ_le_succ hn), take_succ_cons, drop_succ_cons,
        reverse_cons, append_assoc]
      rfl

/-- A node uses its share of the original runs once, and every run made of them. -/
def Traces (potnode : Otnode) : Prop :=
  ∀ (originals : List RunId) (merges : List (List RunId)), potnode.originals ≤ originals.length →
    ∃ runs made short, mergeDFWith traceMerge potnode originals merges =
        some (runs, originals.drop potnode.originals, merges ++ made) ∧
      runs.length = potnode.fanIn ∧
      Uses (originals.take potnode.originals) merges.length made runs short ∧
      potnode.short = short + if potnode.fanIn < crunFanInMax then 1 else 0

theorem mergeSubtreesWith_spec {potnodes : List Otnode}
    (hsound : ∀ potnode ∈ potnodes, Sound potnode) (htraces : ∀ potnode ∈ potnodes, Traces potnode)
    {originals : List RunId} (hn : originalsAll potnodes ≤ originals.length) (runs : List RunId)
    (merges : List (List RunId)) :
    ∃ runs' made, mergeSubtreesWith traceMerge potnodes originals runs merges =
        some (runs', originals.drop (originalsAll potnodes), merges ++ made) ∧
      runs'.length = potnodes.length + runs.length ∧
      Uses (runs ++ originals.take (originalsAll potnodes)) merges.length made runs'
        (shortAll potnodes) := by
  induction potnodes generalizing originals runs merges with
  | nil =>
    refine ⟨runs, [], ?_, (zero_add _).symm, ?_, nofun, rfl⟩
    · rw [mergeSubtreesWith, append_nil]
      rfl
    · intro id
      rw [originalsAll, take_zero, append_nil]
      exact add_comm _ _
  | cons potnode potnodes ih =>
    rw [originalsAll] at hn
    obtain ⟨inputs, made, short, hwalk, hlength, huses, hshort⟩ :=
      htraces potnode mem_cons_self originals merges (by omega)
    obtain ⟨hmin, hmax⟩ := (hsound potnode mem_cons_self).fanIn
    have hrest : originalsAll potnodes ≤ (originals.drop potnode.originals).length := by
      rw [length_drop]
      omega
    obtain ⟨runs', made', hwalk', hlength', huses'⟩ :=
      ih (fun p hp => hsound p (mem_cons_of_mem _ hp))
        (fun p hp => htraces p (mem_cons_of_mem _ hp)) hrest
        (.merged (merges ++ made).length :: runs) (merges ++ made ++ [inputs])
    refine ⟨runs', made ++ [inputs] ++ made', ?_, ?_, ?_, ?_, ?_⟩
    · have hle : inputs.length ≤ crunFanInMax := by omega
      rw [mergeSubtreesWith, hwalk, Option.bind_some, traceMerge, if_pos hle, Option.bind_some,
        hwalk', drop_drop, originalsAll]
      simp only [append_assoc]
    · rw [hlength', length_cons, length_cons]
      omega
    · intro id
      have hhere := huses.once id
      have hthere := huses'.once id
      have hids : madeIds merges.length (made ++ [inputs] ++ made').length =
          madeIds merges.length made.length ++ ([.merged (merges ++ made).length] ++
            madeIds (merges ++ made ++ [inputs]).length made'.length) := by
        have hlast :
            madeIds (merges.length + made.length) 1 = [.merged (merges ++ made).length] := by
          rw [length_append]
          rfl
        rw [length_append, length_append, length_singleton, add_assoc,
          madeIds_add, madeIds_add, hlast]
        simp only [length_append, length_singleton]
      rw [hids, originalsAll, take_add]
      rw [cons_append, ← singleton_append] at hthere
      simp only [flatten_append, flatten_singleton, count_append] at hhere hthere ⊢
      omega
    · intro runs hmem
      rcases mem_append.mp hmem with hmem | hmem
      · rcases mem_append.mp hmem with hmem | hmem
        · exact huses.fanIn runs hmem
        · obtain rfl := mem_singleton.mp hmem
          omega
      · exact huses'.fanIn runs hmem
    · rw [countP_append, countP_append, huses.few, huses'.few, countP_singleton,
        hlength, shortAll, hshort]
      simp only [decide_eq_true_eq]

theorem Sound.traces (h : Sound potnode) : Traces potnode := by
  induction h with
  | node hmin hmax hsub ih =>
    rename_i crun rgpotnode
    intro originals merges hn
    rw [Otnode.originals] at hn
    obtain ⟨runs, made, hwalk, hlength, huses⟩ :=
      mergeSubtreesWith_spec hsub ih (by omega : originalsAll rgpotnode ≤ originals.length) []
      merges
    have hrest : crun ≤ (originals.drop (originalsAll rgpotnode)).length := by
      rw [length_drop]
      omega
    have htake := takeRuns_spec hrest runs
    refine ⟨((originals.drop (originalsAll rgpotnode)).take crun).reverse ++ runs, made,
      shortAll rgpotnode, ?_, ?_, ⟨?_, huses.fanIn, huses.few⟩, rfl⟩
    · rw [mergeDFWith, hwalk, Option.bind_some, htake, Option.map_some, drop_drop,
        Otnode.originals]
    · rw [length_append, length_reverse, length_take, length_drop, hlength,
        length_nil, Otnode.fanIn]
      omega
    · intro id
      have hbelow := huses.once id
      rw [Otnode.originals, take_add]
      simp only [count_append, count_reverse, nil_append] at hbelow ⊢
      omega

/-- With more runs than one merge can take, the plan and the walk over it use every original run and
every run they make once: in a merge, or as one of the 16 runs left to the last merge.  Every merge
has two to 16 inputs, and at most one has fewer than 16. -/
theorem optTreeMerge_uses_once {crun : Nat} (hcrun : crunFanInMax < crun) :
    ∃ potnode runs merges, errSORTIOptTreeBuild (.nodes []) (.level0 crun) = some potnode ∧
      mergeDFWith traceMerge potnode ((range crun).map .original) [] =
        some (runs, [], merges) ∧
      (merges.flatten ++ runs).Perm
        ((range crun).map .original ++ (range merges.length).map .merged) ∧
      (∀ inputs ∈ merges, 2 ≤ inputs.length ∧ inputs.length ≤ crunFanInMax) ∧
      merges.countP (fun inputs => inputs.length < crunFanInMax) ≤ 1 ∧
      runs.length = crunFanInMax := by
  obtain ⟨potnode, hbuild, hsound, horiginals, hfanIn, hshort⟩ := optTreeBuild_full hcrun
  have hlength : ((range crun).map RunId.original).length = potnode.originals := by
    rw [length_map, length_range, horiginals]
  obtain ⟨runs, merges, short, hwalk, hruns, huses, hsplit⟩ :=
    hsound.traces ((range crun).map .original) [] hlength.symm.le
  rw [← hlength, drop_length, nil_append] at hwalk
  refine ⟨potnode, runs, merges, hbuild, hwalk, ?_, huses.fanIn, ?_, hruns.trans hfanIn⟩
  · rw [perm_iff_count]
    intro id
    have honce := huses.once id
    rw [← hlength, take_length] at honce
    rw [count_append, count_append, honce, madeIds, length_nil, range_eq_range']
    rw [range_eq_range']
  · rw [huses.few]
    omega

theorem optTreeMerge_uses_once_forty :
    crunFanInMax < 40 ∧
      ∃ potnode runs merges, errSORTIOptTreeBuild (.nodes []) (.level0 40) = some potnode ∧
        mergeDFWith traceMerge potnode ((range 40).map .original) [] =
          some (runs, [], merges) ∧ runs.length = crunFanInMax := by
  obtain ⟨potnode, runs, merges, hbuild, hwalk, -, -, -, hruns⟩ :=
    optTreeMerge_uses_once (show crunFanInMax < 40 by decide)
  exact ⟨by decide, potnode, runs, merges, hbuild, hwalk, hruns⟩

end EseLinux.ExternalSort
