import EseLinux.RedBlackMerge
import Mathlib.Algebra.Group.Nat.Defs

/-!
Sequences of operations on the red-black trees of a program.

Every tree starts empty. After each operation every tree is a left-leaning red-black tree, and the
answers are those of the finite maps the trees stand for.
-/

namespace EseLinux.RedBlackTree

universe u v w

variable {K : Type u} {α : Type v}

namespace Node

/-- The number of black links on each path down to a null link, which counts as black. -/
def linkCounts : Node K α → List Nat
  | null => [0]
  | node _ _ _ l r =>
    l.linkCounts.map (· + if l.fIsNonNullAndRed then 0 else 1) ++
      r.linkCounts.map (· + if r.fIsNonNullAndRed then 0 else 1)

/-- The most nodes a descent passes. -/
def height : Node K α → Nat
  | null => 0
  | node _ _ _ l r => max l.height r.height + 1

def NoRightRed : Node K α → Prop
  | null => True
  | node _ _ _ l r => r.fIsNonNullAndRed = false ∧ l.NoRightRed ∧ r.NoRightRed

def NoRedRed : Node K α → Prop
  | null => True
  | node c _ _ l r => ¬ (c = .red ∧ l.fIsNonNullAndRed = true) ∧ l.NoRedRed ∧ r.NoRedRed

def NoRedRedBelow : Node K α → Prop
  | null => True
  | node _ _ _ l r => l.NoRedRed ∧ r.NoRedRed

/-- A left-leaning red-black search tree whose root may have either colour. -/
structure LeftLeaning [LinearOrder K] (pnodeRoot : Node K α) : Prop where
  ordered : SortedAssoc.Sorted pnodeRoot.entries
  balanced : ∃ n, ∀ count ∈ pnodeRoot.linkCounts, count = n
  noRightRed : pnodeRoot.NoRightRed
  noRedRed : pnodeRoot.NoRedRedBelow

variable {pnode : Node K α} {c : Color} {n : Nat}

namespace Bal

variable (h : Bal c n pnode)
include h

theorem noRightRed : pnode.NoRightRed := by
  induction h with
  | null => trivial
  | red hl hr ihl ihr => exact ⟨hr.fIsNonNullAndRed, ihl, ihr⟩
  | black hl hr ihl ihr => exact ⟨hr.fIsNonNullAndRed, ihl, ihr⟩

theorem noRedRed : pnode.NoRedRed := by
  induction h with
  | null => trivial
  | red hl hr ihl ihr => exact ⟨by simp [hl.fIsNonNullAndRed], ihl, ihr⟩
  | black hl hr ihl ihr => exact ⟨by simp, ihl, ihr⟩

theorem linkCounts :
    ∀ count ∈ pnode.linkCounts.map (· + if pnode.fIsNonNullAndRed then 0 else 1),
      count = n + 1 := by
  induction h with
  | null => simp [Node.linkCounts, Node.fIsNonNullAndRed]
  | red hl hr ihl ihr =>
    simp only [Node.linkCounts, fIsNonNullAndRed_red, if_true, Nat.add_zero, List.map_id']
    intro count hcount
    rcases List.mem_append.mp hcount with h | h
    · exact ihl count h
    · exact ihr count h
  | black hl hr ihl ihr =>
    simp only [Node.linkCounts, fIsNonNullAndRed_black]
    intro count hcount
    obtain ⟨below, hbelow, rfl⟩ := List.mem_map.mp hcount
    rcases List.mem_append.mp hbelow with h | h
    · rw [ihl below h]
      rfl
    · rw [ihr below h]
      rfl

theorem height_le : pnode.height ≤ 2 * n + if c = .red then 1 else 0 := by
  induction h with
  | null => exact Nat.le_refl 0
  | red hl hr ihl ihr =>
    simp only [height, reduceCtorEq, if_false, if_true] at *
    omega
  | black hl hr ihl ihr =>
    simp only [height, reduceCtorEq, if_false] at *
    split at ihl <;> omega

theorem two_pow_le : 2 ^ n ≤ pnode.entries.length + 1 := by
  induction h with
  | null => exact Nat.le_refl 1
  | red hl hr ihl ihr =>
    rw [entries, List.length_append, List.length_cons]
    omega
  | black hl hr ihl ihr =>
    rw [entries, List.length_append, List.length_cons, Nat.pow_succ]
    omega

end Bal

theorem Shaped.two_pow_height_le (h : pnode.Shaped) :
    2 ^ pnode.height ≤ (pnode.entries.length + 1) ^ 2 := by
  obtain ⟨n, hbal⟩ := h
  have hheight : (pnode.recolor .black).height = pnode.height := by cases pnode <;> rfl
  have hentries : (pnode.recolor .black).entries = pnode.entries := by cases pnode <;> rfl
  calc 2 ^ pnode.height
      ≤ 2 ^ (n * 2) := by
        refine Nat.pow_le_pow_right (by decide) ?_
        have hle := hbal.height_le
        rw [hheight, if_neg (by decide)] at hle
        omega
    _ = (2 ^ n) ^ 2 := Nat.pow_mul 2 n 2
    _ ≤ (pnode.entries.length + 1) ^ 2 := by
        have hle := hbal.two_pow_le
        rw [hentries] at hle
        exact Nat.pow_le_pow_left hle 2

theorem Valid.leftLeaning [LinearOrder K] {pnodeRoot : Node K α} (h : pnodeRoot.Valid) :
    pnodeRoot.LeftLeaning := by
  refine ⟨h.sorted, ?_, ?_, ?_⟩
  all_goals
    cases pnodeRoot with
    | null => simp [linkCounts, NoRightRed, NoRedRedBelow]
    | node c key obj l r => ?_
  all_goals obtain ⟨cl, n, hl, hr⟩ := shaped_node.mp h.shaped
  · refine ⟨n + 1, fun count hcount => ?_⟩
    rcases List.mem_append.mp hcount with hcount | hcount
    · exact hl.linkCounts count hcount
    · exact hr.linkCounts count hcount
  · exact ⟨hr.fIsNonNullAndRed, hl.noRightRed, hr.noRightRed⟩
  · exact ⟨hl.noRedRed, hr.noRedRed⟩

end Node

open Node SortedAssoc Function

variable {ι : Type w}

/-- The public operations on the trees `i`, `dst` and `src`. -/
inductive Op (ι : Type w) (K : Type u) (α : Type v) where
  | find (i : ι) (key : K)
  | findNearest (i : ι) (key : K)
  | findGreaterThanOrEqual (i : ι) (key : K)
  | insert (i : ι) (key : K) (obj : α)
  | delete (i : ι) (key : K)
  | merge (dst src : ι)
  | move (dst src : ι)

abbrev Answer (K : Type u) (α : Type v) : Type (max u v) := Err × Option (K × α)

section Run

variable [LinearOrder K] [DecidableEq ι]

def perform (trees : ι → Node K α) : Op ι K α → Option (Answer K α × (ι → Node K α))
  | .find i key => some ((trees i).errFind key, trees)
  | .findNearest i key => some ((trees i).errFindNearest key, trees)
  | .findGreaterThanOrEqual i key => some ((trees i).errFindGreaterThanOrEqual key, trees)
  | .insert i key obj =>
    ((trees i).errInsert key obj).bind fun x =>
      some ((x.1, none), update trees i x.2)
  | .delete i key =>
    ((trees i).errDelete key).bind fun x => some (x.1, update trees i x.2)
  | .merge dst src => (errMerge trees dst src).bind fun x => some ((x.1, none), x.2)
  | .move dst src => some ((.success, none), move trees dst src)

/-- The answers of a sequence of operations, each with the trees it left. -/
def run (trees : ι → Node K α) :
    List (Op ι K α) → Option (List (Answer K α × (ι → Node K α)))
  | [] => some []
  | op :: ops =>
    (perform trees op).bind fun step =>
      (run step.2 ops).bind fun steps => some (step :: steps)

end Run

def MapStep [LinearOrder K] [DecidableEq ι] (maps : ι → K → Option α) (op : Op ι K α)
    (answer : Answer K α) (maps' : ι → K → Option α) : Prop :=
  match op with
  | .find i key =>
    maps' = maps ∧ (maps i key = none ∧ answer = (.entryNotFound, none) ∨
        ∃ obj, maps i key = some obj ∧ answer = (.success, some (key, obj)))
  | .findNearest i key =>
    maps' = maps ∧ ((∀ key', maps i key' = none) ∧ answer = (.entryNotFound, none) ∨
        ∃ found obj, maps i found = some obj ∧ answer = (.success, some (found, obj)) ∧
          (maps i key ≠ none → found = key) ∧
          ∀ key', maps i key' ≠ none →
            ¬ (key < key' ∧ key' < found) ∧ ¬ (found < key' ∧ key' < key))
  | .findGreaterThanOrEqual i key =>
    maps' = maps ∧ ((∀ key', key ≤ key' → maps i key' = none) ∧ answer = (.entryNotFound, none) ∨
        ∃ found obj, maps i found = some obj ∧ answer = (.success, some (found, obj)) ∧
          key ≤ found ∧ ∀ key', key ≤ key' → maps i key' ≠ none → found ≤ key')
  | .insert i key obj =>
    maps i key = none ∧ answer = (.success, none) ∧
        maps' = update maps i (update (maps i) key (some obj)) ∨
      maps i key ≠ none ∧ answer = (.duplicateEntry, none) ∧ maps' = maps
  | .delete i key =>
    maps i key = none ∧ answer = (.entryNotFound, none) ∧ maps' = maps ∨
      ∃ obj, maps i key = some obj ∧ answer = (.success, some (key, obj)) ∧
        maps' = update maps i (update (maps i) key none)
  | .merge dst src =>
    (∀ key, maps' dst key = (maps dst key).or (maps src key)) ∧
      (∀ key, maps' src key = (maps dst key).bind fun _ => maps src key) ∧
      (∀ i, i ≠ dst → i ≠ src → maps' i = maps i) ∧
      ((∀ key, maps dst key = none ∨ maps src key = none) ∧ answer = (.success, none) ∨
        (∃ key, maps dst key ≠ none ∧ maps src key ≠ none) ∧ answer = (.duplicateEntry, none))
  | .move dst src =>
    answer = (.success, none) ∧ ((∀ key, maps dst key = none) ∧
          maps' = update (update maps dst (maps src)) src (fun _ => none) ∨
        (∃ key, maps dst key ≠ none) ∧ maps' = maps)

def toMaps [LinearOrder K] (trees : ι → Node K α) : ι → K → Option α :=
  fun i => (trees i).toMap

/-- An operation that is refused: the key of an insertion is present, or that of a deletion is
not. -/
def Op.Refused (op : Op ι K α) (err : Err) : Prop :=
  match op with
  | .insert .. => err = .duplicateEntry
  | .delete .. => err = .entryNotFound
  | _ => False

/-- The step does what it does on finite maps, and a refused operation leaves the trees
themselves as they are. -/
structure Refines [LinearOrder K] [DecidableEq ι] (trees : ι → Node K α) (op : Op ι K α)
    (step : Answer K α × (ι → Node K α)) : Prop where
  maps : MapStep (toMaps trees) op step.1 (toMaps step.2)
  refused : op.Refused step.1.1 → step.2 = trees

/-- Every step of a run on trees is one on the finite maps they stand for. -/
def RunRefines [LinearOrder K] [DecidableEq ι] (trees : ι → Node K α) :
    List (Op ι K α) → List (Answer K α × (ι → Node K α)) → Prop
  | [], [] => True
  | op :: ops, step :: steps => Refines trees op step ∧ RunRefines step.2 ops steps
  | _, _ => False

def Op.TwoTrees : Op ι K α → Prop
  | .merge dst src => dst ≠ src
  | _ => True

section Refinement

variable [LinearOrder K] [DecidableEq ι] {trees : ι → Node K α}

theorem toMaps_update (trees : ι → Node K α) (i : ι) (pnode : Node K α) :
    toMaps (update trees i pnode) = update (toMaps trees) i pnode.toMap := by
  funext k
  by_cases hk : k = i
  · subst hk
    simp [toMaps]
  · simp [toMaps, hk]

theorem perform_find (hvalid : ∀ i, (trees i).Valid) (i : ι) (key : K) :
    MapStep (toMaps trees) (.find i key) ((trees i).errFind key) (toMaps trees) := by
  refine ⟨rfl, ?_⟩
  rw [errFind, find_eq_value (hvalid i).sorted]
  rcases hval : value (trees i).entries key with _ | obj
  · exact .inl ⟨hval, rfl⟩
  · exact .inr ⟨obj, hval, rfl⟩

theorem perform_findNearest (hvalid : ∀ i, (trees i).Valid) (i : ι) (key : K) :
    MapStep (toMaps trees) (.findNearest i key) ((trees i).errFindNearest key)
      (toMaps trees) := by
  refine ⟨rfl, ?_⟩
  by_cases hnull : trees i = null
  · refine .inl ⟨fun key' => ?_, ?_⟩
    · rw [toMaps, hnull, toMap_null]
    · rw [errFindNearest, hnull]
      rfl
  · obtain ⟨e, he, hfind, hnear⟩ := findNearest_spec key (hvalid i).sorted hnull
    have hmapped {key' : K} (h : toMaps trees i key' ≠ none) :
        ∃ obj, (key', obj) ∈ (trees i).entries := by
      obtain ⟨obj, hobj⟩ := Option.ne_none_iff_exists'.mp h
      exact ⟨obj, mem_of_value hobj⟩
    refine .inr ⟨e.1, e.2, value_of_mem (hvalid i).sorted he, ?_, ?_, ?_⟩
    · rw [errFindNearest, hfind]
    · intro hkey
      obtain ⟨obj, hmem⟩ := hmapped hkey
      exact (hnear _ hmem).2.2 rfl
    · intro key' hkey'
      obtain ⟨obj, hmem⟩ := hmapped hkey'
      exact ⟨(hnear _ hmem).1, (hnear _ hmem).2.1⟩

theorem perform_findGreaterThanOrEqual (hvalid : ∀ i, (trees i).Valid) (i : ι) (key : K) :
    MapStep (toMaps trees) (.findGreaterThanOrEqual i key)
      ((trees i).errFindGreaterThanOrEqual key) (toMaps trees) := by
  refine ⟨rfl, ?_⟩
  rw [errFindGreaterThanOrEqual]
  rcases hfind : (trees i).findGreaterThanOrEqual key none with _ | e
  · exact .inl ⟨(hvalid i).findGreaterThanOrEqual_none hfind, rfl⟩
  · obtain ⟨hle, hmap, hleast⟩ := (hvalid i).findGreaterThanOrEqual_some hfind
    exact .inr ⟨e.1, e.2, hmap, rfl, hle, hleast⟩

def Performs (trees : ι → Node K α) (op : Op ι K α) : Prop :=
  ∃ step, perform trees op = some step ∧ (∀ i, (step.2 i).Valid) ∧ Refines trees op step

section

variable (hvalid : ∀ i, (trees i).Valid)
include hvalid

theorem performs_insert (i : ι) (key : K) (obj : α) : Performs trees (.insert i key obj) := by
  by_cases hnone : (trees i).toMap key = none
  · obtain ⟨pnode, hins, hpnode, hmap⟩ := (hvalid i).errInsert_toMap obj hnone
    refine ⟨((.success, none), update trees i pnode), ?_,
      forall_valid_update hvalid i hpnode, .inl ⟨hnone, rfl, ?_⟩, nofun⟩
    · rw [perform, hins, Option.bind_some]
    · rw [toMaps_update, hmap]
      rfl
  · refine ⟨((.duplicateEntry, none), trees), ?_, hvalid, .inr ⟨hnone, rfl, rfl⟩, fun _ => rfl⟩
    rw [perform, (hvalid i).errInsert_duplicate obj hnone, Option.bind_some, update_eq_self]

theorem performs_delete (i : ι) (key : K) : Performs trees (.delete i key) := by
  rcases hval : (trees i).toMap key with _ | obj
  · refine ⟨((.entryNotFound, none), trees), ?_, hvalid, .inl ⟨hval, rfl, rfl⟩, fun _ => rfl⟩
    rw [perform, (hvalid i).errDelete_absent hval, Option.bind_some, update_eq_self]
  · obtain ⟨pnode, hdel, hpnode, -, hmap⟩ := (hvalid i).errDelete_toMap hval
    refine ⟨((.success, some (key, obj)), update trees i pnode), ?_,
      forall_valid_update hvalid i hpnode, .inr ⟨obj, hval, rfl, ?_⟩, nofun⟩
    · rw [perform, hdel, Option.bind_some]
    · rw [toMaps_update, hmap]
      rfl

theorem performs_merge {dst src : ι} (hne : dst ≠ src) : Performs trees (.merge dst src) := by
  obtain ⟨err, trees', hmerge, hvalid', hothers, hdst, hsrc, herr⟩ := errMerge_spec hne hvalid
  refine ⟨((err, none), trees'), ?_, hvalid', ⟨hdst, hsrc, ?_, ?_⟩, nofun⟩
  · rw [perform, hmerge, Option.bind_some]
  · intro i hi hi'
    exact congrArg Node.toMap (hothers i hi hi')
  · rcases herr with ⟨rfl, hempty⟩ | ⟨rfl, hleft⟩
    · refine .inl ⟨fun key => ?_, rfl⟩
      have h := hsrc key
      rw [fEmpty_iff.mp hempty key] at h
      change (trees dst).toMap key = none ∨ (trees src).toMap key = none
      cases hd : (trees dst).toMap key with
      | none => exact .inl rfl
      | some _ =>
        rw [hd] at h
        exact .inr h.symm
    · refine .inr ⟨?_, rfl⟩
      rw [← Bool.not_eq_true, fEmpty_iff, not_forall] at hleft
      obtain ⟨key, hkey⟩ := hleft
      rw [hsrc key] at hkey
      refine ⟨key, ?_⟩
      change (trees dst).toMap key ≠ none ∧ (trees src).toMap key ≠ none
      cases hd : (trees dst).toMap key with
      | none =>
        rw [hd] at hkey
        exact absurd rfl hkey
      | some _ =>
        rw [hd] at hkey
        exact ⟨by simp, hkey⟩

theorem performs_move (dst src : ι) : Performs trees (.move dst src) := by
  by_cases hempty : (trees dst).fEmpty = true
  · refine ⟨((.success, none), move trees dst src), rfl, ?_, ⟨rfl, .inl ⟨fEmpty_iff.mp hempty, ?_⟩⟩,
      nofun⟩
    · rw [move, if_pos hempty]
      exact forall_valid_update (forall_valid_update hvalid dst (hvalid src)) src valid_null
    · rw [move, if_pos hempty, toMaps_update, toMaps_update]
      rfl
  · have hmove : move trees dst src = trees := if_neg hempty
    refine ⟨((.success, none), trees), by rw [perform, hmove], hvalid, ⟨rfl, .inr ⟨?_, rfl⟩⟩, nofun⟩
    rw [fEmpty_iff, not_forall] at hempty
    exact hempty

theorem performs {op : Op ι K α} (hop : op.TwoTrees) : Performs trees op := by
  cases op with
  | find i key => exact ⟨_, rfl, hvalid, perform_find hvalid i key, nofun⟩
  | findNearest i key => exact ⟨_, rfl, hvalid, perform_findNearest hvalid i key, nofun⟩
  | findGreaterThanOrEqual i key =>
    exact ⟨_, rfl, hvalid, perform_findGreaterThanOrEqual hvalid i key, nofun⟩
  | insert i key obj => exact performs_insert hvalid i key obj
  | delete i key => exact performs_delete hvalid i key
  | merge dst src => exact performs_merge hvalid hop
  | move dst src => exact performs_move hvalid dst src

theorem run_valid (ops : List (Op ι K α)) (hops : ∀ op ∈ ops, op.TwoTrees) :
    ∃ steps, run trees ops = some steps ∧ (∀ step ∈ steps, ∀ i, (step.2 i).Valid) ∧
      RunRefines trees ops steps := by
  induction ops generalizing trees with
  | nil => exact ⟨[], rfl, by simp, trivial⟩
  | cons op ops ih =>
    obtain ⟨step, hstep, hvalid', hrefines⟩ := performs hvalid (hops op List.mem_cons_self)
    obtain ⟨steps, hrun, hall, hrest⟩ :=
      ih hvalid' fun op hop => hops op (List.mem_cons_of_mem _ hop)
    refine ⟨step :: steps, ?_, ?_, hrefines, hrest⟩
    · rw [run, hstep, Option.bind_some, hrun, Option.bind_some]
    · intro s hs
      rcases List.mem_cons.mp hs with rfl | hs
      · exact hvalid'
      · exact hall s hs

end

/-- Any sequence of operations on trees that start empty runs to its end. After each operation
every tree is an ordered, balanced, left-leaning red-black tree, and all answers and contents are
those of finite maps. -/
theorem run_refines (ops : List (Op ι K α)) (hops : ∀ op ∈ ops, op.TwoTrees) :
    ∃ steps, run (fun _ => null) ops = some steps ∧ (∀ step ∈ steps, ∀ i, (step.2 i).LeftLeaning) ∧
      RunRefines (fun _ => null) ops steps := by
  obtain ⟨steps, hrun, hvalid, hrefines⟩ := run_valid (fun _ => valid_null) ops hops
  exact ⟨steps, hrun, fun step hstep i => (hvalid step hstep i).leftLeaning, hrefines⟩

theorem run_refines_merge :
    ∃ steps, run (fun _ => null)
        [.insert 0 2 'b', .insert 0 1 'a', .insert 1 2 'c', .merge 0 1, .delete 0 2] = some steps ∧
      (∀ step ∈ steps, ∀ i : Nat, (step.2 i).LeftLeaning) ∧
      RunRefines (fun _ => null)
        [.insert 0 2 'b', .insert 0 1 'a', .insert 1 2 'c', .merge 0 1, .delete 0 2] steps :=
  run_refines (K := Nat) _ (by simp [Op.TwoTrees])

/-- The root is never made black: after two insertions it is red and so is its left child. -/
theorem two_reds : ∃ pnodeRoot : Node Nat Char,
    (run (fun _ => null) [.insert () 2 'b', .insert () 1 'a']).map
        (fun steps => steps.map fun step => step.2 ()) =
      some [node .red 2 'b' null null, pnodeRoot] ∧
    pnodeRoot = node .red 2 'b' (node .red 1 'a' null null) null ∧ ¬ pnodeRoot.NoRedRed := by
  refine ⟨node .red 2 'b' (node .red 1 'a' null null) null, by decide, rfl, ?_⟩
  simp [NoRedRed]

/-- After every operation of every sequence a descent into a tree with `n` entries passes at most
`2 * log2 (n + 1)` nodes, though the root may be red. -/
theorem run_height (ops : List (Op ι K α)) (hops : ∀ op ∈ ops, op.TwoTrees) :
    ∃ steps, run (fun _ => null) ops = some steps ∧ ∀ step ∈ steps, ∀ i,
      2 ^ (step.2 i).height ≤ ((step.2 i).entries.length + 1) ^ 2 := by
  obtain ⟨steps, hrun, hvalid, -⟩ := run_valid (fun _ => valid_null) ops hops
  exact ⟨steps, hrun, fun step hstep i => (hvalid step hstep i).shaped.two_pow_height_le⟩

theorem run_height_merge :
    ∃ steps, run (fun _ => null)
        [.insert 0 2 'b', .insert 0 1 'a', .insert 1 2 'c', .merge 0 1] = some steps ∧
      ∀ step ∈ steps, ∀ i : Nat, 2 ^ (step.2 i).height ≤ ((step.2 i).entries.length + 1) ^ 2 :=
  run_height (K := Nat) _ (by simp [Op.TwoTrees])

end Refinement

end EseLinux.RedBlackTree
