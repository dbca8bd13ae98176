import EseLinux.RedBlackRoot

/-!
The lookups of the red-black tree and the merge of two trees, in terms of the finite maps they
stand for.
-/

namespace EseLinux.RedBlackTree

universe u v w

variable {K : Type u} {α : Type v} [LinearOrder K]

open SortedAssoc Function List

namespace Node

def toMap (pnode : Node K α) : K → Option α :=
  value pnode.entries

@[simp] theorem toMap_null (key : K) : (null : Node K α).toMap key = none := rfl

section Lookup

variable {pnode : Node K α} {key : K}

theorem findGreaterThanOrEqual_eq (hs : Sorted pnode.entries) (acc : Option (K × α)) :
    pnode.findGreaterThanOrEqual key acc =
      (pnode.entries.find? fun e => decide (key ≤ e.1)).or acc := by
  induction pnode generalizing acc with
  | null => rfl
  | node c key' obj l r ihl ihr =>
    obtain ⟨hsl, hsr, hl, hr⟩ := sorted_node.mp hs
    rcases le_or_gt key key' with hle | hgt
    · -- the node itself is a match, and a smaller one can only be on its left
      have hnode : ((l.entries ++ (key', obj) :: r.entries).find? fun e => decide (key ≤ e.1)) =
          (l.entries.find? fun e => decide (key ≤ e.1)).or (some (key', obj)) := by
        rw [find?_append, find?_cons_of_pos (by simpa using hle)]
      rw [entries, hnode]
      rcases hle.eq_or_lt with rfl | hlt
      · have hnone : (l.entries.find? fun e => decide (key ≤ e.1)) = none := by
          rw [find?_eq_none]
          intro e he
          simpa using hl e he
        rw [findGreaterThanOrEqual, if_pos rfl, hnone]
        rfl
      · rw [findGreaterThanOrEqual, if_neg hlt.ne, if_pos hlt, ihl hsl]
        cases l.entries.find? fun e => decide (key ≤ e.1) <;> rfl
    · have hnone : (l.entries.find? fun e => decide (key ≤ e.1)) = none := by
        rw [find?_eq_none]
        intro e he
        simpa using (hl e he).trans hgt
      rw [findGreaterThanOrEqual, if_neg hgt.ne', if_neg hgt.le.not_gt, ihr hsr, entries,
        find?_append, hnone, find?_cons_of_neg (by simpa using hgt)]
      rfl

theorem Valid.findGreaterThanOrEqual_some (h : pnode.Valid) {e : K × α}
    (hfind : pnode.findGreaterThanOrEqual key none = some e) :
    key ≤ e.1 ∧ pnode.toMap e.1 = some e.2 ∧
      ∀ key', key ≤ key' → pnode.toMap key' ≠ none → e.1 ≤ key' := by
  rw [findGreaterThanOrEqual_eq h.sorted, Option.or_none] at hfind
  obtain ⟨hle, l, r, hentries, hbefore⟩ := find?_eq_some_iff_append.mp hfind
  have hsorted := h.sorted
  rw [hentries] at hsorted
  refine ⟨by simpa using hle, ?_, ?_⟩
  · exact value_of_mem h.sorted (mem_of_find?_eq_some hfind)
  · intro key' hkey' hne
    obtain ⟨obj, hobj⟩ := Option.ne_none_iff_exists'.mp hne
    have hmem := mem_of_value hobj
    rw [hentries] at hmem
    rcases mem_append.mp hmem with hmem | hmem
    · have := hbefore _ hmem
      simp only [Bool.not_eq_true', decide_eq_false_iff_not] at this
      exact absurd hkey' this
    · rcases mem_cons.mp hmem with rfl | hmem
      · exact le_rfl
      · exact ((sorted_node.mp hsorted).2.2.2 _ hmem).le

theorem Valid.findGreaterThanOrEqual_none (h : pnode.Valid)
    (hfind : pnode.findGreaterThanOrEqual key none = none) :
    ∀ key', key ≤ key' → pnode.toMap key' = none := by
  rw [findGreaterThanOrEqual_eq h.sorted, Option.or_none, find?_eq_none] at hfind
  intro key' hkey'
  apply value_eq_none_of_forall
  rintro e he rfl
  exact hfind e he (by simpa using hkey')

theorem findNearest_spec (key : K) (hs : Sorted pnode.entries) (hne : pnode ≠ null) :
    ∃ e ∈ pnode.entries, pnode.findNearest key = some e ∧
      ∀ x ∈ pnode.entries, ¬ (key < x.1 ∧ x.1 < e.1) ∧ ¬ (e.1 < x.1 ∧ x.1 < key) ∧
        (x.1 = key → e.1 = key) := by
  induction pnode with
  | null => exact absurd rfl hne
  | node c key' obj l r ihl ihr =>
    obtain ⟨hsl, hsr, hl, hr⟩ := sorted_node.mp hs
    rcases lt_trichotomy key key' with hlt | rfl | hgt
    · -- the entries that are not on the left are behind the one that is found
      obtain ⟨e, he, hle, hfind, hnear⟩ : ∃ e ∈ (node c key' obj l r).entries, e.1 ≤ key' ∧
          (node c key' obj l r).findNearest key = some e ∧ ∀ x ∈ l.entries,
            ¬ (key < x.1 ∧ x.1 < e.1) ∧ ¬ (e.1 < x.1 ∧ x.1 < key) ∧ (x.1 = key → e.1 = key) := by
        rw [findNearest, if_neg hlt.ne, if_pos hlt]
        cases l with
        | null => exact ⟨(key', obj), by simp [entries], le_rfl, rfl, by simp [entries]⟩
        | node cl kl ol ll lr =>
          obtain ⟨e, he, hfind, hnear⟩ := ihl hsl (by simp)
          exact ⟨e, mem_append_left _ he, (hl e he).le, hfind, hnear⟩
      refine ⟨e, he, hfind, fun x hx => ?_⟩
      rcases mem_append.mp hx with hx | hx
      · exact hnear x hx
      · have hx' : key' ≤ x.1 := by
          rcases mem_cons.mp hx with rfl | hx
          · exact le_rfl
          · exact (hr x hx).le
        exact ⟨fun h => (hle.trans hx').not_gt h.2, fun h => (hlt.trans_le hx').not_gt h.2,
          fun h => absurd h (hlt.trans_le hx').ne'⟩
    · refine ⟨(key, obj), by simp [entries], by rw [findNearest, if_pos rfl], ?_⟩
      intro x hx
      exact ⟨fun h => (h.1.trans h.2).false, fun h => (h.1.trans h.2).false, fun _ => rfl⟩
    · obtain ⟨e, he, hle, hfind, hnear⟩ : ∃ e ∈ (node c key' obj l r).entries, key' ≤ e.1 ∧
          (node c key' obj l r).findNearest key = some e ∧ ∀ x ∈ r.entries,
            ¬ (key < x.1 ∧ x.1 < e.1) ∧ ¬ (e.1 < x.1 ∧ x.1 < key) ∧ (x.1 = key → e.1 = key) := by
        rw [findNearest, if_neg hgt.ne', if_neg hgt.le.not_gt]
        cases r with
        | null => exact ⟨(key', obj), by simp [entries], le_rfl, rfl, by simp [entries]⟩
        | node cr kr or' rl rr =>
          obtain ⟨e, he, hfind, hnear⟩ := ihr hsr (by simp)
          exact ⟨e, mem_append_right _ (mem_cons_of_mem _ he), (hr e he).le, hfind, hnear⟩
      refine ⟨e, he, hfind, fun x hx => ?_⟩
      have hright : x ∈ r.entries ∨ x.1 ≤ key' := by
        rcases mem_append.mp hx with hx | hx
        · exact .inr (hl x hx).le
        · exact (mem_cons.mp hx).symm.imp_right fun heq => by rw [heq]
      rcases hright with hx | hx'
      · exact hnear x hx
      · exact ⟨fun h => (hx'.trans_lt hgt).not_gt h.1, fun h => (hx'.trans hle).not_gt h.1,
          fun h => absurd h (hx'.trans_lt hgt).ne⟩

end Lookup

section Update

variable {pnodeRoot : Node K α} {key : K} {obj : α}

theorem Valid.errInsert_toMap (h : pnodeRoot.Valid) (obj : α)
    (hnone : pnodeRoot.toMap key = none) :
    ∃ pnode, pnodeRoot.errInsert key obj = some (.success, pnode) ∧ pnode.Valid ∧
      pnode.toMap = update pnodeRoot.toMap key (some obj) := by
  obtain ⟨pnode, hins, hvalid, hentries⟩ := h.errInsert obj hnone
  refine ⟨pnode, hins, hvalid, ?_⟩
  rw [toMap, hentries, value_insert h.sorted]
  rfl

theorem Valid.errDelete_toMap (h : pnodeRoot.Valid) (hsome : pnodeRoot.toMap key = some obj) :
    ∃ pnode, pnodeRoot.errDelete key = some ((.success, some (key, obj)), pnode) ∧ pnode.Valid ∧
      pnode.entries.length < pnodeRoot.entries.length ∧
      pnode.toMap = update pnodeRoot.toMap key none := by
  obtain ⟨pnode, hdel, hvalid, hentries⟩ := h.errDelete hsome
  refine ⟨pnode, hdel, hvalid, ?_, ?_⟩
  · rw [hentries, erase, length_filter_lt_length_iff_exists]
    exact ⟨(key, obj), mem_of_value hsome, by simp⟩
  · rw [toMap, hentries, value_erase h.sorted]
    rfl

theorem fEmpty_iff : pnodeRoot.fEmpty = true ↔ ∀ key, pnodeRoot.toMap key = none := by
  cases pnodeRoot with
  | null => simp [fEmpty]
  | node c key' obj' l r =>
    simp only [fEmpty, Bool.false_eq_true, false_iff, not_forall]
    exact ⟨key', value_ne_none_of_mem (e := (key', obj')) (by simp [entries])⟩

omit [LinearOrder K] in
theorem eq_null_of_fEmpty (h : pnodeRoot.fEmpty = true) : pnodeRoot = null := by
  cases pnodeRoot with
  | null => rfl
  | node => cases h

end Update

end Node

open Node

section Merge

variable {ι : Type w} [DecidableEq ι] {trees : ι → Node K α} {dst src : ι} {leftOvers : Node K α}

theorem forall_valid_update (h : ∀ i, (trees i).Valid) (i : ι) {pnode : Node K α}
    (hpnode : pnode.Valid) : ∀ k, (update trees i pnode k).Valid := by
  intro k
  rw [update_apply]
  split
  · exact hpnode
  · exact h k

/-- Where the loop of a merge ends, for the trees and the left-overs it starts from. -/
structure Merged (trees : ι → Node K α) (dst src : ι) (leftOvers : Node K α)
    (trees' : ι → Node K α) (leftOvers' : Node K α) : Prop where
  valid : ∀ i, (trees' i).Valid
  validLeft : leftOvers'.Valid
  empty : trees' src = null
  others : ∀ i, i ≠ dst → i ≠ src → trees' i = trees i
  moved : ∀ key, (trees' dst).toMap key = ((trees dst).toMap key).or ((trees src).toMap key)
  left : ∀ key, leftOvers'.toMap key =
    (leftOvers.toMap key).or (((trees dst).toMap key).bind fun _ => (trees src).toMap key)

theorem Merged.of_round {trees' : ι → Node K α} {leftOvers' leftOvers₁ rest target : Node K α}
    {keyMove : K} {pnodeMove : α} (hne : dst ≠ src)
    (h : Merged (update (update trees src rest) dst target) dst src leftOvers₁
      trees' leftOvers')
    (hkey : (trees src).toMap keyMove = some pnodeMove)
    (hapart : leftOvers.toMap keyMove = none)
    (hrest : rest.toMap = update (trees src).toMap keyMove none)
    (htarget : (trees dst).toMap keyMove = none ∧
        target.toMap = update (trees dst).toMap keyMove (some pnodeMove) ∧
        leftOvers₁ = leftOvers ∨
      (trees dst).toMap keyMove ≠ none ∧ target = trees dst ∧
        leftOvers₁.toMap = update leftOvers.toMap keyMove (some pnodeMove)) :
    Merged trees dst src leftOvers trees' leftOvers' := by
  have hsrc : update (update trees src rest) dst target src = rest := by
    rw [update_of_ne hne.symm, update_self]
  have hdst : update (update trees src rest) dst target dst = target := update_self ..
  refine ⟨h.valid, h.validLeft, h.empty, ?_, ?_, ?_⟩
  · intro i hi hi'
    rw [h.others i hi hi', update_of_ne hi, update_of_ne hi']
  · intro key
    rw [h.moved key, hsrc, hdst, hrest]
    by_cases hk : key = keyMove
    · rcases htarget with ⟨hnone, hmap, -⟩ | ⟨hsome, rfl, -⟩
      · simp [hk, hmap, hnone, hkey]
      · obtain ⟨a, ha⟩ := Option.ne_none_iff_exists'.mp hsome
        simp [hk, ha]
    · rcases htarget with ⟨-, hmap, -⟩ | ⟨-, rfl, -⟩ <;> simp [*]
  · intro key
    rw [h.left key, hsrc, hdst, hrest]
    by_cases hk : key = keyMove
    · rcases htarget with ⟨hnone, hmap, rfl⟩ | ⟨hsome, rfl, hleft⟩
      · simp [hk, hmap, hapart, hnone]
      · obtain ⟨a, ha⟩ := Option.ne_none_iff_exists'.mp hsome
        simp [hk, hleft, ha, hapart, hkey]
    · rcases htarget with ⟨-, hmap, rfl⟩ | ⟨-, rfl, hleft⟩ <;> simp [*]

theorem mergeLoop_merged (hne : dst ≠ src) {rounds : Nat} (hvalid : ∀ i, (trees i).Valid)
    (hleft : leftOvers.Valid)
    (hapart : ∀ key, (trees src).toMap key ≠ none → leftOvers.toMap key = none)
    (hrounds : (trees src).entries.length < rounds) :
    ∃ trees' leftOvers', mergeLoop rounds trees dst src leftOvers = some (trees', leftOvers') ∧
      Merged trees dst src leftOvers trees' leftOvers' := by
  induction rounds generalizing trees leftOvers with
  | zero => exact absurd hrounds (Nat.not_lt_zero _)
  | succ rounds ih =>
    cases hsrc : trees src with
    | null =>
      refine ⟨trees, leftOvers, ?_, hvalid, hleft, hsrc, fun _ _ _ => rfl, ?_, ?_⟩
      · rw [mergeLoop, hsrc]
      · intro key
        rw [hsrc, toMap_null, Option.or_none]
      · intro key
        rw [hsrc, toMap_null]
        cases (trees dst).toMap key <;> simp
    | node c keyMove pnodeMove l r =>
      have hkey : (trees src).toMap keyMove = some pnodeMove :=
        value_of_mem (hvalid src).sorted (by simp [hsrc, entries])
      obtain ⟨rest, hdel, hrest, hlen, hmap⟩ := (hvalid src).errDelete_toMap hkey
      have hfree : leftOvers.toMap keyMove = none := hapart keyMove (by simp [hkey])
      have htarget : update trees src rest dst = trees dst := update_of_ne hne ..
      -- the trees after the round, whatever the target has become
      have hround (target : Node K α) :
          update (update trees src rest) dst target src = rest := by
        rw [update_of_ne hne.symm, update_self]
      have hstill (key : K) (h : rest.toMap key ≠ none) :
          key ≠ keyMove ∧ (trees src).toMap key ≠ none := by
        rw [hmap, update_apply] at h
        split at h
        · exact absurd rfl h
        · exact ⟨‹_›, h⟩
      have hloop : mergeLoop (rounds + 1) trees dst src leftOvers =
          ((trees dst).errInsert keyMove pnodeMove).bind fun ins =>
            let trees := update (update trees src rest) dst ins.2
            if ins.1 = .success then mergeLoop rounds trees dst src leftOvers
            else (leftOvers.errInsert keyMove pnodeMove).bind fun left =>
              mergeLoop rounds trees dst src left.2 := by
        rw [mergeLoop]
        simp only [hsrc]
        rw [← hsrc, hdel]
        simp only [Option.bind_some, htarget]
      have hvalid₁ := forall_valid_update hvalid src hrest
      by_cases hnone : (trees dst).toMap keyMove = none
      · obtain ⟨target, hins, hvalid₂, hmap₂⟩ := (hvalid dst).errInsert_toMap pnodeMove hnone
        obtain ⟨trees', leftOvers', hrun, hmerged⟩ :=
          ih (forall_valid_update hvalid₁ dst hvalid₂) hleft
            (fun key h => hapart key (hstill key (hround target ▸ h)).2)
            (by rw [hround]; omega)
        refine ⟨trees', leftOvers', ?_, hmerged.of_round hne hkey hfree hmap
          (.inl ⟨hnone, hmap₂, rfl⟩)⟩
        rw [hloop, hins, Option.bind_some]
        exact hrun
      · have hins := (hvalid dst).errInsert_duplicate pnodeMove hnone
        obtain ⟨left, hinsLeft, hvalidLeft, hmapLeft⟩ := hleft.errInsert_toMap pnodeMove hfree
        obtain ⟨trees', leftOvers', hrun, hmerged⟩ :=
          ih (forall_valid_update hvalid₁ dst (hvalid dst)) hvalidLeft
            (fun key h => by
              obtain ⟨hk, hsome⟩ := hstill key (hround (trees dst) ▸ h)
              rw [hmapLeft, update_of_ne hk]
              exact hapart key hsome)
            (by rw [hround]; omega)
        refine ⟨trees', leftOvers', ?_, hmerged.of_round hne hkey hfree hmap
          (.inr ⟨hnone, rfl, hmapLeft⟩)⟩
        rw [hloop, hins, Option.bind_some]
        simp only [reduceCtorEq, if_false, hinsLeft, Option.bind_some]
        exact hrun

theorem errMerge_spec (hne : dst ≠ src) (hvalid : ∀ i, (trees i).Valid) :
    ∃ err trees', errMerge trees dst src = some (err, trees') ∧ (∀ i, (trees' i).Valid) ∧
      (∀ i, i ≠ dst → i ≠ src → trees' i = trees i) ∧
      (∀ key, (trees' dst).toMap key = ((trees dst).toMap key).or ((trees src).toMap key)) ∧
      (∀ key, (trees' src).toMap key =
        ((trees dst).toMap key).bind fun _ => (trees src).toMap key) ∧
      (err = .success ∧ (trees' src).fEmpty = true ∨
        err = .duplicateEntry ∧ (trees' src).fEmpty = false) := by
  by_cases hempty : (trees dst).fEmpty = true
  · -- the fast path: the root is moved, and the loop finds nothing
    have hdst : trees dst = null := eq_null_of_fEmpty hempty
    have hmove : move trees dst src =
        update (update trees dst (trees src)) src null := if_pos hempty
    have hsrc : move trees dst src src = null := by rw [hmove, update_self]
    refine ⟨.success, move trees dst src, ?_, ?_, ?_, ?_, ?_, .inl ⟨rfl, by rw [hsrc]; rfl⟩⟩
    · simp only [errMerge, if_pos hempty]
      rw [mergeLoop, hsrc]
      rfl
    · rw [hmove]
      exact forall_valid_update (forall_valid_update hvalid dst (hvalid src)) src valid_null
    · intro i hi hi'
      rw [hmove, update_of_ne hi', update_of_ne hi]
    · intro key
      rw [hmove, update_of_ne hne, update_self, hdst]
      rfl
    · intro key
      rw [hsrc, hdst]
      rfl
  · obtain ⟨trees₁, leftOvers, hrun, hmerged⟩ :=
      mergeLoop_merged hne hvalid valid_null (fun _ _ => toMap_null _)
        (Nat.lt_succ_self (trees src).entries.length)
    have hleft (key : K) : leftOvers.toMap key =
        ((trees dst).toMap key).bind fun _ => (trees src).toMap key := hmerged.left key
    have hmerge : errMerge trees dst src = if leftOvers.fEmpty then some (.success, trees₁)
        else some (.duplicateEntry, update trees₁ src leftOvers) := by
      have hsrc : (trees₁ src).fEmpty = true := by rw [hmerged.empty]; rfl
      simp only [errMerge, if_neg hempty]
      rw [hrun, Option.bind_some, if_pos hsrc]
    by_cases hl : leftOvers.fEmpty = true
    · refine ⟨.success, trees₁, by rw [hmerge, if_pos hl], hmerged.valid, hmerged.others,
        hmerged.moved, ?_, .inl ⟨rfl, by rw [hmerged.empty]; rfl⟩⟩
      intro key
      rw [hmerged.empty, toMap_null, ← hleft key, fEmpty_iff.mp hl key]
    · refine ⟨.duplicateEntry, update trees₁ src leftOvers, by rw [hmerge, if_neg hl],
        forall_valid_update hmerged.valid src hmerged.validLeft, ?_, ?_, ?_, .inr ⟨rfl, ?_⟩⟩
      · intro i hi hi'
        rw [update_of_ne hi', hmerged.others i hi hi']
      · intro key
        rw [update_of_ne hne, hmerged.moved key]
      · intro key
        rw [update_self, hleft key]
      · rw [update_self]
        simpa using hl

end Merge

end EseLinux.RedBlackTree
