import EseLinux.RedBlackDelete

/-!
`ErrDelete` on a whole tree.

The colour of the root is free and nothing an operation does depends on it, so that the root can be
given the colour the descent asks for.
-/

namespace EseLinux.RedBlackTree

universe u v

variable {K : Type u} {α : Type v}

namespace Node

section Recolor

theorem descendLeft_recolor (c : Color) (pnode : Node K α) :
    (pnode.recolor c).descendLeft.map (recolor .black) =
      pnode.descendLeft.map (recolor .black) := by
  rcases pnode with _ | ⟨c', key, obj, _ | ⟨_ | _, _, _, _ | ⟨_ | _, _, _, _, _⟩, _⟩,
    _ | ⟨_, _, _, _ | ⟨_ | _, _, _, _, _⟩, _⟩⟩ <;> rfl

theorem descendRight_recolor (c : Color) (pnode : Node K α) :
    (pnode.recolor c).descendRight.map (recolor .black) =
      pnode.descendRight.map (recolor .black) := by
  rcases pnode with _ | ⟨c', key, obj, _ | ⟨_ | _, _, _, _ | ⟨_ | _, _, _, _, _⟩, _⟩,
    _ | ⟨_ | _, _, _, _ | ⟨_ | _, _, _, _, _⟩, _⟩⟩ <;> rfl

theorem leanRight_recolor (c : Color) (pnode : Node K α) :
    (pnode.recolor c).leanRight.map (recolor .black) = pnode.leanRight.map (recolor .black) := by
  rcases pnode with _ | ⟨c', key, obj, _ | ⟨_ | _, _, _, _, _⟩, r⟩ <;> rfl

def uncolored (x : Node K α × (K × α)) : Node K α × (K × α) :=
  (x.1.recolor .black, x.2)

theorem fixup_bind_uncolored (c : Color) (pnode : Node K α) (e : K × α) :
    ((pnode.recolor c).fixup.bind fun p => some (p, e)).map uncolored =
      (pnode.fixup.bind fun p => some (p, e)).map uncolored :=
  bind_recolor (fixup_recolor c pnode) fun c p => by cases p <;> rfl

variable [LinearOrder K]

theorem deleteLeft_recolor (key : K) (c : Color) (pnode : Node K α) :
    (deleteLeft key (pnode.recolor c)).map uncolored = (deleteLeft key pnode).map uncolored := by
  cases pnode with
  | null => rfl
  | node c' key' obj' l r =>
    rw [recolor, deleteLeft, deleteLeft]
    cases deleteNode l key with
    | none => rfl
    | some x => exact fixup_bind_uncolored c (node c' key' obj' x.1 r) x.2

theorem deleteRight_recolor (key : K) (c : Color) (pnode : Node K α) :
    (deleteRight key (pnode.recolor c)).map uncolored = (deleteRight key pnode).map uncolored := by
  cases pnode with
  | null => rfl
  | node c' key' obj' l r =>
    rw [recolor, deleteRight, deleteRight]
    split
    · cases r.pnodeMin with
      | none => rfl
      | some min =>
        cases r.removeMinNode with
        | none => rfl
        | some r' => exact fixup_bind_uncolored c (node c' min.1 min.2 l r') (key', obj')
    · cases deleteNode r key with
      | none => rfl
      | some x => exact fixup_bind_uncolored c (node c' key' obj' l x.1) x.2

theorem deleteLeaned_recolor (key : K) (c : Color) (pnode : Node K α) :
    (deleteLeaned key (pnode.recolor c)).map uncolored =
      (deleteLeaned key pnode).map uncolored := by
  cases pnode with
  | null => rfl
  | node c' key' obj' l r =>
    rw [recolor, deleteLeaned, deleteLeaned]
    split
    · rfl
    · exact bind_recolor (descendRight_recolor c (node c' key' obj' l r))
        (deleteRight_recolor key)

theorem deleteNode_recolor (key : K) (c : Color) (pnode : Node K α) :
    (deleteNode (pnode.recolor c) key).map uncolored = (deleteNode pnode key).map uncolored := by
  cases pnode with
  | null => rfl
  | node c' key' obj' l r =>
    by_cases hlt : key < key'
    · rw [recolor, deleteNode_lt hlt, deleteNode_lt hlt]
      exact bind_recolor (descendLeft_recolor c (node c' key' obj' l r)) (deleteLeft_recolor key)
    · rw [recolor, deleteNode_ge hlt, deleteNode_ge hlt]
      exact bind_recolor (leanRight_recolor c (node c' key' obj' l r))
        (deleteLeaned_recolor key)

end Recolor

variable {key : K}

theorem Shaped.ready {c : Color} {obj : α} {l r : Node K α} (h : (node c key obj l r).Shaped) :
    ∃ c' n, Ready c' n ((node c key obj l r).recolor c') := by
  obtain ⟨cl, n, hl, hr⟩ := shaped_node.mp h
  cases cl with
  | red => exact ⟨.black, n + 1, Ready.black hl hr⟩
  | black => exact ⟨.red, n, Ready.red hl hr⟩

section Root

variable [LinearOrder K] {pnodeRoot : Node K α}

open SortedAssoc

theorem find_eq_value (hs : Sorted pnodeRoot.entries) :
    pnodeRoot.find key = (value pnodeRoot.entries key).map fun obj => (key, obj) := by
  induction pnodeRoot with
  | null => rfl
  | node c key' obj' l r ihl ihr =>
    obtain ⟨hsl, hsr, -, -⟩ := sorted_node.mp hs
    rcases lt_trichotomy key key' with hlt | rfl | hgt
    · rw [find, if_neg hlt.ne, if_pos hlt, ihl hsl]
      exact congrArg _ (value_node_lt hs hlt).symm
    · rw [find, if_pos rfl]
      exact (congrArg (Option.map fun obj => (key, obj)) (value_node_eq hs)).symm
    · rw [find, if_neg hgt.ne', if_neg hgt.le.not_gt, ihr hsr]
      exact congrArg _ (value_node_gt hs hgt).symm

theorem Valid.errDelete_absent (h : pnodeRoot.Valid) (hnone : value pnodeRoot.entries key = none) :
    pnodeRoot.errDelete key = some ((.entryNotFound, none), pnodeRoot) := by
  rw [Node.errDelete, find_eq_value h.sorted, hnone]
  rfl

theorem Valid.errDelete (h : pnodeRoot.Valid) {obj : α}
    (hsome : value pnodeRoot.entries key = some obj) :
    ∃ pnode, pnodeRoot.errDelete key = some ((.success, some (key, obj)), pnode) ∧ pnode.Valid ∧
      pnode.entries = erase key pnodeRoot.entries := by
  obtain ⟨c', n, hready⟩ : ∃ c' n, Ready c' n (pnodeRoot.recolor c') := by
    cases pnodeRoot with
    | null => cases hsome
    | node => exact h.shaped.ready
  have hdel : Deletes key c' n (pnodeRoot.recolor c') := by
    apply deleteNode_deletes (.inl hready)
    · rw [entries_recolor]
      exact h.sorted
    · rw [entries_recolor, hsome]
      simp
  obtain ⟨p, obj', hp, hvalue, herase, c'', hbal, -⟩ := hdel
  rw [entries_recolor] at hvalue herase
  obtain rfl : obj = obj' := Option.some.inj (hsome.symm.trans hvalue)
  have heq := deleteNode_recolor key c' pnodeRoot
  rw [hp, Option.map_some] at heq
  obtain ⟨x, hx, hxp⟩ := Option.map_eq_some_iff.mp heq.symm
  have hcolor : x.1.recolor .black = p.recolor .black := congrArg Prod.fst hxp
  have hentries : x.1.entries = erase key pnodeRoot.entries := by
    rw [← herase, ← entries_recolor .black x.1, hcolor, entries_recolor]
  refine ⟨x.1, ?_, ⟨?_, ?_⟩, hentries⟩
  · rw [Node.errDelete, find_eq_value h.sorted, hsome]
    change ((deleteNode pnodeRoot key).bind fun y => some ((_, some y.2), y.1)) = _
    rw [hx, Option.bind_some, show x.2 = (key, obj) from congrArg Prod.snd hxp]
  · rw [← shaped_recolor .black, hcolor, shaped_recolor]
    exact hbal.shaped
  · rw [hentries]
    exact sorted_erase h.sorted key

end Root

end Node
end EseLinux.RedBlackTree
