import EseLinux.RedBlackTree

/-!
The shape of a left-leaning red-black tree, and how `Fixup_` restores it after an insertion.

`Bal c n pnode` says that `pnode` has the colour `c`, that every path from it to a null link meets
`n` black nodes, that no right child is red and that no red node has a red left child. The root of
a tree keeps all of it but the restriction on its own colour.
-/

namespace EseLinux.RedBlackTree

universe u v

variable {K : Type u} {α : Type v}

namespace Node

inductive Bal : Color → Nat → Node K α → Prop where
  | null : Bal .black 0 null
  | red {n : Nat} {key : K} {obj : α} {l r : Node K α} (hl : Bal .black n l)
      (hr : Bal .black n r) : Bal .red n (node .red key obj l r)
  | black {c : Color} {n : Nat} {key : K} {obj : α} {l r : Node K α} (hl : Bal c n l)
      (hr : Bal .black n r) : Bal .black (n + 1) (node .black key obj l r)

def recolor (c : Color) : Node K α → Node K α
  | null => null
  | node _ key obj l r => node c key obj l r

def Shaped (pnode : Node K α) : Prop :=
  ∃ n, Bal .black n (pnode.recolor .black)

structure Valid [LinearOrder K] (pnodeRoot : Node K α) : Prop where
  shaped : pnodeRoot.Shaped
  sorted : SortedAssoc.Sorted pnodeRoot.entries

theorem shaped_null : (null : Node K α).Shaped := ⟨0, Bal.null⟩

variable {c : Color} {r l : Node K α} {key : K}

theorem shaped_node {obj : α} :
    (node c key obj l r).Shaped ↔ ∃ cl n, Bal cl n l ∧ Bal .black n r := by
  constructor
  · rintro ⟨_, h⟩
    cases h with
    | black hl hr => exact ⟨_, _, hl, hr⟩
  · rintro ⟨cl, n, hl, hr⟩
    exact ⟨n + 1, Bal.black hl hr⟩

variable {pnode : Node K α}

theorem shaped_recolor (c : Color) : (pnode.recolor c).Shaped ↔ pnode.Shaped := by
  cases pnode <;> rfl

variable {n : Nat}

theorem Bal.shaped (h : Bal c n pnode) : pnode.Shaped := by
  cases h with
  | null => exact shaped_null
  | red hl hr => exact shaped_node.mpr ⟨_, _, hl, hr⟩
  | black hl hr => exact shaped_node.mpr ⟨_, _, hl, hr⟩

@[simp] theorem entries_recolor (c : Color) (pnode : Node K α) :
    (pnode.recolor c).entries = pnode.entries := by
  cases pnode <;> rfl

theorem Bal.fIsNonNullAndRed (h : Bal c n pnode) : pnode.fIsNonNullAndRed = decide (c = .red) := by
  cases h <;> rfl

theorem Bal.no_reds (h : Bal c n pnode) : ¬ (pnode.fIsNonNullAndRed && pnode.fLeftRed) = true := by
  cases h with
  | null => simp [Node.fIsNonNullAndRed]
  | red hl hr => simp [fLeftRed, hl.fIsNonNullAndRed]
  | black hl hr => simp [Node.fIsNonNullAndRed]

section Fixup

variable {c : Color} {key key' : K} {obj obj' : α} {l r ll lr rl rr : Node K α}

theorem fixup_self (hl : ¬ (l.fIsNonNullAndRed && l.fLeftRed) = true)
    (hr : r.fIsNonNullAndRed = false) :
    (node c key obj l r).fixup = some (node c key obj l r) := by
  have hlean : (node c key obj l r).leanLeft = some (node c key obj l r) := by
    simp [leanLeft, pnodeRight, hr]
  have hspread : (node c key obj l r).spreadReds = some (node c key obj l r) := by
    simp only [spreadReds, pnodeLeft, bind, Option.bind_some, if_neg hl]
  have hraise : (node c key obj l r).raiseReds = some (node c key obj l r) := by
    simp [raiseReds, pnodeLeft, pnodeRight, hr]
  simp only [fixup, hlean, hspread, hraise, bind, Option.bind_some]

theorem fixup_right (hl : l.fIsNonNullAndRed = false) (hrr : rr.fIsNonNullAndRed = false) :
    (node c key obj l (node .red key' obj' rl rr)).fixup =
      some (node c key' obj' (node .red key obj l rl) rr) := by
  have hspread : (node c key' obj' (node .red key obj l rl) rr).spreadReds =
      some (node c key' obj' (node .red key obj l rl) rr) := by
    simp [spreadReds, pnodeLeft, fLeftRed, hl]
  have hraise : (node c key' obj' (node .red key obj l rl) rr).raiseReds =
      some (node c key' obj' (node .red key obj l rl) rr) := by
    simp [raiseReds, pnodeLeft, pnodeRight, hrr]
  change ((node c key' obj' (node .red key obj l rl) rr).spreadReds).bind raiseReds = _
  rw [hspread, Option.bind_some, hraise]

theorem fixup_leftLeft {key'' : K} {obj'' : α} (hr : r.fIsNonNullAndRed = false) :
    (node c key obj (node .red key' obj' (node .red key'' obj'' ll rl) lr) r).fixup =
      some (node c.flip key' obj' (node .black key'' obj'' ll rl) (node .black key obj lr r)) := by
  have hlean : (node c key obj (node .red key' obj' (node .red key'' obj'' ll rl) lr) r).leanLeft =
      some (node c key obj (node .red key' obj' (node .red key'' obj'' ll rl) lr) r) := by
    simp [leanLeft, pnodeRight, hr]
  rw [fixup, hlean]
  rfl

end Fixup

section Recolor

theorem leanLeft_recolor (c : Color) (pnode : Node K α) :
    (pnode.recolor c).leanLeft = pnode.leanLeft.map (recolor c) := by
  rcases pnode with _ | ⟨c', key, obj, l, _ | ⟨_ | _, _, _, _, _⟩⟩ <;> rfl

theorem spreadReds_recolor (c : Color) (pnode : Node K α) :
    (pnode.recolor c).spreadReds = pnode.spreadReds.map (recolor c) := by
  rcases pnode with _ | ⟨c', key, obj, _ | ⟨_ | _, _, _, _ | ⟨_ | _, _, _, _, _⟩, _⟩, r⟩ <;> rfl

theorem raiseReds_recolor (c : Color) (pnode : Node K α) :
    (pnode.recolor c).raiseReds.map (recolor .black) = pnode.raiseReds.map (recolor .black) := by
  rcases pnode with _ | ⟨c', key, obj, _ | ⟨_ | _, _, _, _, _⟩, _ | ⟨_ | _, _, _, _, _⟩⟩ <;> rfl

theorem fixup_recolor (c : Color) (pnode : Node K α) :
    (pnode.recolor c).fixup.map (recolor .black) = pnode.fixup.map (recolor .black) := by
  simp only [fixup, leanLeft_recolor, bind]
  cases pnode.leanLeft with
  | none => rfl
  | some p =>
    simp only [Option.map_some, Option.bind_some, spreadReds_recolor]
    cases p.spreadReds with
    | none => rfl
    | some q => exact raiseReds_recolor c q

theorem bind_recolor {β : Type*} {f : Node K α → Option β} {x y : Option (Node K α)} {g : β → β}
    (hxy : x.map (recolor .black) = y.map (recolor .black))
    (hf : ∀ c pnode, (f (recolor c pnode)).map g = (f pnode).map g) :
    (x.bind f).map g = (y.bind f).map g := by
  rcases x with _ | p <;> rcases y with _ | q
  · rfl
  · cases hxy
  · cases hxy
  · have hpq : p.recolor .black = q.recolor .black := Option.some.inj hxy
    rw [Option.bind_some, Option.bind_some, ← hf .black p, hpq, hf]

end Recolor

section Grown

variable {key : K} {obj : α} {l r : Node K α} {n : Nat}

/-- What an insertion leaves of a subtree of the colour `c`: below a red node two reds may meet. -/
inductive Grown : Color → Nat → Node K α → Prop where
  | bal {c c' : Color} {n : Nat} {pnode : Node K α} (h : Bal c' n pnode) : Grown c n pnode
  | reds {n : Nat} {key : K} {obj : α} {l r : Node K α} (hl : Bal .red n l)
      (hr : Bal .black n r) : Grown .red n (node .red key obj l r)

theorem grown_red (hl : Bal c n l) (hr : Bal .black n r) :
    Grown .red n (node .red key obj l r) := by
  cases c with
  | red => exact Grown.reds hl hr
  | black => exact Grown.bal (Bal.red hl hr)

variable {cl : Color}

theorem Bal.fixup_self (hl : Bal cl n l) (hr : Bal .black n r) :
    (node c key obj l r).fixup = some (node c key obj l r) :=
  Node.fixup_self hl.no_reds hr.fIsNonNullAndRed

theorem fixup_black_left (hl : Grown cl n l) (hr : Bal .black n r) :
    ∃ pnode c, (node .black key obj l r).fixup = some pnode ∧ Bal c (n + 1) pnode := by
  cases hl with
  | bal hl => exact ⟨_, _, hl.fixup_self hr, Bal.black hl hr⟩
  | reds hll hlr =>
    cases hll with
    | red hlll hllr =>
      exact ⟨_, _, fixup_leftLeft hr.fIsNonNullAndRed,
        Bal.red (Bal.black hlll hllr) (Bal.black hlr hr)⟩

theorem fixup_black_right {cr : Color} (hl : Bal cl n l) (hr : Bal cr n r) :
    ∃ pnode c, (node .black key obj l r).fixup = some pnode ∧ Bal c (n + 1) pnode ∧
      (cl = .black → c = .black) := by
  cases hr with
  | null => exact ⟨_, _, hl.fixup_self Bal.null, Bal.black hl Bal.null, fun _ => rfl⟩
  | black hrl hrr =>
    exact ⟨_, _, hl.fixup_self (Bal.black hrl hrr), Bal.black hl (Bal.black hrl hrr), fun _ => rfl⟩
  | red hrl hrr =>
    cases hl with
    | red hll hlr =>
      refine ⟨_, _, rfl, Bal.red (Bal.black hll hlr) (Bal.black hrl hrr), ?_⟩
      intro h
      cases h
    | null =>
      exact ⟨_, _, fixup_right rfl hrr.fIsNonNullAndRed, Bal.black (Bal.red Bal.null hrl) hrr,
        fun _ => rfl⟩
    | black hll hlr =>
      exact ⟨_, _, fixup_right rfl hrr.fIsNonNullAndRed,
        Bal.black (Bal.red (Bal.black hll hlr) hrl) hrr, fun _ => rfl⟩

theorem fixup_red_left (hl : Bal c n l) (hr : Bal .black n r) :
    ∃ pnode, (node .red key obj l r).fixup = some pnode ∧ Grown .red n pnode :=
  ⟨_, hl.fixup_self hr, grown_red hl hr⟩

theorem fixup_red_right (hl : Bal .black n l) (hr : Bal c n r) :
    ∃ pnode, (node .red key obj l r).fixup = some pnode ∧ Grown .red n pnode := by
  cases c with
  | black => exact ⟨_, hl.fixup_self hr, grown_red hl hr⟩
  | red =>
    cases hr with
    | red hrl hrr =>
      exact ⟨_, fixup_right hl.fIsNonNullAndRed hrr.fIsNonNullAndRed,
        Grown.reds (Bal.red hl hrl) hrr⟩

end Grown

section Insert

variable [LinearOrder K] {key : K} {obj : α}

open SortedAssoc Option

variable {obj' : α}

theorem insertNode_lt {key' : K} (h : key < key') : insertNode key obj (node c key' obj' l r) =
      (insertNode key obj l).bind fun x =>
        (node c key' obj' x.2 r).fixup.bind fun pnode => some (x.1, pnode) := by
  rw [insertNode, if_neg h.ne, if_pos h]
  rfl

theorem insertNode_gt {key' : K} (h : key' < key) : insertNode key obj (node c key' obj' l r) =
      (insertNode key obj r).bind fun x =>
        (node c key' obj' l x.2).fixup.bind fun pnode => some (x.1, pnode) := by
  rw [insertNode, if_neg h.ne', if_neg h.le.not_gt]
  rfl

theorem insertNode_eq : insertNode key obj (node c key obj' l r) =
      (node c key obj' l r).fixup.bind fun pnode => some (.duplicateEntry, pnode) := by
  rw [insertNode, if_pos rfl]
  rfl

theorem insertNode_grown (key : K) (obj : α) (h : Bal c n pnode) :
    ∃ x, insertNode key obj pnode = some x ∧ Grown c n x.2 := by
  induction h with
  | null => exact ⟨_, rfl, Grown.bal (Bal.red Bal.null Bal.null)⟩
  | @red n key' obj' l r hl hr ihl ihr =>
    rcases lt_trichotomy key key' with hlt | rfl | hgt
    · obtain ⟨x, hx, hgrown⟩ := ihl
      cases hgrown with
      | bal hx' =>
        obtain ⟨p, hp, hgrown⟩ := fixup_red_left hx' hr
        exact ⟨_, by rw [insertNode_lt hlt, hx, bind_some, hp, bind_some], hgrown⟩
    · exact ⟨_, by rw [insertNode_eq, hl.fixup_self hr, bind_some], grown_red hl hr⟩
    · obtain ⟨x, hx, hgrown⟩ := ihr
      cases hgrown with
      | bal hx' =>
        obtain ⟨p, hp, hgrown⟩ := fixup_red_right hl hx'
        exact ⟨_, by rw [insertNode_gt hgt, hx, bind_some, hp, bind_some], hgrown⟩
  | @black c n key' obj' l r hl hr ihl ihr =>
    rcases lt_trichotomy key key' with hlt | rfl | hgt
    · obtain ⟨x, hx, hgrown⟩ := ihl
      obtain ⟨p, c', hp, hbal⟩ := fixup_black_left hgrown hr
      exact ⟨_, by rw [insertNode_lt hlt, hx, bind_some, hp, bind_some],
        Grown.bal hbal⟩
    · exact ⟨_, by rw [insertNode_eq, hl.fixup_self hr, bind_some],
        Grown.bal (Bal.black hl hr)⟩
    · obtain ⟨x, hx, hgrown⟩ := ihr
      cases hgrown with
      | bal hx' =>
        obtain ⟨p, c', hp, hbal, -⟩ := fixup_black_right hl hx'
        exact ⟨_, by rw [insertNode_gt hgt, hx, bind_some, hp, bind_some],
          Grown.bal hbal⟩

theorem insertNode_recolor (key : K) (obj : α) (c : Color) (pnode : Node K α) :
    (insertNode key obj (pnode.recolor c)).map (fun x => (x.1, x.2.recolor .black)) =
      (insertNode key obj pnode).map fun x => (x.1, x.2.recolor .black) := by
  have hbind (err : Err) (p : Node K α) :
      ((p.recolor c).fixup.bind fun q => some (err, q)).map
          (fun x => (x.1, x.2.recolor .black)) =
        (p.fixup.bind fun q => some (err, q)).map fun x => (x.1, x.2.recolor .black) :=
    bind_recolor (fixup_recolor c p) fun c q => by cases q <;> rfl
  cases pnode with
  | null => rfl
  | node c' key' obj' l r =>
    rcases lt_trichotomy key key' with hlt | rfl | hgt
    · rw [recolor, insertNode_lt hlt, insertNode_lt hlt]
      cases insertNode key obj l with
      | none => rfl
      | some x => exact hbind x.1 (node c' key' obj' x.2 r)
    · rw [recolor, insertNode_eq, insertNode_eq]
      exact hbind .duplicateEntry (node c' key obj' l r)
    · rw [recolor, insertNode_gt hgt, insertNode_gt hgt]
      cases insertNode key obj r with
      | none => rfl
      | some x => exact hbind x.1 (node c' key' obj' l x.2)

theorem insertNode_entries {x : Err × Node K α}
    (h : insertNode key obj pnode = some x) (hs : Sorted pnode.entries) :
    (value pnode.entries key = none → x.1 = .success ∧ x.2.entries = insert key obj pnode.entries) ∧
    (value pnode.entries key ≠ none → x.1 = .duplicateEntry) := by
  induction pnode generalizing x with
  | null =>
    cases h
    exact ⟨fun _ => ⟨rfl, rfl⟩, fun hne => absurd rfl hne⟩
  | node c key' obj' l r ihl ihr =>
    obtain ⟨hsl, hsr, -, -⟩ := sorted_node.mp hs
    rcases lt_trichotomy key key' with hlt | rfl | hgt
    · rw [insertNode_lt hlt] at h
      simp only [bind_eq_some_iff] at h
      obtain ⟨y, hy, p, hp, hx⟩ := h
      cases hx
      have hvalue : value (node c key' obj' l r).entries key = value l.entries key :=
        value_node_lt hs hlt
      obtain ⟨hnew, hdup⟩ := ihl hy hsl
      rw [hvalue]
      refine ⟨fun hnone => ⟨(hnew hnone).1, ?_⟩, hdup⟩
      change p.entries = insert key obj (l.entries ++ (key', obj') :: r.entries)
      rw [entries_fixup hp, insert_node_lt hs hlt, entries, (hnew hnone).2]
    · rw [insertNode_eq] at h
      simp only [bind_eq_some_iff] at h
      obtain ⟨p, hp, hx⟩ := h
      cases hx
      refine ⟨fun hnone => ?_, fun _ => rfl⟩
      rw [show value (node c key obj' l r).entries key = some obj' from
        value_node_eq hs] at hnone
      cases hnone
    · rw [insertNode_gt hgt] at h
      simp only [bind_eq_some_iff] at h
      obtain ⟨y, hy, p, hp, hx⟩ := h
      cases hx
      have hvalue : value (node c key' obj' l r).entries key = value r.entries key :=
        value_node_gt hs hgt
      obtain ⟨hnew, hdup⟩ := ihr hy hsr
      rw [hvalue]
      refine ⟨fun hnone => ⟨(hnew hnone).1, ?_⟩, hdup⟩
      change p.entries = insert key obj (l.entries ++ (key', obj') :: r.entries)
      rw [entries_fixup hp, insert_node_gt hs hgt, entries, (hnew hnone).2]

theorem insertNode_duplicate (hshape : pnode.Shaped)
    (hs : Sorted pnode.entries) (hmem : value pnode.entries key ≠ none) :
    insertNode key obj pnode = some (.duplicateEntry, pnode) := by
  induction pnode with
  | null => exact absurd rfl hmem
  | node c key' obj' l r ihl ihr =>
    obtain ⟨cl, n, hl, hr⟩ := shaped_node.mp hshape
    obtain ⟨hsl, hsr, -, -⟩ := sorted_node.mp hs
    rcases lt_trichotomy key key' with hlt | rfl | hgt
    · rw [show value (node c key' obj' l r).entries key = value l.entries key from
        value_node_lt hs hlt] at hmem
      rw [insertNode_lt hlt, ihl hl.shaped hsl hmem, bind_some, hl.fixup_self hr,
        bind_some]
    · rw [insertNode_eq, hl.fixup_self hr, bind_some]
    · rw [show value (node c key' obj' l r).entries key = value r.entries key from
        value_node_gt hs hgt] at hmem
      rw [insertNode_gt hgt, ihr hr.shaped hsr hmem, bind_some, hl.fixup_self hr,
        bind_some]

end Insert

section Root

variable [LinearOrder K] {pnodeRoot : Node K α}

open SortedAssoc

theorem valid_null : (null : Node K α).Valid := ⟨shaped_null, List.Pairwise.nil⟩

theorem Valid.errInsert_duplicate (h : pnodeRoot.Valid) (obj : α)
    (hmem : value pnodeRoot.entries key ≠ none) :
    pnodeRoot.errInsert key obj = some (.duplicateEntry, pnodeRoot) :=
  insertNode_duplicate h.shaped h.sorted hmem

theorem Valid.errInsert (h : pnodeRoot.Valid) (obj : α)
    (hnone : value pnodeRoot.entries key = none) :
    ∃ pnode, pnodeRoot.errInsert key obj = some (.success, pnode) ∧ pnode.Valid ∧
      pnode.entries = insert key obj pnodeRoot.entries := by
  obtain ⟨n, hbal⟩ := h.shaped
  obtain ⟨x, hx, hgrown⟩ := insertNode_grown key obj hbal
  have heq := insertNode_recolor key obj .black pnodeRoot
  rw [hx, Option.map_some] at heq
  obtain ⟨y, hy, hxy⟩ := Option.map_eq_some_iff.mp heq.symm
  have hshape : y.2.Shaped := by
    have hcolor : y.2.recolor .black = x.2.recolor .black := congrArg Prod.snd hxy
    rw [← shaped_recolor .black, hcolor, shaped_recolor]
    cases hgrown with
    | bal hbal' => exact hbal'.shaped
  obtain ⟨hsuccess, hentries⟩ := (insertNode_entries hy h.sorted).1 hnone
  refine ⟨y.2, ?_, ⟨hshape, ?_⟩, hentries⟩
  · rw [Node.errInsert, hy, ← hsuccess]
  · rw [hentries]
    exact sorted_insert h.sorted key obj

end Root

end Node
end EseLinux.RedBlackTree
