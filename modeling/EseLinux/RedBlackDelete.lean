import EseLinux.RedBlackShape

/-!
Deletion from the red-black tree.

On the way down a red link is carried to the node that is entered next, and on the way up `fixup`
restores the shape. `Ready` is what a node satisfies when it is entered, `Leaning` what the one
rotation leaves that makes a right child red for a moment.
-/

namespace EseLinux.RedBlackTree

universe u v

variable {K : Type u} {α : Type v}

namespace Node

inductive Ready : Color → Nat → Node K α → Prop where
  | red {n : Nat} {key : K} {obj : α} {l r : Node K α} (hl : Bal .black n l)
      (hr : Bal .black n r) : Ready .red n (node .red key obj l r)
  | black {n : Nat} {key : K} {obj : α} {l r : Node K α} (hl : Bal .red n l)
      (hr : Bal .black n r) : Ready .black (n + 1) (node .black key obj l r)

/-- What comes back from a subtree of the colour `c`: the same height, and a red top only where
there was one. -/
def Returned (c : Color) (n : Nat) (pnode : Node K α) : Prop :=
  ∃ c', Bal c' n pnode ∧ (c = .black → c' = .black)

variable {n : Nat} {c : Color} {pnode : Node K α}

theorem Returned.of_black (h : Returned .black n pnode) : Bal .black n pnode := by
  obtain ⟨c', hbal, hc⟩ := h
  rw [hc rfl] at hbal
  exact hbal

theorem returned_red (h : Bal c n pnode) : Returned .red n pnode := by
  refine ⟨c, h, ?_⟩
  intro hc
  cases hc

/-- The node, with its left child taken from what comes back, is repaired. -/
def ClosesLeft (c₁ : Color) (r₁ : Node K α) (cl : Color) (m : Nat) (c : Color) (n : Nat) : Prop :=
  ∀ (key : K) (obj : α) (l : Node K α), Returned cl m l →
    ∃ pnode, (node c₁ key obj l r₁).fixup = some pnode ∧ Returned c n pnode

def ClosesRight (c₁ : Color) (l₁ : Node K α) (cr : Color) (m : Nat) (c : Color) (n : Nat) : Prop :=
  ∀ (key : K) (obj : α) (r : Node K α), Returned cr m r →
    ∃ pnode, (node c₁ key obj l₁ r).fixup = some pnode ∧ Returned c n pnode

variable {r : Node K α}

theorem closesLeft_red (hr : Bal .black n r) : ClosesLeft .red r .black n .red n := by
  intro key obj l hl
  exact ⟨_, hl.of_black.fixup_self hr, returned_red (Bal.red hl.of_black hr)⟩

theorem closesLeft_black (hr : Bal .black n r) : ClosesLeft .black r c n .black (n + 1) := by
  rintro key obj l ⟨c', hl, -⟩
  exact ⟨_, hl.fixup_self hr, _, Bal.black hl hr, fun _ => rfl⟩

theorem closesLeft_both (hr : Bal .red n r) : ClosesLeft .black r c n .red (n + 1) := by
  rintro key obj l ⟨c', hl, -⟩
  obtain ⟨p, d, hp, hbal, -⟩ := fixup_black_right hl hr
  exact ⟨p, hp, returned_red hbal⟩

variable {l : Node K α}

theorem closesRight_red (hl : Bal .black n l) : ClosesRight .red l .black n .red n := by
  intro key obj r hr
  exact ⟨_, hl.fixup_self hr.of_black, returned_red (Bal.red hl hr.of_black)⟩

theorem closesRight_black (hl : Bal .black n l) : ClosesRight .black l c n .black (n + 1) := by
  rintro key obj r ⟨c', hr, -⟩
  obtain ⟨p, d, hp, hbal, hd⟩ := fixup_black_right hl hr
  exact ⟨p, hp, d, hbal, fun _ => hd rfl⟩

theorem closesRight_both (hl : Bal .red n l) : ClosesRight .black l c n .red (n + 1) := by
  rintro key obj r ⟨c', hr, -⟩
  obtain ⟨p, d, hp, hbal, -⟩ := fixup_black_right hl hr
  exact ⟨p, hp, returned_red hbal⟩

section Moves

variable {key kl kr : K} {obj ol or' : α} {l r ll lr rl rr : Node K α}

theorem descendLeft_flip (hll : ll.fIsNonNullAndRed = false) (hrl : rl.fIsNonNullAndRed = false) :
    (node .red key obj (node .black kl ol ll lr) (node .black kr or' rl rr)).descendLeft =
      some (node .black key obj (node .red kl ol ll lr) (node .red kr or' rl rr)) := by
  simp [descendLeft, pnodeLeft, pnodeRight, fNoRedLink, moveRedLeft, flipColors, flipColor,
    Color.flip, hll, hrl]

theorem descendLeft_rotate {kx : K} {ox : α} {xl xr : Node K α}
    (hll : ll.fIsNonNullAndRed = false) :
    (node .red key obj (node .black kl ol ll lr)
        (node .black kr or' (node .red kx ox xl xr) rr)).descendLeft =
      some (node .red kx ox (node .black key obj (node .red kl ol ll lr) xl)
        (node .black kr or' xr rr)) := by
  simp [descendLeft, pnodeLeft, pnodeRight, fNoRedLink, moveRedLeft, flipColors, flipColor,
    rotateLeft, rotateRight, setRight, Color.flip, hll]

theorem descendRight_flip (hll : ll.fIsNonNullAndRed = false) (hrl : rl.fIsNonNullAndRed = false) :
    (node .red key obj (node .black kl ol ll lr) (node .black kr or' rl rr)).descendRight =
      some (node .black key obj (node .red kl ol ll lr) (node .red kr or' rl rr)) := by
  simp [descendRight, pnodeLeft, pnodeRight, fNoRedLink, moveRedRight, flipColors, flipColor,
    Color.flip, hll, hrl]

theorem descendRight_rotate {kx : K} {ox : α} {xl xr : Node K α}
    (hrl : rl.fIsNonNullAndRed = false) :
    (node .red key obj (node .black kl ol (node .red kx ox xl xr) lr)
        (node .black kr or' rl rr)).descendRight =
      some (node .red kl ol (node .black kx ox xl xr)
        (node .black key obj lr (node .red kr or' rl rr))) := by
  simp [descendRight, pnodeLeft, pnodeRight, fNoRedLink, moveRedRight, flipColors, flipColor,
    rotateRight, Color.flip, hrl]

theorem descendRight_red : (node c key obj l (node .red kr or' rl rr)).descendRight =
      some (node c key obj l (node .red kr or' rl rr)) :=
  rfl

theorem descendRight_self (hrl : rl.fIsNonNullAndRed = true) :
    (node c key obj l (node .black kr or' rl rr)).descendRight =
      some (node c key obj l (node .black kr or' rl rr)) := by
  simp [descendRight, pnodeRight, pnodeLeft, fNoRedLink, hrl]

theorem leanRight_self (hl : l.fIsNonNullAndRed = false) :
    (node c key obj l r).leanRight = some (node c key obj l r) := by
  simp [leanRight, pnodeLeft, hl]

end Moves

theorem Ready.descendLeft {key : K} {obj : α} (h : Ready c n (node c key obj l r)) (hl : l ≠ null) :
    ∃ c₁ key₁ obj₁ l₁ r₁ cl m,
      (node c key obj l r).descendLeft = some (node c₁ key₁ obj₁ l₁ r₁) ∧ Ready cl m l₁ ∧
      ClosesLeft c₁ r₁ cl m c n ∧ ∀ e ∈ l.entries, e ∈ l₁.entries := by
  cases h with
  | black hl hr =>
    cases hl with
    | red hll hlr =>
      exact ⟨_, _, _, _, _, _, _, rfl, Ready.red hll hlr, closesLeft_black hr, fun e he => he⟩
  | red hbl hbr =>
    cases hbl with
    | null => exact absurd rfl hl
    | @black cll m kl ol ll lr hll hlr =>
      cases hbr with
      | @black crl _ kr or' rl rr hrl hrr =>
        cases cll with
        | red =>
          cases hll with
          | red hlll hllr =>
            exact ⟨_, _, _, _, _, _, _, rfl, Ready.black (Bal.red hlll hllr) hlr,
              closesLeft_red (Bal.black hrl hrr), fun e he => he⟩
        | black =>
          cases crl with
          | black =>
            exact ⟨_, _, _, _, _, _, _, descendLeft_flip hll.fIsNonNullAndRed hrl.fIsNonNullAndRed,
              Ready.red hll hlr, closesLeft_both (Bal.red hrl hrr), fun e he => he⟩
          | red =>
            cases hrl with
            | red hxl hxr =>
              refine ⟨_, _, _, _, _, _, _, descendLeft_rotate hll.fIsNonNullAndRed,
                Ready.black (Bal.red hll hlr) hxl,
                closesLeft_red (Bal.black hxr hrr), ?_⟩
              intro e he
              exact List.mem_append_left _ he

section RemoveMin

theorem pnodeMin_eq_head (pnode : Node K α) : pnode.pnodeMin = pnode.entries.head? := by
  induction pnode with
  | null => rfl
  | node c key obj l r ihl ihr =>
    cases l with
    | null => rfl
    | node cl kl ol ll lr =>
      rw [pnodeMin, ihl, entries, List.head?_append]
      · simp [entries]
      · intro h
        cases h

theorem Ready.entries_ne_nil (h : Ready c n pnode) : pnode.entries ≠ [] := by
  cases h <;> simp [entries]

theorem Ready.removeMinNode (h : Ready c n pnode) :
    ∃ pnode', pnode.removeMinNode = some pnode' ∧ pnode'.entries = pnode.entries.tail ∧
      Returned c n pnode' := by
  induction hlen : pnode.entries.length using Nat.strong_induction_on generalizing c n pnode with
  | _ len ih =>
    cases pnode with
    | null => cases h
    | node c' key obj l r =>
      obtain rfl : c' = c := by cases h <;> rfl
      by_cases hl : l = null
      · subst hl
        cases h with
        | black hl _ => cases hl
        | red hl hr =>
          cases hl with
          | null =>
            cases hr with
            | null => exact ⟨null, by rw [Node.removeMinNode], rfl, returned_red Bal.null⟩
      · obtain ⟨c₁, key₁, obj₁, l₁, r₁, cl, m, hdesc, hready, hclose, -⟩ := h.descendLeft hl
        have hentries := entries_descendLeft hdesc
        have hlt : l₁.entries.length < len := by
          rw [← hlen, ← hentries]
          simp only [entries, List.length_append, List.length_cons]
          omega
        obtain ⟨l', hl', htail, hret⟩ := ih _ hlt hready rfl
        obtain ⟨p, hp, hpret⟩ := hclose key₁ obj₁ l' hret
        refine ⟨p, ?_, ?_, hpret⟩
        · rw [removeMinNode_descend hl hdesc, hl', Option.bind_some, hp]
        · rw [entries_fixup hp, ← hentries, entries, entries, htail,
            List.tail_append_of_ne_nil hready.entries_ne_nil]

end RemoveMin

section Delete

variable [LinearOrder K] {key : K}

open SortedAssoc Option

/-- A node that has been given a red right child; only keys from its own on are looked for here. -/
inductive Leaning (key : K) : Nat → Node K α → Prop where
  | mk {n : Nat} {key' : K} {obj : α} {l r : Node K α} (hl : Bal .black n l)
      (hr : Bal .red n r) (hkey : key' ≤ key) : Leaning key (n + 1) (node .black key' obj l r)

/-- The key is deleted from the subtree, and the rest comes back repaired. -/
def Deletes (key : K) (c : Color) (n : Nat) (pnode : Node K α) : Prop :=
  ∃ pnode' obj, pnode.deleteNode key = some (pnode', (key, obj)) ∧
    value pnode.entries key = some obj ∧ pnode'.entries = erase key pnode.entries ∧
    Returned c n pnode'

structure Part (key : K) (pnode part : Node K α) : Prop where
  shorter : part.entries.length < pnode.entries.length
  sorted : Sorted part.entries
  found : value part.entries key ≠ none

variable {obj' : α} {key' : K}

theorem deletes_lt {c₁ cl : Color} {m : Nat} {key₁ : K} {obj₁ : α}
    {l₁ r₁ : Node K α} (hs : Sorted (node c key' obj' l r).entries)
    (hfound : value (node c key' obj' l r).entries key ≠ none) (hlt : key < key')
    (hdesc : (node c key' obj' l r).descendLeft = some (node c₁ key₁ obj₁ l₁ r₁))
    (hsub : ∀ e ∈ l.entries, e ∈ l₁.entries)
    (hdel : Part key (node c key' obj' l r) l₁ → Deletes key cl m l₁)
    (hclose : ClosesLeft c₁ r₁ cl m c n) : Deletes key c n (node c key' obj' l r) := by
  have hentries := entries_descendLeft hdesc
  obtain ⟨obj, hobj⟩ := ne_none_iff_exists'.mp hfound
  have hmem : (key, obj) ∈ l₁.entries := by
    rw [show value (node c key' obj' l r).entries key = value l.entries key from
      value_node_lt hs hlt] at hobj
    exact hsub _ (mem_of_value hobj)
  have hs₁ := hs
  rw [← hentries] at hs₁
  obtain ⟨hsl, -, hll, -⟩ := sorted_node.mp hs₁
  have hlt₁ : key < key₁ := hll _ hmem
  have hpart : Part key (node c key' obj' l r) l₁ := by
    refine ⟨?_, hsl, value_ne_none_of_mem hmem⟩
    rw [← hentries]
    simp only [entries, List.length_append, List.length_cons]
    omega
  obtain ⟨l', obj, hl', hvalue, herase, hret⟩ := hdel hpart
  obtain ⟨p, hp, hpret⟩ := hclose key₁ obj₁ l' hret
  refine ⟨p, obj, ?_, ?_, ?_, hpret⟩
  · rw [deleteNode_lt hlt, hdesc, bind_some, deleteLeft, hl', bind_some, hp,
      bind_some]
  · rw [← hentries, ← hvalue]
    exact value_node_lt hs₁ hlt₁
  · rw [entries_fixup hp, ← hentries, entries, herase]
    exact (erase_node_lt hs₁ hlt₁).symm

theorem deletes_ge {c₁ c₂ cr : Color} {m : Nat} {key₁ key₂ : K} {obj₁ obj₂ : α}
    {l₁ r₁ l₂ r₂ : Node K α} (hs : Sorted (node c key' obj' l r).entries)
    (hfound : value (node c key' obj' l r).entries key ≠ none) (hge : ¬ key < key')
    (hlean : (node c key' obj' l r).leanRight = some (node c₁ key₁ obj₁ l₁ r₁)) (hr : r₁ ≠ null)
    (hdesc : (node c₁ key₁ obj₁ l₁ r₁).descendRight = some (node c₂ key₂ obj₂ l₂ r₂))
    (hle : key₂ ≤ key) (hmin : key₂ = key → Ready cr m r₂)
    (hdel : Part key (node c key' obj' l r) r₂ → Deletes key cr m r₂)
    (hclose : ClosesRight c₂ l₂ cr m c n) : Deletes key c n (node c key' obj' l r) := by
  have hentries : (node c₂ key₂ obj₂ l₂ r₂).entries = (node c key' obj' l r).entries := by
    rw [entries_descendRight hdesc, entries_leanRight hlean]
  have hstart : (node c key' obj' l r).deleteNode key =
      deleteRight key (node c₂ key₂ obj₂ l₂ r₂) := by
    have hne : ¬ (key = key₁ ∧ r₁.fEmpty = true) := by
      rintro ⟨-, hnull⟩
      cases r₁ with
      | null => exact hr rfl
      | node => cases hnull
    rw [deleteNode_ge hge, hlean, bind_some, deleteLeaned, if_neg hne, hdesc,
      bind_some]
  rw [← hentries] at hs hfound
  rcases hle.eq_or_lt with rfl | hlt
  · obtain ⟨r', hr', htail, hret⟩ := (hmin rfl).removeMinNode
    obtain ⟨min, rest, hcons⟩ := List.exists_cons_of_ne_nil (hmin rfl).entries_ne_nil
    obtain ⟨p, hp, hpret⟩ := hclose min.1 min.2 r' hret
    refine ⟨p, obj₂, ?_, ?_, ?_, hpret⟩
    · rw [hstart, deleteRight, if_pos rfl, pnodeMin_eq_head, hcons, List.head?_cons,
        bind_some, hr', bind_some, hp, bind_some]
    · rw [← hentries]
      exact value_node_eq hs
    · rw [entries_fixup hp, ← hentries, entries, htail, hcons, List.tail_cons,
        show erase key₂ (node c₂ key₂ obj₂ l₂ r₂).entries = l₂.entries ++ r₂.entries from
          erase_node_eq hs, hcons]
  · have hvalue₂ : value (node c₂ key₂ obj₂ l₂ r₂).entries key = value r₂.entries key :=
      value_node_gt hs hlt
    have hpart : Part key (node c key' obj' l r) r₂ := by
      refine ⟨?_, (sorted_node.mp hs).2.1, hvalue₂ ▸ hfound⟩
      rw [← hentries]
      simp only [entries, List.length_append, List.length_cons]
      omega
    obtain ⟨r', obj, hr', hvalue, herase, hret⟩ := hdel hpart
    obtain ⟨p, hp, hpret⟩ := hclose key₂ obj₂ r' hret
    refine ⟨p, obj, ?_, ?_, ?_, hpret⟩
    · rw [hstart, deleteRight, if_neg hlt.ne', hr', bind_some, hp, bind_some]
    · rw [← hentries, hvalue₂, hvalue]
    · rw [entries_fixup hp, ← hentries, entries, herase]
      exact (erase_node_gt hs hlt).symm

theorem deletes_leaf
    (hfound : value (node .red key' obj' null null).entries key ≠ none) (hge : ¬ key < key') :
    Deletes key .red 0 (node .red key' obj' null null) := by
  have hkey : key' = key := by
    by_contra hne
    exact hfound (by simp [entries, value_cons, hne])
  subst hkey
  refine ⟨null, obj', ?_, ?_, ?_, returned_red Bal.null⟩
  · rw [deleteNode_ge hge]
    exact if_pos ⟨rfl, rfl⟩
  · simp [entries, value_cons]
  · simp [entries, erase]

theorem Ready.deletes_left
    (h : Ready c n (node c key' obj' l r)) (hs : Sorted (node c key' obj' l r).entries)
    (hfound : value (node c key' obj' l r).entries key ≠ none) (hlt : key < key')
    (hrec : ∀ {cl m part}, Ready cl m part → Part key (node c key' obj' l r) part →
      Deletes key cl m part) : Deletes key c n (node c key' obj' l r) := by
  have hne : l ≠ null := by
    rintro rfl
    exact hfound (value_node_lt hs hlt)
  obtain ⟨c₁, key₁, obj₁, l₁, r₁, cl, m, hdesc, hready, hclose, hsub⟩ := h.descendLeft hne
  exact deletes_lt hs hfound hlt hdesc hsub (hrec hready) hclose

theorem Ready.deletes_right
    (h : Ready c n (node c key' obj' l r)) (hs : Sorted (node c key' obj' l r).entries)
    (hfound : value (node c key' obj' l r).entries key ≠ none) (hge : key' ≤ key)
    (hrec : ∀ {cr m part}, (Ready cr m part ∨ cr = .black ∧ Leaning key m part) →
      Part key (node c key' obj' l r) part → Deletes key cr m part) :
    Deletes key c n (node c key' obj' l r) := by
  -- a left child that comes to the top has a smaller key, and is not the one to delete
  have hleft : ∀ {cl kl ol ll lr}, l = node cl kl ol ll lr → kl < key' := by
    rintro cl kl ol ll lr rfl
    exact (sorted_node.mp hs).2.2.1 (kl, ol) (by simp [entries])
  cases h with
  | black hl hr =>
    cases hl with
    | red hll hlr =>
      have hkl := hleft rfl
      exact deletes_ge hs hfound hge.not_gt rfl (by simp) descendRight_red
        (hkl.le.trans hge) (fun heq => absurd (heq ▸ hkl) hge.not_gt)
        (hrec (.inl (Ready.red hlr hr))) (closesRight_black hll)
  | red hl hr =>
    cases hr with
    | null =>
      cases hl with
      | null => exact deletes_leaf hfound hge.not_gt
    | @black crl m kr or' rl rr hrl hrr =>
      cases hl with
      | @black cll _ kl ol ll lr hll hlr =>
        cases crl with
        | red =>
          exact deletes_ge hs hfound hge.not_gt rfl (by simp)
            (descendRight_self hrl.fIsNonNullAndRed) hge
            (fun _ => Ready.black hrl hrr) (hrec (.inl (Ready.black hrl hrr)))
            (closesRight_red (Bal.black hll hlr))
        | black =>
          cases cll with
          | black =>
            exact deletes_ge hs hfound hge.not_gt rfl (by simp)
              (descendRight_flip hll.fIsNonNullAndRed hrl.fIsNonNullAndRed) hge
              (fun _ => Ready.red hrl hrr) (hrec (.inl (Ready.red hrl hrr)))
              (closesRight_both (Bal.red hll hlr))
          | red =>
            have hkl := hleft rfl
            cases hll with
            | red hxl hxr =>
              exact deletes_ge hs hfound hge.not_gt rfl (by simp)
                (descendRight_rotate hrl.fIsNonNullAndRed) (hkl.le.trans hge)
                (fun heq => absurd (heq ▸ hkl) hge.not_gt)
                (hrec (.inr ⟨rfl, Leaning.mk hlr (Bal.red hrl hrr) hge⟩))
                (closesRight_red (Bal.black hxl hxr))

theorem Leaning.deletes (h : Leaning key n pnode)
    (hs : Sorted pnode.entries) (hfound : value pnode.entries key ≠ none)
    (hrec : ∀ {cr m part}, Ready cr m part → Part key pnode part → Deletes key cr m part) :
    Deletes key .black n pnode := by
  cases h with
  | mk hl hr hkey =>
    cases hr with
    | red hrl hrr =>
      exact deletes_ge hs hfound hkey.not_gt (leanRight_self hl.fIsNonNullAndRed)
        (by simp) descendRight_red hkey (fun _ => Ready.red hrl hrr)
        (hrec (Ready.red hrl hrr)) (closesRight_black hl)

theorem deleteNode_deletes
    (h : Ready c n pnode ∨ c = .black ∧ Leaning key n pnode) (hs : Sorted pnode.entries)
    (hfound : value pnode.entries key ≠ none) : Deletes key c n pnode := by
  induction hlen : pnode.entries.length using Nat.strong_induction_on generalizing c n pnode with
  | _ len ih =>
    have hrec {cr : Color} {m : Nat} {part : Node K α}
        (hready : Ready cr m part ∨ cr = .black ∧ Leaning key m part)
        (hpart : Part key pnode part) : Deletes key cr m part :=
      ih _ (hlen ▸ hpart.shorter) hready hpart.sorted hpart.found rfl
    rcases h with h | ⟨rfl, h⟩
    · cases pnode with
      | null => cases h
      | node c' key' obj' l r =>
        obtain rfl : c' = c := by cases h <;> rfl
        rcases lt_or_ge key key' with hlt | hge
        · exact h.deletes_left hs hfound hlt fun hready => hrec (.inl hready)
        · exact h.deletes_right hs hfound hge hrec
    · exact h.deletes hs hfound fun hready => hrec (.inl hready)

end Delete

end Node
end EseLinux.RedBlackTree
