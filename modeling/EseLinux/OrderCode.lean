import Mathlib.Data.List.Basic
import Mathlib.Order.Compare

/-!
Words compared letter by letter where the comparison is decided inside both of them.  A code
whose words are related in this way keeps its order when words are appended, and turns it round
when an order-reversing map is applied to every letter.
-/

namespace EseLinux.OrderCode

open Std List

variable {α : Type*}

/-- After what they have in common, the words go on with the letters `x` and `y`. -/
def Fork (x y : α) (xs ys : List α) : Prop :=
  ∃ ws xs' ys', xs = ws ++ x :: xs' ∧ ys = ws ++ y :: ys'

section Fork

variable {x y : α} {xs ys : List α}

theorem prefix_or_fork [DecidableEq α] (xs ys : List α) :
    xs <+: ys ∨ ys <+: xs ∨ ∃ x y, x ≠ y ∧ Fork x y xs ys := by
  induction xs generalizing ys with
  | nil => exact Or.inl nil_prefix
  | cons x xs ih =>
    cases ys with
    | nil => exact Or.inr (Or.inl nil_prefix)
    | cons y ys =>
      by_cases hxy : x = y
      · subst hxy
        rcases ih ys with h | h | ⟨x', y', hne, ws, xs', ys', rfl, rfl⟩
        · exact Or.inl (cons_prefix_cons.mpr ⟨rfl, h⟩)
        · exact Or.inr (Or.inl (cons_prefix_cons.mpr ⟨rfl, h⟩))
        · exact Or.inr (Or.inr ⟨x', y', hne, x :: ws, xs', ys', rfl, rfl⟩)
      · exact Or.inr (Or.inr ⟨x, y, hxy, [], xs, ys, rfl, rfl⟩)

theorem Fork.symm (h : Fork x y xs ys) : Fork y x ys xs := by
  obtain ⟨ws, xs', ys', hx, hy⟩ := h
  exact ⟨ws, ys', xs', hy, hx⟩

theorem Fork.append (h : Fork x y xs ys) (us vs : List α) : Fork x y (xs ++ us) (ys ++ vs) := by
  obtain ⟨ws, xs', ys', rfl, rfl⟩ := h
  exact ⟨ws, xs' ++ us, ys' ++ vs, append_assoc _ _ _, append_assoc _ _ _⟩

theorem Fork.append_left (us : List α) (h : Fork x y xs ys) : Fork x y (us ++ xs) (us ++ ys) := by
  obtain ⟨ws, xs', ys', rfl, rfl⟩ := h
  exact ⟨us ++ ws, xs', ys', (append_assoc _ _ _).symm, (append_assoc _ _ _).symm⟩

theorem Fork.map {β : Type*} (f : α → β) (h : Fork x y xs ys) :
    Fork (f x) (f y) (xs.map f) (ys.map f) := by
  obtain ⟨ws, xs', ys', rfl, rfl⟩ := h
  exact ⟨ws.map f, xs'.map f, ys'.map f, map_append, map_append⟩

theorem Fork.take (h : Fork x y xs ys) {n : Nat} (hn : xs.length ≤ n) :
    Fork x y xs (ys.take n) := by
  obtain ⟨ws, xs', ys', rfl, rfl⟩ := h
  rw [length_append, length_cons] at hn
  refine ⟨ws, xs', ys'.take (n - ws.length - 1), rfl, ?_⟩
  rw [take_append, take_of_length_le (by omega : ws.length ≤ n),
    show n - ws.length = n - ws.length - 1 + 1 by omega, take_succ_cons]
  rfl

theorem Fork.take_or_drop (h : Fork x y xs ys) (n : Nat) :
    Fork x y (xs.take n) (ys.take n) ∨
      (xs.take n = ys.take n ∧ Fork x y (xs.drop n) (ys.drop n)) := by
  obtain ⟨ws, xs', ys', rfl, rfl⟩ := h
  rcases Nat.lt_or_ge ws.length n with hlt | hge
  · have htake : ∀ (z : α) (zs : List α),
        (ws ++ z :: zs).take n = ws ++ z :: zs.take (n - ws.length - 1) := by
      intro z zs
      rw [take_append, take_of_length_le (Nat.le_of_lt hlt)]
      obtain ⟨k, hk⟩ : ∃ k, n - ws.length = k + 1 := ⟨n - ws.length - 1, by omega⟩
      rw [hk, take_succ_cons, Nat.add_sub_cancel]
    exact Or.inl ⟨ws, _, _, htake x xs', htake y ys'⟩
  · refine Or.inr ⟨?_, ws.drop n, xs', ys', ?_, ?_⟩
    · rw [take_append_of_le_length hge, take_append_of_le_length hge]
    · exact drop_append_of_le_length hge
    · exact drop_append_of_le_length hge

end Fork

/-- The first `n` letters of a word, with `z` where it ends before. -/
def block (z : α) (n : Nat) (xs : List α) : List α :=
  xs.take n ++ replicate (n - xs.length) z

@[simp] theorem block_length (z : α) (n : Nat) (xs : List α) : (block z n xs).length = n := by
  rw [block, length_append, length_take, length_replicate]
  omega

theorem block_nil (z : α) (n : Nat) : block z n [] = replicate n z := by
  simp [block]

theorem block_cons (z x : α) (n : Nat) (xs : List α) :
    block z (n + 1) (x :: xs) = x :: block z n xs := by
  simp [block]

variable [Ord α]

/-- The words differ, and the first of them has the smaller letter where they first do. -/
inductive Before : List α → List α → Prop
  | head {x y : α} (h : compare x y = .lt) (xs ys : List α) : Before (x :: xs) (y :: ys)
  | tail (x : α) {xs ys : List α} (h : Before xs ys) : Before (x :: xs) (x :: ys)

/-- Two words in the order `o`, equal or apart at a letter of both. -/
def Ordered (o : Ordering) (xs ys : List α) : Prop :=
  match o with
  | .lt => Before xs ys
  | .eq => xs = ys
  | .gt => Before ys xs

variable {xs ys : List α}

theorem Before.append (h : Before xs ys) (xs' ys' : List α) :
    Before (xs ++ xs') (ys ++ ys') := by
  induction h with
  | head h xs ys => exact .head h _ _
  | tail x _ ih => exact .tail x ih

theorem Before.append_left (ws : List α) (h : Before xs ys) :
    Before (ws ++ xs) (ws ++ ys) := by
  induction ws with
  | nil => exact h
  | cons w ws ih => exact .tail w ih

theorem Before.map {β : Type*} [Ord β] {f : α → β}
    (hf : ∀ x y, compare (f x) (f y) = compare y x) (h : Before xs ys) :
    Before (ys.map f) (xs.map f) := by
  induction h with
  | head h xs ys => exact .head ((hf _ _).trans h) _ _
  | tail x _ ih => exact .tail (f x) ih

variable {o : Ordering}

theorem Ordered.append {o' : Ordering} {xs' ys' : List α} (h : Ordered o xs ys)
    (h' : o = .eq → Ordered o' xs' ys') : Ordered (o.then o') (xs ++ xs') (ys ++ ys') := by
  cases o with
  | lt => exact Before.append h _ _
  | gt => exact Before.append h _ _
  | eq =>
    obtain rfl : xs = ys := h
    cases o' with
    | lt => exact Before.append_left xs (h' rfl)
    | eq => exact congrArg (xs ++ ·) (h' rfl)
    | gt => exact Before.append_left xs (h' rfl)

theorem Ordered.map {β : Type*} [Ord β] {f : α → β} (hf : ∀ x y, compare (f x) (f y) = compare y x)
    (h : Ordered o xs ys) : Ordered o.swap (xs.map f) (ys.map f) := by
  cases o with
  | lt => exact Before.map hf h
  | eq => exact congrArg (map f) h
  | gt => exact Before.map hf h

section Lawful

variable [OrientedOrd α] [LawfulEqOrd α]

theorem ordered_singleton (x y : α) : Ordered (compare x y) [x] [y] := by
  rcases h : compare x y with _ | _ | _
  · exact .head h _ _
  · exact congrArg (fun z => [z]) (LawfulEqOrd.eq_of_compare h)
  · exact .head (OrientedCmp.gt_iff_lt.mp h) _ _

theorem ordered_of_length_eq (hlen : xs.length = ys.length) : Ordered (compare xs ys) xs ys := by
  induction xs generalizing ys with
  | nil =>
    obtain rfl := eq_nil_of_length_eq_zero hlen.symm
    rfl
  | cons x xs ih =>
    rcases ys with _ | ⟨y, ys⟩
    · cases hlen
    · rw [List.compare_cons_cons]
      exact (ordered_singleton x y).append fun _ => ih (Nat.succ.inj hlen)

omit [OrientedOrd α] in
theorem Before.compare_eq {xs ys : List α} (h : Before xs ys) : compare xs ys = .lt := by
  induction h with
  | head h xs ys =>
    rw [List.compare_cons_cons, h]
    rfl
  | tail x _ ih =>
    rw [List.compare_cons_cons, ReflOrd.compare_self, ih]
    rfl

theorem Ordered.compare_eq (h : Ordered o xs ys) : compare xs ys = o := by
  cases o with
  | lt => exact Before.compare_eq h
  | eq =>
    obtain rfl : xs = ys := h
    exact ReflOrd.compare_self
  | gt => exact OrientedCmp.gt_iff_lt.mpr (Before.compare_eq h)

end Lawful

theorem compare_take_ne_gt (h : compare xs ys ≠ .gt)
    (n : Nat) : compare (xs.take n) (ys.take n) ≠ .gt := by
  induction n generalizing xs ys with
  | zero => simp
  | succ n ih =>
    rcases xs with _ | ⟨x, xs⟩
    · rcases ys with _ | ⟨y, ys⟩ <;> simp
    · rcases ys with _ | ⟨y, ys⟩
      · simp at h
      · rw [List.compare_cons_cons] at h
        rw [List.take_succ_cons, List.take_succ_cons, List.compare_cons_cons]
        cases hhead : compare x y with
        | lt => simp
        | eq =>
          rw [hhead, Ordering.eq_then] at h
          simpa using ih h
        | gt => simp [hhead] at h

theorem compare_eq_take_then (xs ys : List α) :
    compare xs ys = (compare (xs.take (min xs.length ys.length))
      (ys.take (min xs.length ys.length))).then (compare xs.length ys.length) := by
  induction xs generalizing ys with
  | nil => rcases ys with _ | ⟨y, ys⟩ <;> simp [Nat.compare_eq_ite_lt]
  | cons x xs ih =>
    rcases ys with _ | ⟨y, ys⟩
    · simp [Nat.compare_eq_ite_lt]
    · have hlength : compare (x :: xs).length (y :: ys).length = compare xs.length ys.length := by
        simp [Nat.compare_eq_ite_lt]
      rw [hlength, length_cons, length_cons, Nat.add_min_add_right,
        List.take_succ_cons, List.take_succ_cons, List.compare_cons_cons, List.compare_cons_cons,
        Ordering.then_assoc, ih]

theorem compare_append (hlen : xs.length = ys.length) (xs' ys' : List α) :
    compare (xs ++ xs') (ys ++ ys') = (compare xs ys).then (compare xs' ys') := by
  induction xs generalizing ys with
  | nil =>
    obtain rfl : ys = [] := length_eq_zero_iff.mp hlen.symm
    rfl
  | cons x xs ih =>
    rcases ys with _ | ⟨y, ys⟩
    · simp at hlen
    · rw [List.cons_append, List.cons_append, List.compare_cons_cons, List.compare_cons_cons,
        ih (Nat.succ_inj.mp hlen), Ordering.then_assoc]

section Common

variable [LawfulEqOrd α]

theorem compare_append_self (ws xs ys : List α) :
    compare (ws ++ xs) (ws ++ ys) = compare xs ys := by
  rw [compare_append rfl, ReflOrd.compare_self, Ordering.eq_then]

theorem compare_ne_gt_of_begins (h : xs <+: ys) : compare xs ys ≠ .gt := by
  obtain ⟨t, rfl⟩ := h
  have happend := compare_append_self xs [] t
  rw [append_nil] at happend
  rw [happend]
  cases t <;> simp

theorem lt_of_ne_gt_of_ne {x y : α} (hle : compare x y ≠ .gt) (hne : x ≠ y) :
    compare x y = .lt := by
  cases hcmp : compare x y with
  | lt => rfl
  | eq => exact absurd (LawfulEqOrd.eq_of_compare hcmp) hne
  | gt => exact absurd hcmp hle

theorem compare_fork {x y : α} (hne : x ≠ y) (ws xs ys : List α) :
    compare (ws ++ x :: xs) (ws ++ y :: ys) = compare x y := by
  rw [compare_append_self, List.compare_cons_cons]
  cases hcmp : compare x y with
  | eq => exact absurd (LawfulEqOrd.eq_of_compare hcmp) hne
  | lt => rfl
  | gt => rfl

end Common

theorem Fork.before {x y : α} (h : Fork x y xs ys) (hlt : compare x y = .lt) : Before xs ys := by
  obtain ⟨ws, xs', ys', rfl, rfl⟩ := h
  exact Before.append_left ws (.head hlt xs' ys')

theorem before_replicate [LawfulEqOrd α] {z : α} (hz : ∀ x, compare x z ≠ .gt) {x : α}
    (hx : compare x z = .lt) (us : List α) :
    ∀ (ws : List α) {n : Nat}, ws.length < n → Before (ws ++ x :: us) (replicate n z)
  | [], n + 1, _ => .head hx us _
  | w :: ws, n + 1, hn => by
    cases hw : compare w z with
    | lt => exact .head hw _ _
    | gt => exact absurd hw (hz w)
    | eq =>
      obtain rfl := LawfulEqOrd.eq_of_compare hw
      exact .tail w (before_replicate hz hx us ws (Nat.lt_of_succ_lt_succ hn))

section Blocks

variable [LawfulEqOrd α] {z : α}

theorem compare_replicate_ne_gt (hz : ∀ x, compare z x ≠ .gt) {n : Nat}
    (hlen : ys.length = n) : compare (replicate n z) ys ≠ .gt := by
  induction ys generalizing n with
  | nil =>
    obtain rfl : n = 0 := hlen.symm
    simp
  | cons y ys ih =>
    obtain rfl : n = ys.length + 1 := hlen.symm
    rw [List.replicate_succ, List.compare_cons_cons]
    have hhead := hz y
    rcases h : compare z y with _ | _ | _
    · nofun
    · exact ih rfl
    · exact absurd h hhead

theorem then_lt_of_ne_gt (h : o ≠ .gt) : o.then .lt = .lt := by
  cases o with
  | lt => rfl
  | eq => rfl
  | gt => exact absurd rfl h

theorem compare_eq_block [OrientedOrd α] (hz : ∀ x, compare z x ≠ .gt) (n : Nat)
    (xs ys : List α) :
    compare xs ys = ((compare (block z n xs) (block z n ys)).then
      (compare (min xs.length (n + 1)) (min ys.length (n + 1)))).then
        (compare (xs.drop n) (ys.drop n)) := by
  induction n generalizing xs ys with
  | zero =>
    have hlt : compare (0 : Nat) 1 = .lt := rfl
    have hgt : compare (1 : Nat) 0 = .gt := rfl
    rcases xs with _ | ⟨x, xs⟩ <;> rcases ys with _ | ⟨y, ys⟩ <;> simp [block, hlt, hgt]
  | succ n ih =>
    rcases xs with _ | ⟨x, xs⟩
    · rcases ys with _ | ⟨y, ys⟩
      · simp
      · have hblock := compare_replicate_ne_gt hz (block_length z (n + 1) (y :: ys))
        have hlength : compare (min ([] : List α).length (n + 1 + 1))
            (min (y :: ys).length (n + 1 + 1)) = .lt := by
          rw [Nat.compare_eq_lt, length_nil, length_cons]
          omega
        rw [hlength, block_nil, then_lt_of_ne_gt hblock]
        rfl
    · rcases ys with _ | ⟨y, ys⟩
      · have hblock := compare_replicate_ne_gt hz (block_length z (n + 1) (x :: xs))
        have hlength : compare (min (x :: xs).length (n + 1 + 1))
            (min ([] : List α).length (n + 1 + 1)) = .gt := by
          rw [Nat.compare_eq_gt, length_nil, length_cons]
          omega
        rw [hlength, block_nil, OrientedOrd.eq_swap (a := block z (n + 1) (x :: xs))]
        rcases h : compare (replicate (n + 1) z) (block z (n + 1) (x :: xs)) with _ | _ | _
        · rfl
        · rfl
        · exact absurd h hblock
      · have hlength :
            compare (min (x :: xs).length (n + 1 + 1)) (min (y :: ys).length (n + 1 + 1)) =
            compare (min xs.length (n + 1)) (min ys.length (n + 1)) := by
          simp only [length_cons, Nat.add_min_add_right, Nat.compare_eq_ite_lt]
          simp
        rw [List.compare_cons_cons, ih xs ys, block_cons, block_cons, List.compare_cons_cons,
          hlength, drop_succ_cons, drop_succ_cons, Ordering.then_assoc,
          Ordering.then_assoc, Ordering.then_assoc]

end Blocks

end EseLinux.OrderCode
