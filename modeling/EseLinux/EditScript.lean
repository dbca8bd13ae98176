import Mathlib.Data.List.Basic

/-!
Edit scripts over lists.  A script is read from the front: the part of the old list up to the
offset of an edit is copied, the replaced part is skipped, and the new data is written.
-/

namespace EseLinux.EditScript

open List

variable {α : Type*}

def part (xs : List α) (i n : Nat) : List α := (xs.drop i).take n

structure Edit (α : Type*) where
  ib : Nat
  cbOld : Nat
  data : List α

/-- A script that has been read so far: the place in the old list, and what is written. -/
structure Patch (α : Type*) where
  pos : Nat
  out : List α

def Patch.start : Patch α := ⟨0, []⟩

def Patch.step (old : List α) (st : Patch α) (e : Edit α) : Patch α :=
  ⟨e.ib + e.cbOld, st.out ++ part old st.pos (e.ib - st.pos) ++ e.data⟩

def Patch.finish (old : List α) (st : Patch α) : List α := st.out ++ old.drop st.pos

/-- The list from place `pos` on, with the ranges of a script replaced. -/
def substitute (old : List α) : Nat → List (Edit α) → List α
  | pos, [] => old.drop pos
  | pos, e :: edits =>
    part old pos (e.ib - pos) ++ (e.data ++ substitute old (e.ib + e.cbOld) edits)

/-- The ranges of a script lie inside a list of `n` elements, one behind the other. -/
def InOrder (n : Nat) : Nat → List (Edit α) → Prop
  | _, [] => True
  | pos, e :: edits => pos ≤ e.ib ∧ e.ib + e.cbOld ≤ n ∧ InOrder n (e.ib + e.cbOld) edits

theorem Patch.finish_foldl (old : List α) (edits : List (Edit α)) (st : Patch α) :
    (edits.foldl (Patch.step old) st).finish old = st.out ++ substitute old st.pos edits := by
  induction edits generalizing st with
  | nil => rfl
  | cons e edits ih =>
    rw [foldl_cons, ih, substitute]
    simp only [Patch.step, append_assoc]

theorem part_length {xs : List α} {i n : Nat} (h : i + n ≤ xs.length) :
    (part xs i n).length = n := by
  rw [part, length_take, length_drop]
  omega

theorem part_zero (xs : List α) (i : Nat) : part xs i 0 = [] := take_zero

theorem part_add (xs : List α) (i m n : Nat) :
    part xs i (m + n) = part xs i m ++ part xs (i + m) n := by
  rw [part, take_add, drop_drop]
  rfl

theorem take_append_part (xs : List α) (i n : Nat) : xs.take i ++ part xs i n = xs.take (i + n) :=
  take_add.symm

theorem part_append_left {xs ys : List α} {i n : Nat} (h : i + n ≤ xs.length) :
    part (xs ++ ys) i n = part xs i n := by
  rw [part, drop_append_of_le_length (by omega),
    take_append_of_le_length (by rw [length_drop]; omega)]
  rfl

/-- What is written, with the old elements up to `i`, is the new list up to `j`. -/
structure Synced (old new : List α) (st : Patch α) (i j : Nat) : Prop where
  pos_le : st.pos ≤ i
  old_le : i ≤ old.length
  new_le : j ≤ new.length
  out_eq : st.out ++ part old st.pos (i - st.pos) = new.take j

section Scripts

variable {old new : List α} {st : Patch α} {i j n : Nat}

theorem synced_start (old new : List α) : Synced old new .start 0 0 :=
  ⟨Nat.le_refl _, Nat.zero_le _, Nat.zero_le _, rfl⟩

section

variable (h : Synced old new st i j)
include h

theorem Synced.keep (hold : i + n ≤ old.length)
    (hnew : j + n ≤ new.length) (heq : part old i n = part new j n) :
    Synced old new st (i + n) (j + n) := by
  have hpos := h.pos_le
  refine ⟨by omega, hold, hnew, ?_⟩
  calc st.out ++ part old st.pos (i + n - st.pos)
      = st.out ++ part old st.pos (i - st.pos) ++ part old i n := by
        rw [show i + n - st.pos = i - st.pos + n by omega, part_add,
          show st.pos + (i - st.pos) = i by omega, append_assoc]
    _ = new.take (j + n) := by rw [h.out_eq, heq, take_append_part]

theorem Synced.edit {cbOld : Nat} (hold : i + cbOld ≤ old.length) (hnew : j + n ≤ new.length) :
    Synced old new (st.step old ⟨i, cbOld, part new j n⟩) (i + cbOld) (j + n) := by
  refine ⟨Nat.le_refl _, hold, hnew, ?_⟩
  simp only [Patch.step, Nat.sub_self, part_zero, append_nil]
  rw [h.out_eq, take_append_part]

theorem Synced.finish (hrest : old.drop i = new.drop j) : st.finish old = new := by
  have hpos := h.pos_le
  calc st.out ++ old.drop st.pos
      = st.out ++ part old st.pos (i - st.pos) ++ old.drop i := by
        rw [append_assoc]
        conv_rhs => rw [show i = st.pos + (i - st.pos) by omega]
        rw [Nat.add_sub_cancel_left, part, ← drop_drop, take_append_drop]
    _ = new := by rw [h.out_eq, hrest, take_append_drop]

theorem Synced.length_eq : st.out.length + (i - st.pos) = j := by
  have hlen := congrArg length h.out_eq
  have hpos := h.pos_le
  have hold := h.old_le
  have hnew := h.new_le
  rw [length_append, part_length (by omega), length_take] at hlen
  omega

end

end Scripts

end EseLinux.EditScript
