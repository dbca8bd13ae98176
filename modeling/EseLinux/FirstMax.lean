import Mathlib.Data.List.Induction
import Mathlib.Order.Lattice

/-!
The first candidate of a list with the greatest score, where only positive scores count.  Candidates
are tried one by one, and one replaces another only if it is strictly better.
-/

namespace EseLinux.FirstMax

open List

variable {ι : Type*} (score : ι → Int)

def value : Option ι → Int
  | none => 0
  | some i => score i

def pick (best : Option ι) (i : ι) : Option ι := if value score best < score i then some i else best

def first (xs : List ι) : Option ι := xs.foldl (pick score) none

theorem value_pick (best : Option ι) (i : ι) :
    value score (pick score best i) = max (value score best) (score i) := by
  rw [pick]
  split
  case isTrue hlt => exact (max_eq_right (le_of_lt hlt)).symm
  case isFalse hge => exact (max_eq_left (not_lt.mp hge)).symm

variable {score}

theorem first_append_singleton (xs : List ι) (i : ι) :
    first score (xs ++ [i]) = pick score (first score xs) i := by
  rw [first, foldl_append]
  rfl

theorem value_first_nonneg (xs : List ι) : 0 ≤ value score (first score xs) := by
  induction xs using reverseRecOn with
  | nil => exact le_refl 0
  | append_singleton xs i ih =>
    rw [first_append_singleton, value_pick]
    exact le_trans ih (le_max_left _ _)

variable {xs : List ι} {i : ι}

theorem le_value_first (hi : i ∈ xs) : score i ≤ value score (first score xs) := by
  induction xs using reverseRecOn with
  | nil => cases hi
  | append_singleton xs j ih =>
    rw [first_append_singleton, value_pick]
    rcases mem_append.mp hi with hmem | hmem
    · exact le_trans (ih hmem) (le_max_left _ _)
    · rw [mem_singleton.mp hmem]
      exact le_max_right _ _

theorem pos_of_first_eq_some (h : first score xs = some i) : i ∈ xs ∧ 0 < score i := by
  induction xs using reverseRecOn with
  | nil => cases h
  | append_singleton xs j ih =>
    rw [first_append_singleton, pick] at h
    split at h
    case isTrue hlt =>
      obtain rfl := Option.some.inj h
      exact ⟨mem_append_right _ (mem_singleton_self _),
        lt_of_le_of_lt (value_first_nonneg xs) hlt⟩
    · exact ⟨mem_append_left _ (ih h).1, (ih h).2⟩

theorem first_eq_none_iff : first score xs = none ↔ ∀ i ∈ xs, score i ≤ 0 := by
  constructor
  · intro h i hi
    have hle : score i ≤ value score (first score xs) := le_value_first hi
    rwa [h] at hle
  · intro h
    cases hfirst : first score xs with
    | none => rfl
    | some i =>
      obtain ⟨hmem, hpos⟩ := pos_of_first_eq_some hfirst
      exact absurd hpos (not_lt.mpr (h i hmem))

theorem first_append_of_le {ys : List ι} (h : ∀ i ∈ ys, score i ≤ value score (first score xs)) :
    first score (xs ++ ys) = first score xs := by
  induction ys using reverseRecOn with
  | nil => rw [append_nil]
  | append_singleton ys i ih =>
    rw [← append_assoc, first_append_singleton,
      ih fun j hj => h j (mem_append_left _ hj), pick, if_neg]
    exact not_lt.mpr (h i (mem_append_right _ (mem_singleton_self _)))

theorem first_congr {score' : ι → Int} (h : ∀ i ∈ xs, score i = score' i) :
    first score xs = first score' xs := by
  induction xs using reverseRecOn with
  | nil => rfl
  | append_singleton xs i ih =>
    have hfirst := ih fun j hj => h j (mem_append_left _ hj)
    have hi := h i (mem_append_right _ (mem_singleton_self _))
    have hvalue : value score (first score' xs) = value score' (first score' xs) := by
      cases hcase : first score' xs with
      | none => rfl
      | some j => exact h j (mem_append_left _ (pos_of_first_eq_some hcase).1)
    rw [first_append_singleton, first_append_singleton, hfirst, pick, pick, hvalue, hi]

theorem first_cons_of_le (h : score i ≤ 0) : first score (i :: xs) = first score xs := by
  rw [first, foldl_cons, pick, value, if_neg (not_lt.mpr h)]
  rfl

theorem first_map {κ : Type*} (f : κ → ι) (ks : List κ) :
    first score (ks.map f) = (first (score ∘ f) ks).map f := by
  induction ks using reverseRecOn with
  | nil => rfl
  | append_singleton ks k ih =>
    have hvalue (b : Option κ) : value score (b.map f) = value (score ∘ f) b := by cases b <;> rfl
    rw [map_append, map_singleton, first_append_singleton, first_append_singleton, ih,
      pick, pick, hvalue, apply_ite (Option.map f)]
    rfl

section Sorted

variable [LinearOrder ι]

structure IsFirst (score : ι → Int) (xs : List ι) (i : ι) : Prop where
  mem : i ∈ xs
  pos : 0 < score i
  le : ∀ j ∈ xs, score j ≤ score i
  lt : ∀ j ∈ xs, j < i → score j < score i

theorem IsFirst.unique {j : ι} (hi : IsFirst score xs i) (hj : IsFirst score xs j) : i = j := by
  rcases lt_trichotomy i j with hlt | heq | hlt
  · exact absurd (hi.le j hj.mem) (not_le.mpr (hj.lt i hi.mem hlt))
  · exact heq
  · exact absurd (hj.le i hi.mem) (not_le.mpr (hi.lt j hj.mem hlt))

theorem isFirst_of_first_eq_some (hsorted : xs.Pairwise (· < ·))
    (h : first score xs = some i) : IsFirst score xs i := by
  refine ⟨(pos_of_first_eq_some h).1, (pos_of_first_eq_some h).2, fun j hj => ?_, ?_⟩
  · have hle : score j ≤ value score (first score xs) := le_value_first hj
    rwa [h] at hle
  · induction xs using reverseRecOn with
    | nil => cases h
    | append_singleton xs k ih =>
      obtain ⟨hxs, -, hbelow⟩ := pairwise_append.mp hsorted
      rw [first_append_singleton, pick] at h
      intro j hj hji
      split at h
      case isTrue hlt =>
        obtain rfl := Option.some.inj h
        rcases mem_append.mp hj with hmem | hmem
        · exact lt_of_le_of_lt (le_value_first hmem) hlt
        · exact absurd hji (by rw [mem_singleton.mp hmem]; exact lt_irrefl _)
      · rcases mem_append.mp hj with hmem | hmem
        · exact ih hxs h j hmem hji
        · have hik := hbelow i (pos_of_first_eq_some h).1 k (mem_singleton_self _)
          rw [mem_singleton.mp hmem] at hji
          exact absurd hji (not_lt.mpr (le_of_lt hik))

theorem first_eq_some_iff (hsorted : xs.Pairwise (· < ·)) :
    first score xs = some i ↔ IsFirst score xs i := by
  refine ⟨isFirst_of_first_eq_some hsorted, fun h => ?_⟩
  cases hfirst : first score xs with
  | none => exact absurd h.pos (not_lt.mpr (first_eq_none_iff.mp hfirst i h.mem))
  | some j => exact congrArg some ((isFirst_of_first_eq_some hsorted hfirst).unique h)

theorem first_of_le {κ : Type*} [LinearOrder κ] {score' : κ → Int} {f : κ → ι} {ks : List κ} {k : κ}
    (hf : StrictMono f) (hks : ks.Pairwise (· < ·)) (hmem : ∀ j ∈ ks, f j ∈ xs)
    (hle : ∀ j ∈ ks, score' j ≤ score (f j)) (h : IsFirst score xs (f k)) (hk : k ∈ ks)
    (heq : score' k = score (f k)) : first score' ks = some k := by
  rw [first_eq_some_iff hks]
  refine ⟨hk, heq ▸ h.pos, fun j hj => ?_, fun j hj hjk => ?_⟩
  · rw [heq]
    exact le_trans (hle j hj) (h.le _ (hmem j hj))
  · rw [heq]
    exact lt_of_le_of_lt (hle j hj) (h.lt _ (hmem j hj) (hf hjk))

theorem map_first_eq {β : Type*} {label : ι → β} {ys : List ι} (hxs : xs.Pairwise (· < ·))
    (hys : ys.Pairwise (· < ·)) (hsub : ∀ i ∈ xs, i ∈ ys)
    (hdom : ∀ j ∈ ys, 0 < score j → ∃ i ∈ xs, score j ≤ score i ∧ label i = label j)
    (hlabel : ∀ i j k, i ≤ j → j ≤ k → k ∈ ys → label i = label k → label j = label i) :
    (first score xs).map (fun i => (score i, label i)) =
      (first score ys).map (fun i => (score i, label i)) := by
  cases hfirst : first score ys with
  | none =>
    have hnone : first score xs = none :=
      first_eq_none_iff.mpr fun i hi => first_eq_none_iff.mp hfirst i (hsub i hi)
    rw [hnone]
  | some j =>
    have hj := isFirst_of_first_eq_some hys hfirst
    obtain ⟨k, hk, hjk, hkj⟩ := hdom j hj.mem hj.pos
    cases hfirst' : first score xs with
    | none =>
      have hle := first_eq_none_iff.mp hfirst' k hk
      exact absurd (lt_of_lt_of_le hj.pos hjk) (not_lt.mpr hle)
    | some i =>
      have hi := isFirst_of_first_eq_some hxs hfirst'
      have hscore : score i = score j :=
        le_antisymm (hj.le i (hsub i hi.mem)) (le_trans hjk (hi.le k hk))
      -- the first one of all comes before the first one that is tried
      have hji : j ≤ i := not_lt.mp fun hlt =>
        absurd (hj.lt i (hsub i hi.mem) hlt) (by rw [hscore]; exact lt_irrefl _)
      have hik : i ≤ k := not_lt.mp fun hlt =>
        absurd (hi.lt k hk hlt) (not_lt.mpr (by rw [hscore]; exact hjk))
      rw [Option.map_some, Option.map_some, hscore, hlabel j i k hji hik (hsub k hk) hkj.symm]

end Sorted

end EseLinux.FirstMax
