import Mathlib.Data.List.Count
import Mathlib.Data.List.Pairwise
import Mathlib.Data.List.Perm.Basic
import Mathlib.Order.Compare

/-!
Sorted lists from which duplicates are dropped.  Of elements that count as duplicates of each other
the least is kept; elements that are not duplicates of themselves are kept as often as they occur.
What is kept of lists put together depends only on what is kept of each.
-/

namespace EseLinux.SortedThin

open Std List

variable {α : Type*} {cmp : α → α → Ordering} {dup : α → α → Bool}

def thinFrom (dup : α → α → Bool) : α → List α → List α
  | _, [] => []
  | last, x :: xs => if dup x last then thinFrom dup x xs else x :: thinFrom dup x xs

def thin (dup : α → α → Bool) : List α → List α
  | [] => []
  | x :: xs => x :: thinFrom dup x xs

def thinKept (dup : α → α → Bool) : α → List α → List α
  | _, [] => []
  | kept, x :: xs => if dup x kept then thinKept dup kept xs else x :: thinKept dup x xs

structure Classes (cmp : α → α → Ordering) (dup : α → α → Bool) : Prop where
  symm : ∀ {x y}, dup x y = true → dup y x = true
  trans : ∀ {x y z}, dup x y = true → dup y z = true → dup x z = true
  convex : ∀ {x y z}, (cmp x y).isLE = true → (cmp y z).isLE = true →
    dup z x = true → dup y x = true

def Ascending (cmp : α → α → Ordering) (l : List α) : Prop :=
  l.Pairwise fun x y => (cmp x y).isLE = true

def Least (cmp : α → α → Ordering) (dup : α → α → Bool) (l : List α) (x : α) : Prop :=
  x ∈ l ∧ ∀ y ∈ l, dup y x = true → (cmp x y).isLE = true

instance [DecidableEq α] (l : List α) (x : α) : Decidable (Least cmp dup l x) :=
  inferInstanceAs (Decidable (_ ∧ _))

def keptCount [DecidableEq α] (cmp : α → α → Ordering) (dup : α → α → Bool) (l : List α) (x : α) :
    Nat :=
  if dup x x then if Least cmp dup l x then 1 else 0 else l.count x

variable {x : α}

theorem Classes.self (h : Classes cmp dup) {y : α} (hxy : dup x y = true) : dup x x = true :=
  h.trans hxy (h.symm hxy)

theorem Classes.congr (h : Classes cmp dup) {y : α} (hxy : dup x y = true) (z : α) :
    dup z x = dup z y := by
  rw [Bool.eq_iff_iff]
  exact ⟨fun hz => h.trans hz hxy, fun hz => h.trans hz (h.symm hxy)⟩

theorem classes_of_value {β : Type*} {f : α → β} (hdup : ∀ x y, dup x y = true ↔ f x = f y)
    (hconvex : ∀ {x y z}, (cmp x y).isLE = true → (cmp y z).isLE = true → f z = f x → f y = f x) :
    Classes cmp dup where
  symm h := (hdup _ _).mpr ((hdup _ _).mp h).symm
  trans h h' := (hdup _ _).mpr (((hdup _ _).mp h).trans ((hdup _ _).mp h'))
  convex hxy hyz h := (hdup _ _).mpr (hconvex hxy hyz ((hdup _ _).mp h))

theorem thinKept_eq (h : Classes cmp dup) {kept last : α} (hlast : ∀ z, dup z last = dup z kept)
    (xs : List α) : thinKept dup kept xs = thinFrom dup last xs := by
  induction xs generalizing kept last with
  | nil => rfl
  | cons x xs ih =>
    rw [thinKept, thinFrom, hlast]
    split
    · rename_i hx
      exact ih fun z => h.congr hx z
    · exact congrArg (x :: ·) (ih fun _ => rfl)

theorem thinFrom_sublist (dup : α → α → Bool) (last : α) (xs : List α) :
    (thinFrom dup last xs).Sublist xs := by
  induction xs generalizing last with
  | nil => exact .slnil
  | cons x xs ih =>
    rw [thinFrom]
    split
    · exact (ih x).cons x
    · exact (ih x).cons_cons x

theorem thin_sublist (dup : α → α → Bool) (xs : List α) : (thin dup xs).Sublist xs := by
  cases xs with
  | nil => exact .slnil
  | cons x xs => exact (thinFrom_sublist dup x xs).cons_cons x

variable {l : List α}

theorem Ascending.thin (h : Ascending cmp l) (dup : α → α → Bool) :
    Ascending cmp (thin dup l) := h.sublist (thin_sublist dup l)

section Kept

variable [DecidableEq α]

theorem keptCount_of_self (h : dup x x = true) (l : List α) :
    keptCount cmp dup l x = if Least cmp dup l x then 1 else 0 := if_pos h

theorem keptCount_of_not_self (h : dup x x = false) (l : List α) :
    keptCount cmp dup l x = l.count x := if_neg (by rw [h]; exact Bool.false_ne_true)

theorem keptCount_nil (z : α) : keptCount cmp dup [] z = 0 := by
  simp [keptCount, Least]

theorem keptCount_congr {l' : List α} {z : α} (hcount : dup z z = false → l.count z = l'.count z)
    (hleast : dup z z = true → (Least cmp dup l z ↔ Least cmp dup l' z)) :
    keptCount cmp dup l z = keptCount cmp dup l' z := by
  rcases hself : dup z z with _ | _
  · rw [keptCount_of_not_self hself, keptCount_of_not_self hself, hcount hself]
  · rw [keptCount_of_self hself, keptCount_of_self hself]
    simp only [hleast hself]

omit [DecidableEq α] in
theorem least_cons_of_not_dup {x z : α} (l : List α) (hne : z ≠ x) (hdup : dup x z = false) :
    Least cmp dup (x :: l) z ↔ Least cmp dup l z := by
  constructor
  · rintro ⟨hmem, hleast⟩
    exact ⟨(mem_cons.mp hmem).resolve_left hne,
      fun y hy => hleast y (mem_cons_of_mem x hy)⟩
  · rintro ⟨hmem, hleast⟩
    refine ⟨mem_cons_of_mem x hmem, ?_⟩
    intro y hy hyz
    rcases mem_cons.mp hy with rfl | hy
    · rw [hdup] at hyz
      cases hyz
    · exact hleast y hy hyz

theorem keptCount_cons_of_not_dup (h : Classes cmp dup) {z : α} (l : List α) (hne : z ≠ x)
    (hdup : dup z x = false) : keptCount cmp dup (x :: l) z = keptCount cmp dup l z := by
  have hxz : dup x z = false := by
    rw [Bool.eq_false_iff] at hdup ⊢
    exact fun hx => hdup (h.symm hx)
  exact keptCount_congr (fun _ => count_cons_of_ne hne.symm)
    fun _ => least_cons_of_not_dup l hne hxz

end Kept

section Counting

variable [DecidableEq α] [TransCmp cmp] [LawfulEqCmp cmp]

theorem keptCount_cons_of_dup (h : Classes cmp dup) {z : α}
    (hl : Ascending cmp (x :: l)) (hne : z ≠ x) (hdup : dup z x = true) :
    keptCount cmp dup (x :: l) z = 0 := by
  rw [keptCount_of_self (h.self hdup), if_neg]
  rintro ⟨hmem, hleast⟩
  have hzl := (mem_cons.mp hmem).resolve_left hne
  have hxz := (pairwise_cons.mp hl).1 z hzl
  have hzx := hleast x mem_cons_self (h.symm hdup)
  exact hne (LawfulEqCmp.eq_of_compare (OrientedCmp.isLE_antisymm hzx hxz))

omit [TransCmp cmp] in
theorem keptCount_cons_self {x : α} {l : List α} (hl : Ascending cmp (x :: l)) :
    keptCount cmp dup (x :: l) x = 1 + if dup x x then 0 else keptCount cmp dup l x := by
  rcases hself : dup x x with _ | _
  · rw [keptCount_of_not_self hself, keptCount_of_not_self hself, count_cons_self]
    exact Nat.add_comm _ _
  · rw [keptCount_of_self hself, if_pos]
    · rfl
    · refine ⟨mem_cons_self, ?_⟩
      intro y hy _
      rcases mem_cons.mp hy with rfl | hy
      · exact ReflCmp.isLE_rfl
      · exact (pairwise_cons.mp hl).1 y hy

theorem count_cons_kept (h : Classes cmp dup) {kept : List α} (hl : Ascending cmp (x :: l)) {z : α}
    (hkept : kept.count z = if dup z x then 0 else keptCount cmp dup l z) :
    (x :: kept).count z = keptCount cmp dup (x :: l) z := by
  by_cases hzx : z = x
  · rw [hzx] at hkept ⊢
    rw [count_cons_self, hkept, keptCount_cons_self hl, Nat.add_comm]
  · rw [count_cons_of_ne (Ne.symm hzx), hkept]
    rcases hdup : dup z x with _ | _
    · exact (keptCount_cons_of_not_dup h l hzx hdup).symm
    · exact (keptCount_cons_of_dup h hl hzx hdup).symm

theorem count_thinFrom (h : Classes cmp dup) {last : α} {xs : List α}
    (hl : Ascending cmp (last :: xs)) (z : α) :
    (thinFrom dup last xs).count z = if dup z last then 0 else keptCount cmp dup xs z := by
  induction xs generalizing last with
  | nil => rw [thinFrom, count_nil, keptCount_nil, ite_self]
  | cons x xs ih =>
    obtain ⟨hlast, hxs⟩ := pairwise_cons.mp hl
    have hrest := ih hxs
    rw [thinFrom]
    split
    case isTrue hx =>
      rw [hrest, h.congr hx]
      split
      case isTrue => rfl
      case isFalse hz =>
        symm
        apply keptCount_cons_of_not_dup h xs
        · rintro rfl
          exact hz hx
        · rw [h.congr hx]
          exact eq_false_of_ne_true hz
    case isFalse hx =>
      rw [count_cons_kept h hxs hrest]
      split
      case isTrue hz =>
        -- a duplicate of the last element behind one that is none cannot be
        rw [keptCount_of_self (h.self hz), if_neg]
        rintro ⟨hmem, -⟩
        rcases mem_cons.mp hmem with rfl | hmem
        · exact hx hz
        · exact hx (h.convex (hlast x mem_cons_self)
            ((pairwise_cons.mp hxs).1 z hmem) hz)
      case isFalse => rfl

theorem count_thin (h : Classes cmp dup) (hl : Ascending cmp l) (z : α) :
    (thin dup l).count z = keptCount cmp dup l z := by
  cases l with
  | nil => rw [thin, count_nil, keptCount_nil]
  | cons x xs => exact count_cons_kept h hl (count_thinFrom h hl z)

end Counting

def KeepAlike [DecidableEq α] (cmp : α → α → Ordering) (dup : α → α → Bool) (l l' : List α) :
    Prop :=
  ∀ z, keptCount cmp dup l z = keptCount cmp dup l' z

theorem keepAlike_of_perm [DecidableEq α] {l' : List α} (h : l.Perm l') :
    KeepAlike cmp dup l l' := by
  intro z
  exact keptCount_congr (fun _ => h.count_eq z) fun _ => by simp only [Least, h.mem_iff]

section Alike

variable [TransCmp cmp]

variable (cmp) in
theorem exists_isLE (l : List α) (hl : l ≠ []) : ∃ x ∈ l, ∀ y ∈ l, (cmp x y).isLE = true := by
  induction l with
  | nil => exact absurd rfl hl
  | cons w l ih =>
    rcases eq_or_ne l [] with rfl | hne
    · exact ⟨w, mem_cons_self, by simp [ReflCmp.isLE_rfl]⟩
    obtain ⟨x, hx, hle⟩ := ih hne
    by_cases hxw : (cmp x w).isLE = true
    · exact ⟨x, mem_cons_of_mem w hx, forall_mem_cons.mpr ⟨hxw, hle⟩⟩
    · have hwx : (cmp w x).isLE = true := by
        rw [Ordering.isLE_iff_ne_gt, not_not] at hxw
        rw [OrientedCmp.gt_iff_lt.mp hxw]
        rfl
      exact ⟨w, mem_cons_self, forall_mem_cons.mpr
        ⟨ReflCmp.isLE_rfl, fun y hy => TransCmp.isLE_trans hwx (hle y hy)⟩⟩

theorem exists_least (h : Classes cmp dup) {y : α} (hy : y ∈ l) (hself : dup y y = true) :
    ∃ x, Least cmp dup l x ∧ dup x y = true ∧ (cmp x y).isLE = true := by
  obtain ⟨x, hx, hle⟩ := exists_isLE cmp (l.filter (dup · y))
    (ne_nil_of_mem (mem_filter.mpr ⟨hy, hself⟩))
  obtain ⟨hxl, hxy⟩ := mem_filter.mp hx
  exact ⟨x, ⟨hxl, fun u hu hux => hle u (mem_filter.mpr ⟨hu, h.trans hux hxy⟩)⟩, hxy,
    hle y (mem_filter.mpr ⟨hy, hself⟩)⟩

theorem least_append (h : Classes cmp dup) (l l' : List α) (z : α) :
    Least cmp dup (l ++ l') z ↔ (Least cmp dup l z ∨ Least cmp dup l' z) ∧
      ∀ y, Least cmp dup l y ∨ Least cmp dup l' y → dup y z = true → (cmp z y).isLE = true := by
  constructor
  · rintro ⟨hmem, hleast⟩
    refine ⟨?_, ?_⟩
    · rcases mem_append.mp hmem with hz | hz
      · exact .inl ⟨hz, fun y hy => hleast y (mem_append_left l' hy)⟩
      · exact .inr ⟨hz, fun y hy => hleast y (mem_append_right l hy)⟩
    · rintro y (hy | hy)
      · exact hleast y (mem_append_left l' hy.1)
      · exact hleast y (mem_append_right l hy.1)
  · rintro ⟨hmem, hleast⟩
    refine ⟨?_, ?_⟩
    · rcases hmem with hz | hz
      · exact mem_append_left l' hz.1
      · exact mem_append_right l hz.1
    · intro y hy hyz
      rcases mem_append.mp hy with hy | hy
      · obtain ⟨x, hx, hxy, hle⟩ := exists_least h hy (h.self hyz)
        exact TransCmp.isLE_trans (hleast x (.inl hx) (h.trans hxy hyz)) hle
      · obtain ⟨x, hx, hxy, hle⟩ := exists_least h hy (h.self hyz)
        exact TransCmp.isLE_trans (hleast x (.inr hx) (h.trans hxy hyz)) hle

variable [DecidableEq α]

omit [TransCmp cmp] in
theorem KeepAlike.least_iff {l l' : List α} (hl : KeepAlike cmp dup l l') {z : α}
    (hz : dup z z = true) : Least cmp dup l z ↔ Least cmp dup l' z := by
  have hcount := hl z
  rw [keptCount_of_self hz, keptCount_of_self hz] at hcount
  by_cases hleast : Least cmp dup l z <;> by_cases hleast' : Least cmp dup l' z <;>
    simp_all

theorem KeepAlike.append (h : Classes cmp dup) {l₁ l₂ l₁' l₂' : List α}
    (h₁ : KeepAlike cmp dup l₁ l₁') (h₂ : KeepAlike cmp dup l₂ l₂') :
    KeepAlike cmp dup (l₁ ++ l₂) (l₁' ++ l₂') := by
  intro z
  refine keptCount_congr (fun hself => ?_) fun hself => ?_
  · have hcount₁ := h₁ z
    have hcount₂ := h₂ z
    rw [keptCount_of_not_self hself, keptCount_of_not_self hself] at hcount₁ hcount₂
    rw [count_append, count_append, hcount₁, hcount₂]
  · rw [least_append h, least_append h, h₁.least_iff hself, h₂.least_iff hself]
    refine and_congr_right fun _ => forall_congr' fun y => ?_
    rw [imp.swap, @imp.swap (Least cmp dup l₁' y ∨ _)]
    exact imp_congr_right fun hyz => by
      rw [h₁.least_iff (h.self hyz), h₂.least_iff (h.self hyz)]

omit [TransCmp cmp] in
theorem keepAlike_of_count (h : Classes cmp dup) {l out : List α}
    (hout : ∀ z, out.count z = keptCount cmp dup l z) : KeepAlike cmp dup out l := by
  have hmem z (hz : dup z z = true) : (z ∈ out ↔ Least cmp dup l z) := by
    rw [← count_pos_iff, hout, keptCount_of_self hz]
    by_cases hleast : Least cmp dup l z <;> simp [hleast]
  intro z
  refine keptCount_congr (fun hself => ?_) fun hself => ?_
  · rw [hout, keptCount_of_not_self hself]
  · rw [Least, hmem z hself]
    refine ⟨And.left, fun hleast => ⟨hleast, ?_⟩⟩
    intro y hy hyz
    exact hleast.2 y ((hmem y (h.self hyz)).mp hy).1 hyz

end Alike

end EseLinux.SortedThin
