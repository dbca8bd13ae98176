import Mathlib.Data.List.Sort

/-!
Association lists in strictly ascending key order, read as finite maps.

Insertion and deletion are written with filters, so that both distribute over the concatenation
an in-order traversal produces.
-/

namespace EseLinux.SortedAssoc

open List

universe u v

variable {K : Type u} {α : Type v} [LinearOrder K]

def Sorted (es : List (K × α)) : Prop :=
  es.Pairwise fun x y => x.1 < y.1

/-- The finite map an association list stands for: its first entry with the key counts. -/
def value (es : List (K × α)) (key : K) : Option α :=
  (es.find? fun e => decide (e.1 = key)).map Prod.snd

def insert (key : K) (a : α) (es : List (K × α)) : List (K × α) :=
  es.filter (fun e => decide (e.1 < key)) ++ (key, a) :: es.filter (fun e => decide (key < e.1))

def erase (key : K) (es : List (K × α)) : List (K × α) :=
  es.filter fun e => decide (e.1 ≠ key)

variable {e : K × α}

theorem sorted_node {l r : List (K × α)} : Sorted (l ++ e :: r) ↔
      Sorted l ∧ Sorted r ∧ (∀ x ∈ l, x.1 < e.1) ∧ (∀ x ∈ r, e.1 < x.1) := by
  unfold Sorted
  rw [pairwise_append, pairwise_cons]
  constructor
  · rintro ⟨hl, ⟨her, hr⟩, hlr⟩
    exact ⟨hl, hr, fun x hx => hlr x hx e mem_cons_self, her⟩
  · rintro ⟨hl, hr, hle, her⟩
    refine ⟨hl, ⟨her, hr⟩, ?_⟩
    intro x hx y hy
    rcases mem_cons.mp hy with rfl | hy
    · exact hle x hx
    · exact (hle x hx).trans (her y hy)

variable {a : α}

section Value

variable {es : List (K × α)} {key : K}

@[simp] theorem value_nil : value ([] : List (K × α)) key = none := rfl

theorem value_cons (e : K × α) (es : List (K × α)) :
    value (e :: es) key = if e.1 = key then some e.2 else value es key := by
  unfold value
  by_cases h : e.1 = key
  · simp [h]
  · simp [h]

theorem value_append (l r : List (K × α)) :
    value (l ++ r) key = (value l key).or (value r key) := by
  unfold value
  rw [find?_append]
  cases find? (fun e => decide (e.1 = key)) l <;> rfl

theorem value_eq_none : value es key = none ↔ ∀ e ∈ es, e.1 ≠ key := by
  simp [value]

theorem value_eq_none_of_forall (h : ∀ e ∈ es, e.1 ≠ key) : value es key = none :=
  value_eq_none.mpr h

theorem mem_of_value (h : value es key = some a) : (key, a) ∈ es := by
  obtain ⟨e, he, rfl⟩ := Option.map_eq_some_iff.mp h
  have hkey : e.1 = key := by simpa using find?_some he
  subst hkey
  exact mem_of_find?_eq_some he

theorem value_ne_none_of_mem (h : e ∈ es) : value es e.1 ≠ none := by
  intro hnone
  exact value_eq_none.mp hnone e h rfl

theorem value_of_mem (hs : Sorted es) (h : (key, a) ∈ es) : value es key = some a := by
  obtain ⟨l, r, rfl⟩ := append_of_mem h
  obtain ⟨-, -, hl, -⟩ := sorted_node.mp hs
  rw [value_append, value_cons, if_pos rfl, value_eq_none_of_forall fun e he => (hl e he).ne]
  rfl

theorem value_eq_some (hs : Sorted es) : value es key = some a ↔ (key, a) ∈ es :=
  ⟨mem_of_value, value_of_mem hs⟩

end Value

section Node

variable {l r : List (K × α)} {e : K × α} {key : K}

section

variable (hs : Sorted (l ++ e :: r))
include hs

theorem value_node_lt (h : key < e.1) : value (l ++ e :: r) key = value l key := by
  obtain ⟨-, -, -, hr⟩ := sorted_node.mp hs
  rw [value_append, value_cons, if_neg h.ne',
    value_eq_none_of_forall fun x hx => (h.trans (hr x hx)).ne']
  cases value l key <;> rfl

theorem value_node_gt (h : e.1 < key) : value (l ++ e :: r) key = value r key := by
  obtain ⟨-, -, hl, -⟩ := sorted_node.mp hs
  rw [value_append, value_cons, if_neg h.ne,
    value_eq_none_of_forall fun x hx => ((hl x hx).trans h).ne]
  rfl

theorem value_node_eq : value (l ++ e :: r) e.1 = some e.2 := value_of_mem hs (by simp)

theorem insert_node_lt (h : key < e.1) (a : α) :
    insert key a (l ++ e :: r) = insert key a l ++ e :: r := by
  obtain ⟨-, -, -, hr⟩ := sorted_node.mp hs
  have hlow : r.filter (fun x => decide (x.1 < key)) = [] := by
    rw [filter_eq_nil_iff]
    intro x hx
    simpa using (h.trans (hr x hx)).le
  have hhigh : r.filter (fun x => decide (key < x.1)) = r := by
    rw [filter_eq_self]
    intro x hx
    simpa using h.trans (hr x hx)
  unfold insert
  simp only [filter_append, filter_cons, h, h.le.not_gt, hlow, hhigh, decide_true,
    decide_false, if_true, Bool.false_eq_true, if_false, append_nil, append_assoc,
    cons_append]

theorem insert_node_gt (h : e.1 < key) (a : α) :
    insert key a (l ++ e :: r) = l ++ e :: insert key a r := by
  obtain ⟨-, -, hl, -⟩ := sorted_node.mp hs
  have hlow : l.filter (fun x => decide (x.1 < key)) = l := by
    rw [filter_eq_self]
    intro x hx
    simpa using (hl x hx).trans h
  have hhigh : l.filter (fun x => decide (key < x.1)) = [] := by
    rw [filter_eq_nil_iff]
    intro x hx
    simpa using ((hl x hx).trans h).le
  unfold insert
  simp only [filter_append, filter_cons, h, h.le.not_gt, hlow, hhigh, decide_true,
    decide_false, if_true, Bool.false_eq_true, if_false, nil_append, append_assoc,
    cons_append]

end

theorem erase_eq_self {es : List (K × α)} (h : ∀ e ∈ es, e.1 ≠ key) : erase key es = es := by
  unfold erase
  rw [filter_eq_self]
  intro x hx
  simpa using h x hx

theorem erase_node_lt (hs : Sorted (l ++ e :: r)) (h : key < e.1) :
    erase key (l ++ e :: r) = erase key l ++ e :: r := by
  obtain ⟨-, -, -, hr⟩ := sorted_node.mp hs
  have hright : erase key (e :: r) = e :: r := by
    apply erase_eq_self
    intro x hx
    rcases mem_cons.mp hx with rfl | hx
    · exact h.ne'
    · exact (h.trans (hr x hx)).ne'
  unfold erase at *
  rw [filter_append, hright]

theorem erase_node_gt (hs : Sorted (l ++ e :: r)) (h : e.1 < key) :
    erase key (l ++ e :: r) = l ++ e :: erase key r := by
  obtain ⟨-, -, hl, -⟩ := sorted_node.mp hs
  have hleft : erase key l = l := erase_eq_self fun x hx => ((hl x hx).trans h).ne
  unfold erase at *
  rw [filter_append, hleft, filter_cons_of_pos (by simpa using h.ne)]

theorem erase_node_eq (hs : Sorted (l ++ e :: r)) : erase e.1 (l ++ e :: r) = l ++ r := by
  obtain ⟨-, -, hl, hr⟩ := sorted_node.mp hs
  have hleft : erase e.1 l = l := erase_eq_self fun x hx => (hl x hx).ne
  have hright : erase e.1 r = r := erase_eq_self fun x hx => (hr x hx).ne'
  unfold erase at *
  rw [filter_append, hleft, filter_cons_of_neg (by simp), hright]

end Node

section Update

variable {es : List (K × α)} {key : K}

theorem sorted_erase (hs : Sorted es) (key : K) : Sorted (erase key es) := Pairwise.filter _ hs

theorem sorted_insert (hs : Sorted es) (key : K) (a : α) : Sorted (insert key a es) := by
  apply sorted_node.mpr
  refine ⟨Pairwise.filter _ hs, Pairwise.filter _ hs, ?_, ?_⟩
  · intro x hx
    simpa using (mem_filter.mp hx).2
  · intro x hx
    simpa using (mem_filter.mp hx).2

theorem mem_insert : e ∈ insert key a es ↔ e = (key, a) ∨ e ∈ es ∧ e.1 ≠ key := by
  simp only [insert, mem_append, mem_cons, mem_filter, decide_eq_true_eq,
    ne_iff_lt_or_gt]
  tauto

theorem value_insert (hs : Sorted es) (a : α) :
    value (insert key a es) = Function.update (value es) key (some a) := by
  funext x
  apply Option.ext
  intro b
  rw [value_eq_some (sorted_insert hs key a), mem_insert]
  by_cases h : x = key
  · subst h
    simp [eq_comm]
  · simp [h, value_eq_some hs]

theorem value_erase (hs : Sorted es) :
    value (erase key es) = Function.update (value es) key none := by
  funext x
  apply Option.ext
  intro b
  rw [value_eq_some (sorted_erase hs key), erase, mem_filter]
  by_cases h : x = key
  · subst h
    simp
  · simp [h, value_eq_some hs]

end Update

end EseLinux.SortedAssoc
