import Mathlib.Logic.Equiv.Basic
import Mathlib.Data.List.Range
import Mathlib.Data.List.Perm.Subperm
import Mathlib.Data.List.Nodup

/-!
Sorting in place.  An array is a function of the index; a step rearranges the entries of one
segment.  While some segments are still to be sorted, any two entries that are not in one of them
stand in order.
-/

namespace EseLinux.SegmentSort

open List

variable {α : Type*}

def Rearranged (m n : Nat) (a a' : Nat → α) : Prop :=
  ∃ σ : Equiv.Perm Nat, (∀ i, i < m ∨ n ≤ i → σ i = i) ∧ ∀ i, a' i = a (σ i)

variable {m n m' n' : Nat} {a a' a'' : Nat → α}

theorem Rearranged.refl (m n : Nat) (a : Nat → α) : Rearranged m n a a :=
  ⟨Equiv.refl Nat, fun _ _ => rfl, fun _ => rfl⟩

theorem Rearranged.trans (h : Rearranged m n a a') (h' : Rearranged m n a' a'') :
    Rearranged m n a a'' := by
  obtain ⟨σ, hσ, ha⟩ := h
  obtain ⟨τ, hτ, ha'⟩ := h'
  refine ⟨τ.trans σ, ?_, ?_⟩
  · intro i hi
    rw [Equiv.trans_apply, hτ i hi, hσ i hi]
  · intro i
    rw [ha', ha, Equiv.trans_apply]

theorem Rearranged.mono (h : Rearranged m n a a') (hm : m' ≤ m) (hn : n ≤ n') :
    Rearranged m' n' a a' := by
  obtain ⟨σ, hσ, ha⟩ := h
  exact ⟨σ, fun i hi => hσ i (by omega), ha⟩

variable {i : Nat}

theorem Rearranged.outside (h : Rearranged m n a a') (hi : i < m ∨ n ≤ i) : a' i = a i := by
  obtain ⟨σ, hσ, ha⟩ := h
  rw [ha, hσ i hi]

theorem Rearranged.forall (h : Rearranged m n a a') {p : α → Prop}
    (hp : ∀ i, m ≤ i → i < n → p (a i)) : ∀ i, m ≤ i → i < n → p (a' i) := by
  obtain ⟨σ, hσ, ha⟩ := h
  intro i hm hn
  rw [ha]
  by_cases hout : σ i < m ∨ n ≤ σ i
  · have hfix : σ i = i := σ.injective (hσ _ hout)
    omega
  · exact hp _ (by omega) (by omega)

def swap (a : Nat → α) (i j : Nat) : Nat → α := fun k => a (Equiv.swap i j k)

variable {j : Nat}

theorem rearranged_swap (a : Nat → α) (hi : m ≤ i ∧ i < n) (hj : m ≤ j ∧ j < n) :
    Rearranged m n a (swap a i j) := by
  refine ⟨Equiv.swap i j, ?_, fun _ => rfl⟩
  intro k hk
  exact Equiv.swap_apply_of_ne_of_ne (by omega) (by omega)

@[simp] theorem swap_left (a : Nat → α) (i j : Nat) : swap a i j i = a j := by
  rw [swap, Equiv.swap_apply_left]

@[simp] theorem swap_right (a : Nat → α) (i j : Nat) : swap a i j j = a i := by
  rw [swap, Equiv.swap_apply_right]

variable {k : Nat}

theorem swap_of_ne (a : Nat → α) (hi : k ≠ i) (hj : k ≠ j) : swap a i j k = a k := by
  rw [swap, Equiv.swap_apply_of_ne_of_ne hi hj]

theorem Rearranged.perm (h : Rearranged 0 n a a') :
    ((range n).map a').Perm ((range n).map a) := by
  obtain ⟨σ, hσ, ha⟩ := h
  have hmap : (range n).map a' = ((range n).map σ).map a := by
    rw [map_map]
    exact map_congr_left fun i _ => ha i
  rw [hmap]
  apply Perm.map
  rw [perm_ext_iff_of_nodup (nodup_range.map σ.injective) nodup_range]
  intro k
  rw [mem_map, mem_range]
  constructor
  · rintro ⟨i, hi, rfl⟩
    by_cases hout : n ≤ σ i
    · have hfix : σ i = i := σ.injective (hσ _ (.inr hout))
      rw [hfix]
      exact mem_range.mp hi
    · omega
  · intro hk
    refine ⟨σ.symm k, ?_, σ.apply_symm_apply k⟩
    rw [mem_range]
    by_contra hout
    have hfix := hσ (σ.symm k) (.inr (by omega))
    rw [σ.apply_symm_apply] at hfix
    omega

def SortedOn (le : α → α → Prop) (lo hi : Nat) (a : Nat → α) : Prop :=
  ∀ i j, lo ≤ i → i < j → j < hi → le (a i) (a j)

/-- Between `lo` and `hi` only the segments `parts` are still to be sorted. -/
structure Pending (le : α → α → Prop) (lo hi : Nat) (a : Nat → α) (parts : List (Nat × Nat)) :
    Prop where
  apart : ∀ i j, lo ≤ i → i < j → j < hi → le (a i) (a j) ∨ ∃ p ∈ parts, p.1 ≤ i ∧ j < p.2
  disjoint : parts.Pairwise fun p q => p.2 ≤ q.1 ∨ q.2 ≤ p.1
  inside : ∀ p ∈ parts, lo ≤ p.1 ∧ p.2 ≤ hi

variable {le : α → α → Prop} {lo hi : Nat} {parts : List (Nat × Nat)}

theorem pending_whole (le : α → α → Prop) (lo hi : Nat) (a : Nat → α) :
    Pending le lo hi a [(lo, hi)] where
  apart i j hi hij hj := .inr ⟨_, mem_singleton_self _, hi, hj⟩
  disjoint := pairwise_singleton _ _
  inside := by simp

theorem Pending.sortedOn (h : Pending le lo hi a []) : SortedOn le lo hi a := by
  intro i j hi hij hj
  rcases h.apart i j hi hij hj with hle | ⟨p, hp, -⟩
  · exact hle
  · cases hp

theorem Pending.exchange {p q : Nat × Nat} (h : Pending le lo hi a (p :: q :: parts)) :
    Pending le lo hi a (q :: p :: parts) := by
  have hperm := Perm.swap q p parts
  refine ⟨?_, ?_, fun r hr => h.inside r (hperm.mem_iff.mpr hr)⟩
  · intro i j hi hij hj
    rcases h.apart i j hi hij hj with hle | ⟨r, hr, hin⟩
    · exact .inl hle
    · exact .inr ⟨r, hperm.mem_iff.mp hr, hin⟩
  · exact hperm.pairwise h.disjoint fun hpq => hpq.symm

theorem sorts_of_step (h : Rearranged lo hi a a' ∧ Pending le lo hi a' parts)
    (hrest : Pending le lo hi a' parts → Rearranged lo hi a' a'' ∧ SortedOn le lo hi a'') :
    Rearranged lo hi a a'' ∧ SortedOn le lo hi a'' :=
  ⟨h.1.trans (hrest h.2).1, (hrest h.2).2⟩

section

variable (h : Pending le lo hi a ((m, n) :: parts))
include h

theorem Pending.rearranged (ha : Rearranged m n a a') (hlo : lo ≤ i) (hij : i < j) (hj : j < hi)
    (hout : ¬ (m ≤ i ∧ j < n)) :
    le (a' i) (a' j) ∨ ∃ p ∈ parts, p.1 ≤ i ∧ j < p.2 := by
  have hdisj := (pairwise_cons.mp h.disjoint).1
  have hold i j (hlo : lo ≤ i) (hij : i < j) (hj : j < hi) (hout : ¬ (m ≤ i ∧ j < n)) :
      le (a i) (a j) ∨ ∃ p ∈ parts, p.1 ≤ i ∧ j < p.2 := by
    rcases h.apart i j hlo hij hj with hle | ⟨p, hp, hin⟩
    · exact .inl hle
    · rcases mem_cons.mp hp with rfl | hp
      · exact absurd hin hout
      · exact .inr ⟨p, hp, hin⟩
  by_cases hiin : m ≤ i ∧ i < n
  · -- `j` is behind the segment, and so in order with all of its entries
    rw [ha.outside (i := j) (by omega)]
    left
    apply ha.forall (p := fun x => le x (a j)) ?_ i hiin.1 hiin.2
    intro k hmk hkn
    have hlom := (h.inside (m, n) mem_cons_self).1
    rcases hold k j (by omega) (by omega) hj (by omega) with hle | ⟨p, hp, hin⟩
    · exact hle
    · have := hdisj p hp
      omega
  · rw [ha.outside (i := i) (by omega)]
    by_cases hjin : m ≤ j ∧ j < n
    · left
      apply ha.forall (p := fun x => le (a i) x) ?_ j hjin.1 hjin.2
      intro k hmk hkn
      have hhi := (h.inside (m, n) mem_cons_self).2
      rcases hold i k hlo (by omega) (by omega) (by omega) with hle | ⟨p, hp, hin⟩
      · exact hle
      · have := hdisj p hp
        omega
    · rw [ha.outside (i := j) (by omega)]
      exact hold i j hlo hij hj hout

theorem Pending.solve (ha : Rearranged m n a a' ∧ SortedOn le m n a') :
    Rearranged lo hi a a' ∧ Pending le lo hi a' parts := by
  have hin := h.inside _ mem_cons_self
  refine ⟨ha.1.mono hin.1 hin.2, fun i j hi hij hj => ?_, (pairwise_cons.mp h.disjoint).2,
    fun p hp => h.inside p (mem_cons_of_mem _ hp)⟩
  by_cases hin : m ≤ i ∧ j < n
  · exact .inl (ha.2 i j hin.1 hij hin.2)
  · exact h.rearranged ha.1 hi hij hj hin

theorem Pending.divide (ha : Rearranged m n a a')
    {k' : Nat} (hmk : m ≤ k) (hk : k ≤ k') (hkn : k' ≤ n)
    (hdivided : ∀ i j, m ≤ i → i < j → j < n → le (a' i) (a' j) ∨ j < k ∨ k' ≤ i) :
    Pending le lo hi a' ((m, k) :: (k', n) :: parts) where
  apart i j hi hij hj := by
    by_cases hin : m ≤ i ∧ j < n
    · rcases hdivided i j hin.1 hij hin.2 with hle | hjk | hki
      · exact .inl hle
      · exact .inr ⟨(m, k), mem_cons_self, hin.1, hjk⟩
      · exact .inr ⟨(k', n), mem_cons_of_mem _ mem_cons_self, hki, hin.2⟩
    · rcases h.rearranged ha hi hij hj hin with hle | ⟨p, hp, hpin⟩
      · exact .inl hle
      · exact .inr ⟨p, mem_cons_of_mem _ (mem_cons_of_mem _ hp), hpin⟩
  disjoint := by
    obtain ⟨hdisj, hrest⟩ := pairwise_cons.mp h.disjoint
    refine .cons ?_ (.cons ?_ hrest)
    · intro p hp
      rcases mem_cons.mp hp with rfl | hp
      · exact .inl hk
      · have := hdisj p hp
        omega
    · intro p hp
      have := hdisj p hp
      omega
  inside p hp := by
    have hmn := h.inside (m, n) mem_cons_self
    rcases mem_cons.mp hp with rfl | hp
    · exact ⟨hmn.1, by omega⟩
    · rcases mem_cons.mp hp with rfl | hp
      · exact ⟨by omega, hmn.2⟩
      · exact h.inside p (mem_cons_of_mem _ hp)

theorem Pending.split [IsTrans α le] (ha : Rearranged m n a a') (hmk : m ≤ k) (hkn : k < n)
    {k₁ k₂ : Nat} (hk : k ≤ k₁ ∧ k₁ ≤ k₂ ∧ k₂ ≤ k + 1)
    (hbefore : ∀ i, m ≤ i → i < k → le (a' i) (a' k))
    (hbehind : ∀ i, k < i → i < n → le (a' k) (a' i)) :
    Pending le lo hi a' ((m, k₁) :: (k₂, n) :: parts) := by
  refine h.divide ha (by omega) hk.2.1 (by omega) fun i j hmi hij hjn => ?_
  by_cases hout : j < k₁ ∨ k₂ ≤ i
  · exact .inr hout
  · left
    obtain rfl | hik : i = k ∨ i < k := by omega
    · exact hbehind j hij hjn
    · obtain rfl | hkj : j = k ∨ k < j := by omega
      · exact hbefore i hmi hij
      · exact IsTrans.trans _ _ _ (hbefore i hmi hik) (hbehind j hkj hjn)

end

end EseLinux.SegmentSort
