import Mathlib.Algebra.Order.BigOperators.Group.List
import Mathlib.Algebra.Order.Ring.Nat
import Mathlib.Order.Interval.Finset.Nat

/-!
A slotted area: a directory of slots, each naming a byte range, with all ranges kept below a
high-water mark and a counter of free bytes.  The directory takes `cost` bytes a slot out of
the same `size` bytes.
-/

namespace EseLinux.SlotLayout

open List

/-- One directory entry: `cb` bytes at offset `ib`. -/
structure Slot where
  ib : Nat
  cb : Nat
deriving DecidableEq, Repr

/-- The range of a slot ends at or below `top`; an empty slot has no range. -/
def Slot.Below (top : Nat) (s : Slot) : Prop :=
  s.cb ≠ 0 → s.ib + s.cb ≤ top

def Slot.Apart (s t : Slot) : Prop :=
  s.cb ≠ 0 → t.cb ≠ 0 → s.ib + s.cb ≤ t.ib ∨ t.ib + t.cb ≤ s.ib

instance (top : Nat) (s : Slot) : Decidable (s.Below top) :=
  inferInstanceAs (Decidable (s.cb ≠ 0 → s.ib + s.cb ≤ top))

instance (s t : Slot) : Decidable (s.Apart t) :=
  inferInstanceAs
    (Decidable (s.cb ≠ 0 → t.cb ≠ 0 → s.ib + s.cb ≤ t.ib ∨ t.ib + t.cb ≤ s.ib))

variable {s : Slot}

theorem Slot.Apart.symm {t : Slot} (h : s.Apart t) : t.Apart s := fun ht hs => (h hs ht).symm

/-- The directory together with the high-water mark and the free-byte counter. -/
structure Layout where
  slots : List Slot
  top : Nat
  free : Nat

def used (slots : List Slot) : Nat :=
  (slots.map Slot.cb).sum

structure Layout.Valid (cost size : Nat) (l : Layout) : Prop where
  below : ∀ s ∈ l.slots, s.Below l.top
  apart : l.slots.Pairwise Slot.Apart
  fits : l.top + cost * l.slots.length ≤ size
  accounting : l.free + cost * l.slots.length + used l.slots = size

instance (cost size : Nat) (l : Layout) : Decidable (l.Valid cost size) :=
  decidable_of_iff ((∀ s ∈ l.slots, s.Below l.top) ∧ l.slots.Pairwise Slot.Apart ∧
      l.top + cost * l.slots.length ≤ size ∧ l.free + cost * l.slots.length + used l.slots = size)
    ⟨fun ⟨hbelow, hapart, hfits, hacc⟩ => ⟨hbelow, hapart, hfits, hacc⟩,
      fun h => ⟨h.below, h.apart, h.fits, h.accounting⟩⟩

@[simp] theorem used_nil : used [] = 0 := rfl

@[simp] theorem used_cons (s : Slot) (slots : List Slot) :
    used (s :: slots) = s.cb + used slots := by
  simp [used]

variable {slots : List Slot} {top free : Nat}

theorem cb_le_used (hs : s ∈ slots) : s.cb ≤ used slots :=
  single_le_sum (fun _ _ => Nat.zero_le _) _ (mem_map.mpr ⟨s, hs, rfl⟩)

def covered (slots : List Slot) : Finset Nat :=
  slots.foldr (fun s bytes => Finset.Ico s.ib (s.ib + s.cb) ∪ bytes) ∅

theorem mem_covered {a : Nat} :
    a ∈ covered slots ↔ ∃ s ∈ slots, s.ib ≤ a ∧ a < s.ib + s.cb := by
  induction slots with
  | nil => simp [covered]
  | cons s slots ih =>
    rw [covered, foldr_cons, ← covered, Finset.mem_union, Finset.mem_Ico, ih]
    simp

theorem card_covered (h : slots.Pairwise Slot.Apart) :
    (covered slots).card = used slots := by
  induction slots with
  | nil => rfl
  | cons s slots ih =>
    obtain ⟨hhead, htail⟩ := pairwise_cons.mp h
    have hdisj : Disjoint (Finset.Ico s.ib (s.ib + s.cb)) (covered slots) := by
      rw [Finset.disjoint_left]
      intro a ha hcov
      rw [Finset.mem_Ico] at ha
      obtain ⟨t, ht, hlo, hhi⟩ := mem_covered.mp hcov
      rcases hhead t ht (by omega) (by omega) with hle | hle <;> omega
    rw [covered, foldr_cons, ← covered, Finset.card_union_of_disjoint hdisj, ih htail,
      Nat.card_Ico, used_cons, Nat.add_sub_cancel_left]

theorem used_le_top (hapart : slots.Pairwise Slot.Apart)
    (hbelow : ∀ s ∈ slots, s.Below top) : used slots ≤ top := by
  rw [← card_covered hapart, ← Finset.card_range top]
  apply Finset.card_le_card
  intro a ha
  obtain ⟨s, hs, hlo, hhi⟩ := mem_covered.mp ha
  have hend := hbelow s hs (by omega)
  exact Finset.mem_range.mpr (by omega)

theorem covered_eq_range (hapart : slots.Pairwise Slot.Apart)
    (hbelow : ∀ s ∈ slots, s.Below top) (hfull : used slots = top) :
    covered slots = Finset.range top := by
  apply Finset.eq_of_subset_of_card_le
  · intro a ha
    obtain ⟨s, hs, hlo, hhi⟩ := mem_covered.mp ha
    have hend := hbelow s hs (by omega)
    exact Finset.mem_range.mpr (by omega)
  · rw [card_covered hapart, Finset.card_range, hfull]

variable {cost size : Nat}

theorem Layout.Valid.perm {slots' : List Slot}
    (h : Layout.Valid cost size ⟨slots, top, free⟩) (hperm : slots.Perm slots') :
    Layout.Valid cost size ⟨slots', top, free⟩ where
  below s hs := h.below s (hperm.mem_iff.mpr hs)
  apart := (hperm.pairwise_iff Slot.Apart.symm).mp h.apart
  fits := by
    have hfits := h.fits
    simpa [hperm.length_eq] using hfits
  accounting := by
    have hacc := h.accounting
    simpa [hperm.length_eq, used, (hperm.map Slot.cb).sum_eq] using hacc

theorem Layout.Valid.cons_top (cb : Nat)
    (h : Layout.Valid cost size ⟨slots, top, free⟩) (hfree : cb + cost ≤ free)
    (hroom : top + cb + cost * (slots.length + 1) ≤ size) :
    Layout.Valid cost size ⟨⟨top, cb⟩ :: slots, top + cb, free - (cb + cost)⟩ where
  below := by
    intro s hs
    rcases mem_cons.mp hs with rfl | hs
    · exact fun _ => le_rfl
    · exact fun hne => le_trans (h.below s hs hne) (Nat.le_add_right _ _)
  apart := by
    refine pairwise_cons.mpr ⟨?_, h.apart⟩
    intro s hs _ hne
    exact Or.inr (h.below s hs hne)
  fits := by simpa using hroom
  accounting := by
    have hacc := h.accounting
    simp only [length_cons, used_cons, Nat.mul_succ] at hacc ⊢
    omega

theorem Layout.Valid.of_cons (h : Layout.Valid cost size ⟨s :: slots, top, free⟩) :
    Layout.Valid cost size ⟨slots, top, free + (s.cb + cost)⟩ where
  below t ht := h.below t (mem_cons_of_mem s ht)
  apart := (pairwise_cons.mp h.apart).2
  fits := by
    have hfits := h.fits
    simp only [length_cons, Nat.mul_succ] at hfits ⊢
    omega
  accounting := by
    have hacc := h.accounting
    simp only [length_cons, used_cons, Nat.mul_succ] at hacc ⊢
    omega

theorem Layout.Valid.below_of_last
    (h : Layout.Valid cost size ⟨s :: slots, top, free⟩) (hlast : s.ib + s.cb = top) :
    ∀ t ∈ slots, t.Below s.ib := by
  intro t ht hne
  have hbelow := h.below t (mem_cons_of_mem s ht) hne
  by_cases hs : s.cb = 0
  · have htop : top = s.ib := by omega
    simpa [htop] using hbelow
  · rcases (pairwise_cons.mp h.apart).1 t ht hs hne with hle | hle
    · change t.ib + t.cb ≤ top at hbelow
      omega
    · exact hle

theorem Layout.Valid.lower_top {top' : Nat}
    (h : Layout.Valid cost size ⟨slots, top, free⟩) (hle : top' ≤ top)
    (hbelow : ∀ s ∈ slots, s.Below top') : Layout.Valid cost size ⟨slots, top', free⟩ where
  below := hbelow
  apart := h.apart
  fits := by
    have hfits := h.fits
    simp only at hfits ⊢
    omega
  accounting := h.accounting

section Edits

variable {slots : List Slot} {top free i : Nat}

theorem Layout.Valid.getElem_cons (h : Layout.Valid cost size ⟨slots, top, free⟩)
    (hi : i < slots.length) :
    Layout.Valid cost size ⟨slots[i] :: slots.eraseIdx i, top, free⟩ :=
  h.perm (getElem_cons_eraseIdx_perm hi).symm

theorem Layout.Valid.eraseIdx (h : Layout.Valid cost size ⟨slots, top, free⟩)
    (hi : i < slots.length) :
    Layout.Valid cost size ⟨slots.eraseIdx i,
      if slots[i].ib + slots[i].cb = top then top - slots[i].cb else top,
      free + (slots[i].cb + cost)⟩ := by
  have hcons := h.getElem_cons hi
  split
  case isTrue hlast =>
    have htop : top - slots[i].cb = slots[i].ib := by omega
    rw [htop]
    exact hcons.of_cons.lower_top (by omega) (hcons.below_of_last hlast)
  case isFalse => exact hcons.of_cons

theorem Layout.Valid.resize (cb : Nat) (h : Layout.Valid cost size ⟨slots, top, free⟩)
    (hi : i < slots.length) (hfree : cb ≤ slots[i].cb + free)
    (hgrow : slots[i].cb < cb →
      slots[i].ib + slots[i].cb = top ∧ slots[i].ib + cb + cost * slots.length ≤ size) :
    Layout.Valid cost size ⟨slots.set i ⟨slots[i].ib, cb⟩,
      if slots[i].ib + slots[i].cb = top then slots[i].ib + cb else top,
      free + slots[i].cb - cb⟩ := by
  have hcons := h.getElem_cons hi
  have hlen := length_eraseIdx_add_one hi
  refine Layout.Valid.perm ?_ (set_perm_cons_eraseIdx hi _).symm
  have hfits := hcons.fits
  have hacc := hcons.accounting
  have happ := pairwise_cons.mp hcons.apart
  simp only [length_cons, used_cons, hlen] at hfits hacc
  refine ⟨?_, ?_, ?_, ?_⟩
  · intro s hs hne
    rcases mem_cons.mp hs with rfl | hs
    · simp only at hne ⊢
      have hbelow := hcons.below slots[i] mem_cons_self
      simp only [Slot.Below] at hbelow
      split <;> omega
    · split
      case isTrue hlast =>
        have hlow := hcons.below_of_last hlast s hs hne
        exact hlow.trans (Nat.le_add_right _ _)
      case isFalse => exact hcons.below s (mem_cons_of_mem _ hs) hne
  · refine pairwise_cons.mpr ⟨?_, happ.2⟩
    intro s hs hne hsne
    simp only at hne ⊢
    by_cases hgrows : slots[i].cb < cb
    · have hlow := hcons.below_of_last (hgrow hgrows).1 s hs hsne
      exact Or.inr hlow
    · rcases happ.1 s hs (by omega) hsne with hle | hle
      · left
        omega
      · exact Or.inr hle
  · simp only [length_cons, hlen]
    split <;> omega
  · simp only [length_cons, hlen, used_cons]
    omega

theorem Layout.Valid.clear (ib : Nat) (h : Layout.Valid cost size ⟨slots, top, free⟩)
    (hi : i < slots.length) :
    Layout.Valid cost size ⟨slots.set i ⟨ib, 0⟩, top, free + slots[i].cb⟩ := by
  have hcons := h.getElem_cons hi
  refine Layout.Valid.perm ?_ (set_perm_cons_eraseIdx hi _).symm
  refine ⟨?_, ?_, ?_, ?_⟩
  · intro s hs
    rcases mem_cons.mp hs with rfl | hs
    · exact fun hne => absurd rfl hne
    · exact hcons.below s (mem_cons_of_mem _ hs)
  · refine pairwise_cons.mpr ⟨?_, (pairwise_cons.mp hcons.apart).2⟩
    exact fun s _ hne => absurd rfl hne
  · simpa using hcons.fits
  · have hacc := hcons.accounting
    simp only [length_cons, used_cons] at hacc ⊢
    omega

theorem Layout.Valid.place (cb : Nat) (h : Layout.Valid cost size ⟨slots, top, free⟩)
    (hi : i < slots.length) (hempty : slots[i].cb = 0) (hfree : cb ≤ free)
    (hroom : top + cb + cost * slots.length ≤ size) :
    Layout.Valid cost size ⟨slots.set i ⟨top, cb⟩, top + cb, free - cb⟩ := by
  have hcons := h.getElem_cons hi
  have hlen := length_eraseIdx_add_one hi
  have hpush := hcons.of_cons.cons_top cb (by omega) (by rwa [hlen])
  have hsub : free + (slots[i].cb + cost) - (cb + cost) = free - cb := by omega
  rw [hsub] at hpush
  exact hpush.perm (set_perm_cons_eraseIdx hi _).symm

end Edits

end EseLinux.SlotLayout
