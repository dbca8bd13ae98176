import EseLinux.SlotLayout
import Mathlib.Data.Nat.Bitwise

/-!
The bitmap with which `CPAGE::ErrCheckPage` looks for tags that share bytes: one bit for each
byte of the data area, in words of 32 bits.
-/

namespace EseLinux.TagBitmap

open SlotLayout

structure Bitmap where
  rgdw : Nat → Nat
  dwOverlaps : Nat

def empty : Bitmap := ⟨fun _ => 0, 0⟩

/-- `~( bit - 1 )` for the bit of byte `ib`, where `bit` has passed through a `BYTE`. -/
def setFrom (ib : Nat) : Nat :=
  let bit := (1 <<< (ib &&& 31)) % 2 ^ 8
  0xffffffff ^^^ ((bit + 0xffffffff) % 2 ^ 32)

def orWord (s : Bitmap) (idw set : Nat) : Bitmap where
  rgdw := fun i => if i = idw then s.rgdw i ||| set else s.rgdw i
  dwOverlaps := s.dwOverlaps ||| (s.rgdw idw &&& set)

/-- The loop over the words a tag fills to their end. Every round takes at least one byte, so
`cb` rounds are enough. -/
def markWords : Nat → Nat → Nat → Bitmap → Nat × Nat × Bitmap
  | 0, ib, cb, s => (ib, cb, s)
  | fuel + 1, ib, cb, s =>
    if 32 - (ib &&& 31) ≤ cb then
      markWords fuel (ib + (32 - (ib &&& 31))) (cb - (32 - (ib &&& 31)))
        (orWord s (ib / 32) (setFrom ib))
    else (ib, cb, s)

def markTag (s : Bitmap) (t : Slot) : Bitmap :=
  let (ib, cb, s) := markWords t.cb t.ib t.cb s
  if cb ≠ 0 then
    let cbitLeftSkip := 32 - cb - (ib &&& 31)
    orWord s (ib / 32) (((setFrom ib <<< cbitLeftSkip) % 2 ^ 32) >>> cbitLeftSkip)
  else s

theorem and_31 (ib : Nat) : ib &&& 31 = ib % 32 := Nat.and_two_pow_sub_one_eq_mod ib 5

theorem setFrom_eq (ib : Nat) :
    setFrom ib = if ib % 32 < 8 then 2 ^ 32 - 2 ^ (ib % 32) else 0 := by
  have hall : ∀ k : Fin 32, 0xffffffff ^^^ (((1 <<< k.val) % 2 ^ 8 + 0xffffffff) % 2 ^ 32) =
        if k.val < 8 then 2 ^ 32 - 2 ^ k.val else 0 := by
    decide
  simp only [setFrom, and_31]
  exact hall ⟨ib % 32, Nat.mod_lt _ (by decide)⟩

theorem testBit_setFrom (ib k : Nat) :
    (setFrom ib).testBit k = true ↔ ib % 32 < 8 ∧ ib % 32 ≤ k ∧ k < 32 := by
  rw [setFrom_eq]
  split
  · rename_i hlow
    have hsub : 2 ^ 32 - 2 ^ (ib % 32) = 2 ^ 32 - (2 ^ (ib % 32) - 1 + 1) := by
      have := Nat.two_pow_pos (ib % 32)
      omega
    have hlt : 2 ^ (ib % 32) - 1 < 2 ^ 32 := by
      have := Nat.pow_lt_pow_right (a := 2) (by decide) (show ib % 32 < 32 by omega)
      omega
    rw [hsub, Nat.testBit_two_pow_sub_succ hlt, Nat.testBit_two_pow_sub_one]
    simp only [hlow, true_and, Bool.and_eq_true, Bool.not_eq_true', decide_eq_true_eq,
      decide_eq_false_iff_not, not_lt]
    exact and_comm
  · rename_i hhigh
    simp [hhigh]

theorem testBit_skip (w l k : Nat) :
    (((w <<< l) % 2 ^ 32) >>> l).testBit k = true ↔ l + k < 32 ∧ w.testBit k = true := by
  rw [Nat.testBit_shiftRight, Nat.testBit_mod_two_pow, Nat.testBit_shiftLeft]
  simp

def bit (s : Bitmap) (b : Nat) : Prop :=
  (s.rgdw (b / 32)).testBit (b % 32) = true

/-- From `s` to `s'` the bytes in `R` are recorded, and `dwOverlaps` tells whether one of them
had been recorded before. -/
structure Marks (R : Nat → Prop) (s s' : Bitmap) : Prop where
  bits : ∀ b, bit s' b ↔ bit s b ∨ R b
  overlaps : s'.dwOverlaps = 0 ↔ s.dwOverlaps = 0 ∧ ∀ b, R b → ¬ bit s b

theorem Marks.refl (s : Bitmap) : Marks (fun _ => False) s s := ⟨fun _ => by simp, by simp⟩

theorem Marks.trans {R R' : Nat → Prop} {s s' s'' : Bitmap} (h : Marks R s s')
    (h' : Marks R' s' s'') (hdisj : ∀ b, R b → ¬ R' b) :
    Marks (fun b => R b ∨ R' b) s s'' := by
  constructor
  · intro b
    rw [h'.bits, h.bits, or_assoc]
  · rw [h'.overlaps, h.overlaps, and_assoc]
    refine and_congr_right fun _ => ⟨?_, ?_⟩
    · rintro ⟨hR, hR'⟩ b (hb | hb)
      · exact hR b hb
      · exact fun hbit => hR' b hb ((h.bits b).mpr (.inl hbit))
    · intro hboth
      refine ⟨fun b hb => hboth b (.inl hb), fun b hb hbit => ?_⟩
      obtain hbit | hbR := (h.bits b).mp hbit
      · exact hboth b (.inr hb) hbit
      · exact hdisj b hbR hb

theorem Marks.congr {R R' : Nat → Prop} {s s' : Bitmap} (h : Marks R s s')
    (hR : ∀ b, R b ↔ R' b) : Marks R' s s' := by
  obtain rfl : R = R' := funext fun b => propext (hR b)
  exact h

theorem marks_orWord (s : Bitmap) (idw set : Nat)
    (hset : ∀ k, set.testBit k = true → k < 32) :
    Marks (fun b => b / 32 = idw ∧ set.testBit (b % 32) = true) s (orWord s idw set) := by
  constructor
  · intro b
    simp only [bit, orWord]
    split
    · rename_i hb
      simp [Nat.testBit_or, hb]
    · rename_i hb
      simp [hb]
  · simp only [orWord, Nat.or_eq_zero_iff]
    refine and_congr_right fun _ => ⟨?_, ?_⟩
    · rintro hand b ⟨rfl, hb⟩ hbit
      have hboth : (s.rgdw (b / 32) &&& set).testBit (b % 32) = true := by
        rw [Nat.testBit_and, Bool.and_eq_true]
        exact ⟨hbit, hb⟩
      simp [hand] at hboth
    · intro hfree
      apply Nat.eq_of_testBit_eq
      intro k
      rw [Nat.testBit_and, Nat.zero_testBit, Bool.and_eq_false_iff]
      by_contra hboth
      simp only [not_or, Bool.not_eq_false] at hboth
      have hk := hset k hboth.2
      have hdiv : (32 * idw + k) / 32 = idw := by omega
      have hmod : (32 * idw + k) % 32 = k := by omega
      apply hfree (32 * idw + k) ⟨hdiv, by rw [hmod]; exact hboth.2⟩
      rw [bit, hdiv, hmod]
      exact hboth.1

/-- The bytes of a tag that reach the bitmap: all of them, except those in the word where the
tag starts if it starts past the eighth byte of that word. -/
def Recorded (ib cb b : Nat) : Prop :=
  ib ≤ b ∧ b < ib + cb ∧ (b / 32 = ib / 32 → ib % 32 < 8)

theorem markWords_spec (fuel ib cb : Nat) (s : Bitmap) (hfuel : cb ≤ fuel) :
    ∃ ib' cb' s', markWords fuel ib cb s = (ib', cb', s') ∧
      ib ≤ ib' ∧ ib' + cb' = ib + cb ∧ ib' % 32 + cb' < 32 ∧ (ib' = ib ∨ ib' % 32 = 0) ∧
      Marks (fun b => Recorded ib cb b ∧ b < ib') s s' := by
  induction fuel generalizing ib cb s with
  | zero =>
    refine ⟨ib, cb, s, rfl, le_rfl, rfl, by omega, .inl rfl, ?_⟩
    refine (Marks.refl s).congr fun b => ⟨False.elim, ?_⟩
    rintro ⟨⟨hle, -⟩, hlt⟩
    omega
  | succ fuel ih =>
    rw [markWords, and_31]
    split
    · rename_i hfull
      obtain ⟨ib', cb', s', heq, hle, hsum, hrest, halign, hmarks⟩ :=
        ih (ib + (32 - ib % 32)) (cb - (32 - ib % 32)) (orWord s (ib / 32) (setFrom ib))
          (by omega)
      refine ⟨ib', cb', s', heq, by omega, by omega, hrest, .inr (by omega), ?_⟩
      have hword := marks_orWord s (ib / 32) (setFrom ib) fun k hk =>
        ((testBit_setFrom ib k).mp hk).2.2
      refine (hword.trans hmarks ?_).congr ?_
      · rintro b ⟨hb, -⟩ ⟨⟨hb', -⟩, -⟩
        omega
      · intro b
        simp only [testBit_setFrom, Recorded]
        omega
    · refine ⟨ib, cb, s, rfl, le_rfl, rfl, by omega, .inl rfl, ?_⟩
      refine (Marks.refl s).congr fun b => ⟨False.elim, ?_⟩
      rintro ⟨⟨hle, -⟩, hlt⟩
      omega

theorem markTag_marks (s : Bitmap) (t : Slot) :
    Marks (Recorded t.ib t.cb) s (markTag s t) := by
  obtain ⟨ib', cb', s', heq, hle, hsum, hrest, halign, hmarks⟩ :=
    markWords_spec t.cb t.ib t.cb s le_rfl
  simp only [markTag, heq, and_31]
  split
  · have hword := marks_orWord s' (ib' / 32)
      (((setFrom ib' <<< (32 - cb' - ib' % 32)) % 2 ^ 32) >>> (32 - cb' - ib' % 32)) fun k hk =>
        by have := (testBit_skip _ _ k).mp hk; omega
    refine (hmarks.trans hword ?_).congr ?_
    · rintro b ⟨-, hlt⟩ ⟨hdiv, hbit⟩
      have := (testBit_setFrom _ _).mp ((testBit_skip _ _ _).mp hbit).2
      omega
    · intro b
      simp only [testBit_skip, testBit_setFrom, Recorded]
      omega
  · refine hmarks.congr fun b => ?_
    simp only [Recorded]
    omega

def markTags (tags : List Slot) (s : Bitmap) : Bitmap :=
  tags.foldl markTag s

def RecordedApart (t t' : Slot) : Prop :=
  ∀ b, Recorded t.ib t.cb b → ¬ Recorded t'.ib t'.cb b

theorem markTags_overlaps (tags : List Slot) (s : Bitmap) :
    (markTags tags s).dwOverlaps = 0 ↔
      s.dwOverlaps = 0 ∧ (∀ t ∈ tags, ∀ b, Recorded t.ib t.cb b → ¬ bit s b) ∧
        tags.Pairwise RecordedApart := by
  induction tags generalizing s with
  | nil => simp [markTags]
  | cons t tags ih =>
    have hmark := markTag_marks s t
    have hcons : markTags (t :: tags) s = markTags tags (markTag s t) := rfl
    rw [hcons, ih, hmark.overlaps]
    simp only [List.mem_cons, forall_eq_or_imp, List.pairwise_cons, hmark.bits, not_or]
    constructor
    · rintro ⟨⟨hzero, ht⟩, htags, hpair⟩
      exact ⟨hzero, ⟨ht, fun t' ht' b hb => (htags t' ht' b hb).1⟩,
        fun t' ht' b hb hb' => (htags t' ht' b hb').2 hb, hpair⟩
    · rintro ⟨hzero, ⟨ht, htags⟩, hfirst, hpair⟩
      exact ⟨⟨hzero, ht⟩, fun t' ht' b hb => ⟨htags t' ht' b hb, fun hb' =>
        hfirst t' ht' b hb' hb⟩, hpair⟩

theorem markTags_empty_overlaps (tags : List Slot) :
    (markTags tags empty).dwOverlaps = 0 ↔ tags.Pairwise RecordedApart := by
  rw [markTags_overlaps]
  refine ⟨fun h => h.2.2, fun h => ⟨rfl, fun t _ b _ => ?_, h⟩⟩
  simp [bit, empty]

end EseLinux.TagBitmap
