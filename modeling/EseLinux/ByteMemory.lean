import Mathlib.Data.List.Basic
import Mathlib.Data.Nat.Bitwise

/-!
Byte-addressed memory with little-endian words, block writes and overlapping moves.
Every operation comes with what it writes and with the bytes it leaves alone.
-/

namespace EseLinux.ByteMemory

open List

abbrev Memory := Nat → UInt8

def word (m : Memory) (a : Nat) : Nat :=
  (m a).toNat + 256 * (m (a + 1)).toNat

def dword (m : Memory) (a : Nat) : Nat :=
  word m a + 65536 * word m (a + 2)

def setWord (m : Memory) (a w : Nat) : Memory := fun i =>
  if i = a then UInt8.ofNat w
  else if i = a + 1 then UInt8.ofNat (w / 256)
  else m i

def store (m : Memory) (a : Nat) (bs : List UInt8) : Memory := fun i =>
  if a ≤ i ∧ i < a + bs.length then bs.getD (i - a) 0 else m i

def fill (m : Memory) (a n : Nat) (b : UInt8) : Memory := fun i =>
  if a ≤ i ∧ i < a + n then b else m i

/-- `memmove`: copy `n` bytes from `src` to `dst`; the two ranges may overlap. -/
def move (m : Memory) (dst src n : Nat) : Memory := fun i =>
  if dst ≤ i ∧ i < dst + n then m (src + (i - dst)) else m i

def slice (m : Memory) (a n : Nat) : List UInt8 :=
  (range n).map fun k => m (a + k)

def AgreeOn (m m' : Memory) (a n : Nat) : Prop :=
  ∀ i, a ≤ i → i < a + n → m' i = m i

@[simp] theorem slice_length (m : Memory) (a n : Nat) : (slice m a n).length = n := by
  simp [slice]

@[simp] theorem slice_zero (m : Memory) (a : Nat) : slice m a 0 = [] := rfl

@[simp] theorem slice_getElem (m : Memory) (a n k : Nat) (hk : k < (slice m a n).length) :
    (slice m a n)[k] = m (a + k) := by
  simp [slice]

theorem slice_append (m : Memory) (a n k : Nat) :
    slice m a n ++ slice m (a + n) k = slice m a (n + k) := by
  apply ext_getElem
  · simp
  · intro i hi hi'
    by_cases hin : i < n
    · simp [hin]
    · have haddr : a + n + (i - n) = a + i := by omega
      simp [getElem_append, hin, haddr]

variable {a n i k : Nat}

theorem take_drop_slice (m : Memory) (h : i + k ≤ n) :
    ((slice m a n).drop i).take k = slice m (a + i) k := by
  have hsplit : slice m a n =
      slice m a i ++ (slice m (a + i) k ++ slice m (a + i + k) (n - i - k)) := by
    rw [slice_append, slice_append]
    congr 1
    omega
  rw [hsplit, drop_left' (slice_length m a i), take_left' (slice_length m (a + i) k)]

theorem drop_slice (m : Memory) (h : i ≤ n) : (slice m a n).drop i = slice m (a + i) (n - i) := by
  have hsplit : slice m a n = slice m a i ++ slice m (a + i) (n - i) := by
    rw [slice_append]
    congr 1
    omega
  rw [hsplit, drop_left' (slice_length m a i)]

theorem take_slice (m : Memory) (h : k ≤ n) : (slice m a n).take k = slice m a k := by
  have hpart := take_drop_slice m (a := a) (n := n) (i := 0) (k := k) (by omega)
  rwa [drop_zero, add_zero] at hpart

theorem AgreeOn.trans {m m' m'' : Memory} (h : AgreeOn m m' a n)
    (h' : AgreeOn m' m'' a n) : AgreeOn m m'' a n :=
  fun i hlo hhi => (h' i hlo hhi).trans (h i hlo hhi)

variable {m m' : Memory} {T : Nat → Prop}

theorem AgreeOn.mono {b : Nat} (h : AgreeOn m m' a n)
    (hlo : a ≤ b) (hhi : b + k ≤ a + n) : AgreeOn m m' b k :=
  fun i hb hk => h i (by omega) (by omega)

theorem AgreeOn.word_eq (h : AgreeOn m m' a 2) : word m' a = word m a := by
  simp only [word]
  rw [h a (by omega) (by omega), h (a + 1) (by omega) (by omega)]

theorem AgreeOn.words_eq (h : AgreeOn m m' a 4) :
    word m' a = word m a ∧ word m' (a + 2) = word m (a + 2) :=
  ⟨(h.mono (le_rfl) (by omega)).word_eq, (h.mono (by omega) (by omega)).word_eq⟩

theorem AgreeOn.slice_eq (h : AgreeOn m m' a n) : slice m' a n = slice m a n := by
  apply map_congr_left
  intro k hk
  have hkn : k < n := mem_range.mp hk
  exact h (a + k) (by omega) (by omega)

theorem word_lt (m : Memory) (a : Nat) : word m a < 65536 := by
  have h0 := (m a).toNat_lt
  have h1 := (m (a + 1)).toNat_lt
  simp only [word]
  omega

theorem setWord_agreeOn (m : Memory) (a w b n : Nat) (h : b + n ≤ a ∨ a + 2 ≤ b) :
    AgreeOn m (setWord m a w) b n := by
  intro i hlo hhi
  have hne : i ≠ a := by omega
  have hne' : i ≠ a + 1 := by omega
  simp [setWord, hne, hne']

theorem store_agreeOn (m : Memory) (a : Nat) (bs : List UInt8) (b n : Nat)
    (h : b + n ≤ a ∨ a + bs.length ≤ b) : AgreeOn m (store m a bs) b n := by
  intro i hlo hhi
  have hout : ¬ (a ≤ i ∧ i < a + bs.length) := by omega
  simp only [store, if_neg hout]

theorem fill_agreeOn (m : Memory) (a k : Nat) (v : UInt8) (b n : Nat)
    (h : b + n ≤ a ∨ a + k ≤ b) : AgreeOn m (fill m a k v) b n := by
  intro i hlo hhi
  have hout : ¬ (a ≤ i ∧ i < a + k) := by omega
  simp only [fill, if_neg hout]

theorem move_agreeOn (m : Memory) (dst src k b n : Nat)
    (h : b + n ≤ dst ∨ dst + k ≤ b) : AgreeOn m (move m dst src k) b n := by
  intro i hlo hhi
  have hout : ¬ (dst ≤ i ∧ i < dst + k) := by omega
  simp only [move, if_neg hout]

/-- Only bytes at addresses in `T` differ. -/
def Frame (T : Nat → Prop) (m m' : Memory) : Prop :=
  ∀ a, ¬ T a → m' a = m a

theorem Frame.refl (T : Nat → Prop) (m : Memory) : Frame T m m := fun _ _ => rfl

theorem Frame.trans {m'' : Memory} (h : Frame T m m') (h' : Frame T m' m'') : Frame T m m'' :=
  fun a ha => (h' a ha).trans (h a ha)

theorem Frame.mono {T' : Nat → Prop} (h : Frame T m m') (hsub : ∀ a, T a → T' a) : Frame T' m m' :=
  fun a ha => h a fun hT => ha (hsub a hT)

theorem Frame.agreeOn (h : Frame T m m')
    (hout : ∀ i, a ≤ i → i < a + n → ¬ T i) : AgreeOn m m' a n :=
  fun i hlo hhi => h i (hout i hlo hhi)

theorem frame_setWord (m : Memory) (a w : Nat)
    (hT : ∀ i, a ≤ i → i < a + 2 → T i) : Frame T m (setWord m a w) := by
  intro i hi
  have hne : i ≠ a := fun h => hi (hT i (by omega) (by omega))
  have hne' : i ≠ a + 1 := fun h => hi (hT i (by omega) (by omega))
  simp [setWord, hne, hne']

theorem frame_store (m : Memory) (a : Nat) (bs : List UInt8)
    (hT : ∀ i, a ≤ i → i < a + bs.length → T i) : Frame T m (store m a bs) := by
  intro i hi
  have hout : ¬ (a ≤ i ∧ i < a + bs.length) := fun h => hi (hT i h.1 h.2)
  simp only [store, if_neg hout]

theorem frame_fill (m : Memory) (a n : Nat) (v : UInt8)
    (hT : ∀ i, a ≤ i → i < a + n → T i) : Frame T m (fill m a n v) := by
  intro i hi
  have hout : ¬ (a ≤ i ∧ i < a + n) := fun h => hi (hT i h.1 h.2)
  simp only [fill, if_neg hout]

theorem frame_move (m : Memory) (dst src n : Nat)
    (hT : ∀ i, dst ≤ i → i < dst + n → T i) : Frame T m (move m dst src n) := by
  intro i hi
  have hout : ¬ (dst ≤ i ∧ i < dst + n) := fun h => hi (hT i h.1 h.2)
  simp only [move, if_neg hout]

theorem setWord_congr {w : Nat} (h : i ≠ a → i ≠ a + 1 → m' i = m i) :
    setWord m' a w i = setWord m a w i := by
  simp only [setWord]
  split
  · rfl
  · split
    · rfl
    · exact h ‹_› ‹_›

theorem store_congr {bs : List UInt8}
    (h : ¬ (a ≤ i ∧ i < a + bs.length) → m' i = m i) : store m' a bs i = store m a bs i := by
  simp only [store]
  split
  · rfl
  · exact h ‹_›

theorem fill_congr {b : UInt8}
    (h : ¬ (a ≤ i ∧ i < a + n) → m' i = m i) : fill m' a n b i = fill m a n b i := by
  simp only [fill]
  split
  · rfl
  · exact h ‹_›

section Writes

variable (m : Memory) (a : Nat)

theorem word_setWord (w : Nat) : word (setWord m a w) a = w % 65536 := by
  have hne : a + 1 ≠ a := by omega
  simp only [word, setWord, if_true, hne, if_false, UInt8.toNat_ofNat']
  omega

theorem word_setWord_of_lt (w : Nat) (hw : w < 65536) : word (setWord m a w) a = w := by
  rw [word_setWord, Nat.mod_eq_of_lt hw]

theorem setWord_word : setWord m a (word m a) = m := by
  funext i
  simp only [setWord, word]
  split
  · rename_i hi
    subst hi
    apply UInt8.toNat_inj.mp
    have hlt := (m i).toNat_lt
    simp only [UInt8.toNat_ofNat']
    omega
  · split
    · rename_i hi
      subst hi
      apply UInt8.toNat_inj.mp
      have hlt := (m a).toNat_lt
      have hlt' := (m (a + 1)).toNat_lt
      simp only [UInt8.toNat_ofNat']
      omega
    · rfl

theorem word_setWord_of_disjoint (w b : Nat) (h : b + 2 ≤ a ∨ a + 2 ≤ b) :
    word (setWord m a w) b = word m b :=
  (setWord_agreeOn m a w b 2 h).word_eq

theorem slice_store (bs : List UInt8) : slice (store m a bs) a bs.length = bs := by
  apply ext_getElem
  · simp
  · intro i hi hi'
    have hin : a ≤ a + i ∧ a + i < a + bs.length := by omega
    have hsub : a + i - a = i := by omega
    simp only [slice_getElem, store, if_pos hin, hsub]
    exact getD_eq_getElem bs 0 hi'

theorem slice_fill (n : Nat) (b : UInt8) : slice (fill m a n b) a n = replicate n b := by
  refine ext_getElem (by simp) fun k hk _ => ?_
  rw [slice_length] at hk
  rw [slice_getElem, getElem_replicate, fill, if_pos (by omega)]

theorem store_append (bs bs' : List UInt8) :
    store (store m a bs) (a + bs.length) bs' = store m a (bs ++ bs') := by
  funext i
  simp only [store, length_append]
  by_cases hlo : i < a + bs.length
  · have hout : ¬ (a + bs.length ≤ i ∧ i < a + bs.length + bs'.length) := by omega
    rw [if_neg hout]
    by_cases ha : a ≤ i
    · rw [if_pos ⟨ha, hlo⟩, if_pos (by omega), getD_append _ _ _ _ (by omega)]
    · rw [if_neg (by omega), if_neg (by omega)]
  · by_cases hhi : i < a + bs.length + bs'.length
    · rw [if_pos (by omega), if_pos (by omega), getD_append_right _ _ _ _ (by omega),
        Nat.sub_sub]
    · rw [if_neg (by omega), if_neg (by omega), if_neg (by omega)]

theorem store_nil : store m a [] = m := by
  funext i
  have hout : ¬ (a ≤ i ∧ i < a + ([] : List UInt8).length) := by simp
  simp only [store, if_neg hout]

theorem move_apply (dst src n k : Nat) (hk : k < n) :
    move m dst src n (dst + k) = m (src + k) := by
  have hin : dst ≤ dst + k ∧ dst + k < dst + n := by omega
  have hsub : dst + k - dst = k := by omega
  simp only [move, if_pos hin, hsub]

theorem move_zero (dst src : Nat) : move m dst src 0 = m := by
  funext i
  have hout : ¬ (dst ≤ i ∧ i < dst + 0) := by omega
  simp only [move, if_neg hout]

theorem slice_move (dst src n off k : Nat) (h : off + k ≤ n) :
    slice (move m dst src n) (dst + off) k = slice m (src + off) k := by
  apply map_congr_left
  intro i hi
  have hik : i < k := mem_range.mp hi
  rw [add_assoc, move_apply m dst src n (off + i) (by omega), add_assoc]

theorem word_move (dst src n off : Nat) (h : off + 2 ≤ n) :
    word (move m dst src n) (dst + off) = word m (src + off) := by
  simp only [word]
  rw [add_assoc, move_apply m dst src n off (by omega),
    move_apply m dst src n (off + 1) (by omega), add_assoc]

end Writes

def Copied (m m' : Memory) (src dst n : Nat) : Prop :=
  ∀ k, k < n → m' (dst + k) = m (src + k)

section Copies

variable {m m' : Memory} {src dst n : Nat}

theorem copied_of_slice_eq (h : slice m' dst n = slice m src n) : Copied m m' src dst n := by
  intro k hk
  have hget := congrArg (fun l => l[k]?) h
  simpa [slice, hk] using hget

end Copies

def ofBytes (bs : List UInt8) : Memory := fun k => bs.getD k 0

theorem slice_ofBytes (bs : List UInt8) : slice (ofBytes bs) 0 bs.length = bs := by
  apply ext_getElem
  · simp
  · intro i hi hi'
    simp only [slice_getElem, zero_add, ofBytes]
    exact getD_eq_getElem bs 0 hi'

end EseLinux.ByteMemory
