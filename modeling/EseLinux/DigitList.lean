import Mathlib.Data.Nat.Digits.Lemmas
import Mathlib.Data.Nat.Bitwise

/-!
Bit fields of machine words held as natural numbers: reading the low bits of a word and
overwriting them while the high bits stay.
-/

namespace EseLinux.BitField

open Nat

theorem and_xor_mask (w n k : Nat) (hw : w < 2 ^ n) (hk : k ≤ n) :
    w &&& ((2 ^ n - 1) ^^^ (2 ^ k - 1)) = 2 ^ k * (w / 2 ^ k) := by
  apply eq_of_testBit_eq
  intro i
  rw [testBit_and, testBit_xor, testBit_two_pow_sub_one,
    testBit_two_pow_sub_one, testBit_two_pow_mul, testBit_div_two_pow]
  by_cases hin : i < n
  · by_cases hik : i < k
    · simp [hin, hik]
    · have hki : k ≤ i := by omega
      simp [hin, hik, hki]
  · have hbit : w.testBit i = false :=
      testBit_lt_two_pow
        (lt_of_lt_of_le hw (Nat.pow_le_pow_right (by decide) (by omega)))
    have hki : k ≤ i := by omega
    simp [hin, hbit, hki]

theorem and_xor_mask_or (w n k v : Nat) (hw : w < 2 ^ n) (hk : k ≤ n) (hv : v < 2 ^ k) :
    (w &&& ((2 ^ n - 1) ^^^ (2 ^ k - 1))) ||| v = 2 ^ k * (w / 2 ^ k) + v := by
  rw [and_xor_mask w n k hw hk, two_pow_add_eq_or_of_lt hv]

theorem and_mask_or_shiftLeft (w k f : Nat) :
    (w &&& (2 ^ k - 1)) ||| (f <<< k) = w % 2 ^ k + 2 ^ k * f := by
  rw [Nat.and_two_pow_sub_one_eq_mod, Nat.shiftLeft_eq, mul_comm f, Nat.or_comm,
    ← Nat.two_pow_add_eq_or_of_lt (Nat.mod_lt _ (Nat.two_pow_pos k)), add_comm]

theorem overwrite_low (w n k v : Nat) (hw : w < 2 ^ n) (hk : k ≤ n) (hv : v < 2 ^ k) :
    let w' := (w &&& ((2 ^ n - 1) ^^^ (2 ^ k - 1))) ||| v
    w' < 2 ^ n ∧ w' % 2 ^ k = v ∧ w' / 2 ^ k = w / 2 ^ k := by
  intro w'
  have hw' : w' = 2 ^ k * (w / 2 ^ k) + v := and_xor_mask_or w n k v hw hk hv
  have hdiv : w / 2 ^ k < 2 ^ (n - k) := by
    apply Nat.div_lt_of_lt_mul
    rwa [← Nat.pow_add, Nat.add_sub_cancel' hk]
  refine ⟨?_, ?_, ?_⟩
  · calc
      w' < 2 ^ k * (w / 2 ^ k + 1) := by rw [hw', mul_succ]; omega
      _ ≤ 2 ^ k * 2 ^ (n - k) := mul_le_mul_left _ hdiv
      _ = 2 ^ n := by rw [← Nat.pow_add, Nat.add_sub_cancel' hk]
  · rw [hw', mul_add_mod, mod_eq_of_lt hv]
  · rw [hw', Nat.mul_add_div (Nat.two_pow_pos k), Nat.div_eq_of_lt hv, Nat.add_zero]

section Fields

variable {k p q : Nat}

theorem testBit_add_two_pow_mul (hp : p < 2 ^ k) (f i : Nat) :
    (p + 2 ^ k * f).testBit i = if i < k then p.testBit i else f.testBit (i - k) := by
  rw [add_comm, testBit_two_pow_mul_add f hp]

theorem bits_add_two_pow_mul {op : Nat → Nat → Nat} {f : Bool → Bool → Bool}
    (hop : ∀ x y i, (op x y).testBit i = f (x.testBit i) (y.testBit i)) (hp : p < 2 ^ k)
    (hq : q < 2 ^ k) (hlow : op p q < 2 ^ k) (a b : Nat) :
    op (p + 2 ^ k * a) (q + 2 ^ k * b) = op p q + 2 ^ k * op a b := by
  apply eq_of_testBit_eq
  intro i
  rw [hop, testBit_add_two_pow_mul hp, testBit_add_two_pow_mul hq, testBit_add_two_pow_mul hlow]
  split <;> rw [hop]

theorem and_add_two_pow_mul (hp : p < 2 ^ k) (hq : q < 2 ^ k) (f g : Nat) :
    (p + 2 ^ k * f) &&& (q + 2 ^ k * g) = (p &&& q) + 2 ^ k * (f &&& g) :=
  bits_add_two_pow_mul testBit_and hp hq (and_lt_two_pow p hq) f g

theorem or_add_two_pow_mul (hp : p < 2 ^ k) (hq : q < 2 ^ k) (f g : Nat) :
    (p + 2 ^ k * f) ||| (q + 2 ^ k * g) = (p ||| q) + 2 ^ k * (f ||| g) :=
  bits_add_two_pow_mul testBit_or hp hq (or_lt_two_pow hp hq) f g

theorem xor_add_two_pow_mul (hp : p < 2 ^ k) (f g : Nat) :
    (2 ^ k * g) ^^^ (p + 2 ^ k * f) = p + 2 ^ k * (g ^^^ f) := by
  simpa using bits_add_two_pow_mul Nat.testBit_xor (Nat.two_pow_pos k) hp (by simpa) g f

end Fields

end EseLinux.BitField

/-!
Little-endian numbers: lists of bytes as numbers, and masks and shifts of machine words read
on the digits of the word in a base that is a power of two.
-/

namespace EseLinux.DigitList

open List
open Nat (ofDigits)

def leNat (bytes : List UInt8) : Nat := ofDigits 256 (bytes.map UInt8.toNat)

def leBytes : Nat → Nat → List UInt8
  | 0, _ => []
  | n + 1, v => UInt8.ofNat v :: leBytes n (v / 256)

@[simp] theorem leNat_nil : leNat [] = 0 := rfl

theorem leNat_cons (b : UInt8) (bytes : List UInt8) :
    leNat (b :: bytes) = b.toNat + 256 * leNat bytes := by
  simp [leNat, Nat.ofDigits_cons]

theorem leNat_append (bytes bytes' : List UInt8) :
    leNat (bytes ++ bytes') = leNat bytes + 256 ^ bytes.length * leNat bytes' := by
  simp [leNat, Nat.ofDigits_append]

theorem mem_toNat_lt {bytes : List UInt8} {d : Nat} (h : d ∈ bytes.map UInt8.toNat) :
    d < 256 := by
  obtain ⟨b, -, rfl⟩ := mem_map.mp h
  exact b.toNat_lt

variable (bytes : List UInt8)

theorem leNat_lt : leNat bytes < 256 ^ bytes.length := by
  have h := Nat.ofDigits_lt_base_pow_length (b := 256) (l := bytes.map UInt8.toNat)
    (by decide) fun d hd => mem_toNat_lt hd
  rwa [length_map] at h

@[simp] theorem leBytes_length (n v : Nat) : (leBytes n v).length = n := by
  induction n generalizing v with
  | zero => rfl
  | succ n ih => simp [leBytes, ih]

theorem leNat_leBytes (n v : Nat) : leNat (leBytes n v) = v % 256 ^ n := by
  induction n generalizing v with
  | zero => simp [leBytes, Nat.mod_one]
  | succ n ih =>
    rw [leBytes, leNat_cons, ih, UInt8.toNat_ofNat', pow_succ' 256 n, Nat.mod_mul]

theorem leNat_leBytes_of_lt {n v : Nat} (h : v < 256 ^ n) : leNat (leBytes n v) = v := by
  rw [leNat_leBytes, Nat.mod_eq_of_lt h]

theorem leBytes_succ (n v : Nat) :
    leBytes (n + 1) v = leBytes n v ++ [UInt8.ofNat (v / 256 ^ n)] := by
  induction n generalizing v with
  | zero => simp [leBytes]
  | succ n ih =>
    rw [leBytes, ih, leBytes, cons_append, Nat.div_div_eq_div_mul, pow_succ' 256 n]

theorem leBytes_leNat : leBytes bytes.length (leNat bytes) = bytes := by
  induction bytes with
  | nil => rfl
  | cons b bytes ih =>
    have hb := b.toNat_lt
    have hmod : (b.toNat + 256 * leNat bytes) % 256 = b.toNat := by omega
    have hdiv : (b.toNat + 256 * leNat bytes) / 256 = leNat bytes := by omega
    have hbyte : UInt8.ofNat (b.toNat + 256 * leNat bytes) = b := by
      apply UInt8.toNat_inj.mp
      rw [UInt8.toNat_ofNat']
      exact hmod
    rw [length_cons, leBytes, leNat_cons, hdiv, ih, hbyte]

theorem leNat_div_mod (i n : Nat) :
    leNat bytes / 256 ^ i % 256 ^ n = leNat ((bytes.drop i).take n) := by
  have hi := Nat.ofDigits_div_pow_eq_ofDigits_drop (p := 256) i (by decide)
    (bytes.map UInt8.toNat) fun d hd => mem_toNat_lt hd
  have hn := Nat.ofDigits_mod_pow_eq_ofDigits_take (p := 256) n (by decide)
    ((bytes.drop i).map UInt8.toNat) fun d hd => mem_toNat_lt hd
  rw [leNat, hi, ← map_drop, hn, ← map_take, leNat]

theorem leNat_take_succ (i n : Nat) : leNat ((bytes.drop i).take (n + 1)) =
      (bytes.getD i 0).toNat + 256 * leNat ((bytes.drop (i + 1)).take n) := by
  rcases lt_or_ge i bytes.length with hi | hi
  · rw [drop_eq_getElem_cons hi, take_succ_cons, leNat_cons, getD_eq_getElem _ _ hi]
  · rw [drop_eq_nil_of_le hi, drop_eq_nil_of_le (Nat.le_succ_of_le hi),
      getD_eq_default _ _ hi]
    simp

variable {xs : List Nat}

section Digits

variable {k : Nat}

theorem ofDigits_and {ys : List Nat} (hxs : ∀ x ∈ xs, x < 2 ^ k) (hys : ∀ y ∈ ys, y < 2 ^ k) :
    ofDigits (2 ^ k) xs &&& ofDigits (2 ^ k) ys =
      ofDigits (2 ^ k) (zipWith (· &&& ·) xs ys) := by
  induction xs generalizing ys with
  | nil => simp
  | cons x xs ih =>
    rcases ys with _ | ⟨y, ys⟩
    · simp
    · have hx := hxs x mem_cons_self
      have hy := hys y mem_cons_self
      have hrest := ih (fun z hz => hxs z (mem_cons_of_mem _ hz))
        fun z hz => hys z (mem_cons_of_mem _ hz)
      simp only [Nat.ofDigits_cons, zipWith_cons_cons, ← hrest]
      exact BitField.and_add_two_pow_mul hx hy _ _

theorem leNat_and (xs ys : List UInt8) :
    leNat xs &&& leNat ys = leNat (zipWith (· &&& ·) xs ys) := by
  have hdigits (bytes : List UInt8) : ∀ d ∈ bytes.map UInt8.toNat, d < 2 ^ 8 :=
    fun _ => mem_toNat_lt
  have hand := ofDigits_and (hdigits xs) (hdigits ys)
  refine hand.trans (congrArg (ofDigits 256) ?_)
  rw [zipWith_map, map_zipWith]
  simp only [UInt8.toNat_and]

theorem ofDigits_or {ys : List Nat} (hxs : ∀ x ∈ xs, x < 2 ^ k) (hys : ∀ y ∈ ys, y < 2 ^ k)
    (hlen : xs.length = ys.length) : ofDigits (2 ^ k) xs ||| ofDigits (2 ^ k) ys =
      ofDigits (2 ^ k) (zipWith (· ||| ·) xs ys) := by
  induction xs generalizing ys with
  | nil => simp [eq_nil_of_length_eq_zero hlen.symm]
  | cons x xs ih =>
    rcases ys with _ | ⟨y, ys⟩
    · simp at hlen
    · have hx := hxs x mem_cons_self
      have hy := hys y mem_cons_self
      have hrest := ih (fun z hz => hxs z (mem_cons_of_mem _ hz))
        (fun z hz => hys z (mem_cons_of_mem _ hz)) (Nat.succ.inj hlen)
      simp only [Nat.ofDigits_cons, zipWith_cons_cons, ← hrest]
      exact BitField.or_add_two_pow_mul hx hy _ _

theorem ofDigits_eq_zero {b : Nat} (hb : 0 < b) : ofDigits b xs = 0 ↔ ∀ x ∈ xs, x = 0 := by
  induction xs with
  | nil => simp
  | cons x xs ih =>
    have hbne : b ≠ 0 := pos_iff_ne_zero.mp hb
    simp [Nat.ofDigits_cons, ih, hbne]

theorem ofDigits_append_singleton (b x : Nat) (xs : List Nat) :
    ofDigits b (xs ++ [x]) = ofDigits b xs + b ^ xs.length * x := by
  rw [Nat.ofDigits_append, Nat.ofDigits_singleton]

theorem ofDigits_digit {b : Nat} (hb : 1 < b) (hxs : ∀ x ∈ xs, x < b) (i : Nat) :
    ofDigits b xs / b ^ i % b = xs.getD i 0 := by
  rw [Nat.ofDigits_div_pow_eq_ofDigits_drop i (by omega) xs hxs]
  rcases lt_or_ge i xs.length with hi | hi
  · rw [drop_eq_getElem_cons hi, Nat.ofDigits_cons, Nat.add_mul_mod_self_left,
      Nat.mod_eq_of_lt (hxs _ (getElem_mem hi)), getD_eq_getElem _ _ hi]
  · rw [drop_eq_nil_of_le hi, getD_eq_default _ _ hi]
    simp

end Digits

def lowBits (n v : Nat) : List Bool := (range n).map v.testBit

def ofBits (bits : List Bool) : Nat := ofDigits 2 (bits.map Bool.toNat)

/-- Eight bits to a byte, the lowest first; the last byte is filled up with zeros. -/
def bytesOfBits (bits : List Bool) : List UInt8 :=
  (range ((bits.length + 7) / 8)).map fun i =>
    UInt8.ofNat (ofBits ((bits.drop (8 * i)).take 8))

theorem bit_toNat_lt {bits : List Bool} {d : Nat} (h : d ∈ bits.map Bool.toNat) : d < 2 := by
  obtain ⟨b, -, rfl⟩ := mem_map.mp h
  exact b.toNat_lt

theorem ofBits_lowBits (n v : Nat) : ofBits (lowBits n v) = v % 2 ^ n := by
  induction n with
  | zero => simp [ofBits, lowBits, Nat.mod_one]
  | succ n ih =>
    rw [ofBits, lowBits, range_succ, map_append, map_append, map_singleton,
      map_singleton, ofDigits_append_singleton, Nat.toNat_testBit, Nat.mod_pow_succ]
    simp only [length_map, length_range]
    rw [← ih, ofBits, lowBits]

theorem ofBits_flatMap {k : Nat} (hxs : ∀ x ∈ xs, x < 2 ^ k) :
    ofBits (xs.flatMap (lowBits k)) = ofDigits (2 ^ k) xs := by
  induction xs with
  | nil => rfl
  | cons x xs ih =>
    have hx := Nat.mod_eq_of_lt (hxs x mem_cons_self)
    have hrest := ih fun y hy => hxs y (mem_cons_of_mem _ hy)
    rw [ofBits] at hrest
    have hfirst := ofBits_lowBits k x
    rw [ofBits] at hfirst
    rw [flatMap_cons, ofBits, map_append, Nat.ofDigits_append, hrest, hfirst, hx,
      Nat.ofDigits_cons]
    simp [lowBits]

theorem leBytes_eq_map (n v : Nat) :
    leBytes n v = (range n).map fun i => UInt8.ofNat (v / 256 ^ i) := by
  induction n with
  | zero => rfl
  | succ n ih => rw [leBytes_succ, ih, range_succ, map_append, map_singleton]

theorem bytesOfBits_eq (bits : List Bool) :
    bytesOfBits bits = leBytes ((bits.length + 7) / 8) (ofBits bits) := by
  rw [bytesOfBits, leBytes_eq_map]
  refine map_congr_left fun i _ => UInt8.toNat_inj.mp ?_
  have hdrop := Nat.ofDigits_div_pow_eq_ofDigits_drop (p := 2) (8 * i) (by decide)
    (bits.map Bool.toNat) fun d hd => bit_toNat_lt hd
  have htake := Nat.ofDigits_mod_pow_eq_ofDigits_take (p := 2) 8 (by decide)
    ((bits.drop (8 * i)).map Bool.toNat) fun d hd => bit_toNat_lt hd
  rw [UInt8.toNat_ofNat', UInt8.toNat_ofNat', ofBits, map_take, ← htake, map_drop,
    ← hdrop, ofBits, pow_mul, Nat.mod_mod]
  rfl

end EseLinux.DigitList
