import EseLinux.SevenBit

/-!
What the packing loops write: the payload, read as a number in base 256, is the number whose
digits in base 128 are the characters.
-/

namespace EseLinux.SevenBit

open ByteMemory DigitList List Nat

/-- A QWORD whose low characters are squeezed to 7 bits and whose other bytes are as they
were. -/
structure Squeezed (qw : Nat) (chars : List Nat) (bytes : List UInt8) : Prop where
  value : qw = ofDigits 128 chars + 128 ^ chars.length * leNat bytes
  chars_lt : ∀ c ∈ chars, c < 128
  bytes_lt : ∀ b ∈ bytes, b.toNat < 128
  size : 7 * chars.length + 8 * bytes.length ≤ 64

variable {n : Nat}

theorem maskAndShift_eq {low d rest : Nat} (hlow : low < 2 ^ n) (hd : d < 128)
    (hn : n + 7 ≤ 64) (hsize : low + 2 ^ n * (d + 256 * rest) < 2 ^ 64) :
    ascii7BitMaskAndShift (low + 2 ^ n * (d + 256 * rest)) (nBitMask (n + 7)) =
      low + 2 ^ n * d + 2 ^ (n + 7) * rest := by
  have hpow : 2 ^ (n + 7) = 2 ^ n * 128 := by rw [Nat.pow_add]
  have hchar : low + 2 ^ n * d < 2 ^ (n + 7) :=
    calc
      low + 2 ^ n * d < 2 ^ n * (d + 1) := by rw [mul_succ]; omega
      _ ≤ 2 ^ n * 128 := mul_le_mul_left _ hd
      _ = 2 ^ (n + 7) := hpow.symm
  have hsplit : low + 2 ^ n * (d + 256 * rest) = (low + 2 ^ n * d) + 2 ^ (n + 7) * (2 * rest) := by
    rw [hpow]
    ring
  rw [ascii7BitMaskAndShift, nBitMask, and_two_pow_sub_one_eq_mod,
    BitField.and_xor_mask _ 64 (n + 7) (lt_of_le_of_lt (shiftRight_le _ _) hsize) hn,
    Nat.or_comm, ← Nat.two_pow_add_eq_or_of_lt (Nat.mod_lt _ (Nat.two_pow_pos _)), hsplit,
    add_mul_mod_self_left, mod_eq_of_lt hchar, shiftRight_eq_div_pow, pow_one,
    Nat.div_div_eq_div_mul, mul_comm 2 (2 ^ (n + 7)), ← Nat.div_div_eq_div_mul,
    Nat.add_mul_div_left _ _ (Nat.two_pow_pos _), Nat.div_eq_of_lt hchar, zero_add,
    Nat.mul_div_cancel_left _ (by decide), add_comm]

theorem two_pow_seven_mul (n : Nat) : 2 ^ (7 * n) = 128 ^ n := by
  rw [Nat.pow_mul]

variable {bytes : List UInt8}

theorem Squeezed.step {qw : Nat} {chars : List Nat} {b : UInt8}
    (h : Squeezed qw chars (b :: bytes)) :
    Squeezed (ascii7BitMaskAndShift qw (nBitMask (7 * chars.length + 7)))
      (chars ++ [b.toNat]) bytes := by
  have hsize := h.size
  have hlow : ofDigits 128 chars < 2 ^ (7 * chars.length) := by
    rw [two_pow_seven_mul]
    exact ofDigits_lt_base_pow_length (by decide) h.chars_lt
  have hb : b.toNat < 128 := h.bytes_lt b mem_cons_self
  have hbound : ofDigits 128 chars + 2 ^ (7 * chars.length) * leNat (b :: bytes) < 2 ^ 64 :=
    calc
      ofDigits 128 chars + 2 ^ (7 * chars.length) * leNat (b :: bytes)
          < 2 ^ (7 * chars.length) * (leNat (b :: bytes) + 1) := by rw [mul_succ]; omega
      _ ≤ 2 ^ (7 * chars.length) * 2 ^ (8 * (b :: bytes).length) := by
          apply Nat.mul_le_mul_left
          rw [pow_mul]
          exact leNat_lt (b :: bytes)
      _ ≤ 2 ^ 64 := by
          rw [← pow_add]
          exact Nat.pow_le_pow_right (by decide) hsize
  rw [length_cons] at hsize
  rw [leNat_cons] at hbound
  refine ⟨?_, ?_, fun x hx => h.bytes_lt x (mem_cons_of_mem _ hx), ?_⟩
  · rw [h.value, leNat_cons, ← two_pow_seven_mul,
      maskAndShift_eq hlow hb (by omega) hbound, ofDigits_append_singleton,
      length_append, ← two_pow_seven_mul, ← two_pow_seven_mul]
    rfl
  · intro c hc
    rcases mem_append.mp hc with hc | hc
    · exact h.chars_lt c hc
    · rw [mem_singleton.mp hc]
      exact hb
  · rw [length_append, length_singleton]
    omega

theorem swapBlocks_ofDigits (xs high low down up : List Nat) (shf : Nat)
    (hxs : ∀ x ∈ xs, x < 128) (hhigh : ∀ x ∈ high, x < 128) (hlow : ∀ x ∈ low, x < 128)
    (hdown : ofDigits 128 (zipWith (· &&& ·) xs high) / 2 ^ shf = ofDigits 128 down)
    (hup : ofDigits 128 (zipWith (· &&& ·) xs low) * 2 ^ shf = ofDigits 128 up)
    (hdownlt : ∀ x ∈ down, x < 128) (huplt : ∀ x ∈ up, x < 128)
    (hlen : down.length = up.length) (hup9 : up.length ≤ 9) :
    swapBlocks (ofDigits 128 xs) (ofDigits 128 high) (ofDigits 128 low) shf =
      ofDigits 128 (zipWith (· ||| ·) down up) := by
  have hand (ys : List Nat) (hys : ∀ y ∈ ys, y < 128) : ofDigits 128 xs &&& ofDigits 128 ys =
      ofDigits 128 (zipWith (· &&& ·) xs ys) := @ofDigits_and xs 7 ys hxs hys
  have hor : ofDigits 128 down ||| ofDigits 128 up =
      ofDigits 128 (zipWith (· ||| ·) down up) := @ofDigits_or down 7 up hdownlt huplt hlen
  have hlt : ofDigits 128 up < 2 ^ 64 :=
    calc
      ofDigits 128 up < 128 ^ up.length := ofDigits_lt_base_pow_length (by decide) huplt
      _ ≤ 128 ^ 9 := Nat.pow_le_pow_right (by decide) hup9
      _ ≤ 2 ^ 64 := by decide
  rw [swapBlocks, hand high hhigh, hand low hlow, shiftRight_eq_div_pow, shiftLeft_eq,
    hdown, hup, mod_eq_of_lt hlt, hor]

theorem and_ones {x : Nat} (hx : x < 128) : x &&& 127 = x :=
  and_two_pow_sub_one_of_lt_two_pow (n := 7) hx

theorem reverseEightCompressedBytes_ofDigits {a b c d e f g h : Nat}
    (hlt : ∀ x ∈ [a, b, c, d, e, f, g, h], x < 128) :
    reverseEightCompressedBytes (ofDigits 128 [a, b, c, d, e, f, g, h]) =
      ofDigits 128 [h, g, f, e, d, c, b, a] := by
  have hmask₁ : qwMask 0 14 28 42 = ofDigits 128 [127, 0, 127, 0, 127, 0, 127, 0] := by decide
  have hmask₂ : qwMask 7 21 35 49 = ofDigits 128 [0, 127, 0, 127, 0, 127, 0, 127] := by decide
  have hmask₃ : qwMask 0 7 28 35 = ofDigits 128 [127, 127, 0, 0, 127, 127, 0, 0] := by decide
  have hmask₄ : qwMask 14 21 42 49 = ofDigits 128 [0, 0, 127, 127, 0, 0, 127, 127] := by decide
  have hmask₅ : qwMask 0 7 14 21 = ofDigits 128 [127, 127, 127, 127, 0, 0, 0, 0] := by decide
  have hmask₆ : qwMask 28 35 42 49 = ofDigits 128 [0, 0, 0, 0, 127, 127, 127, 127] := by decide
  rw [reverseEightCompressedBytes, hmask₁, hmask₂, hmask₃, hmask₄, hmask₅, hmask₆]
  rw [swapBlocks_ofDigits [a, b, c, d, e, f, g, h] _ _ [b, 0, d, 0, f, 0, h, 0]
      [0, a, 0, c, 0, e, 0, g] 7 (by simp [*]) (by simp) (by simp)
      (by simp [ofDigits_cons, and_ones, *])
      (by simp [ofDigits_cons, and_ones, *]; omega) (by simp [*]) (by simp [*]) rfl (by simp)]
  simp only [zipWith_cons_cons, zipWith_nil_left, or_zero, zero_or]
  rw [swapBlocks_ofDigits [b, a, d, c, f, e, h, g] _ _ [d, c, 0, 0, h, g, 0, 0]
      [0, 0, b, a, 0, 0, f, e] 14 (by simp [*]) (by simp) (by simp)
      (by simp [ofDigits_cons, and_ones, *]; omega)
      (by simp [ofDigits_cons, and_ones, *]; omega) (by simp [*]) (by simp [*]) rfl (by simp)]
  simp only [zipWith_cons_cons, zipWith_nil_left, or_zero, zero_or]
  rw [swapBlocks_ofDigits [d, c, b, a, h, g, f, e] _ _ [h, g, f, e, 0, 0, 0, 0]
      [0, 0, 0, 0, d, c, b, a] 28 (by simp [*]) (by simp) (by simp)
      (by simp [ofDigits_cons, and_ones, *]; omega)
      (by simp [ofDigits_cons, and_ones, *]; omega) (by simp [*]) (by simp [*]) rfl (by simp)]
  simp only [zipWith_cons_cons, zipWith_nil_left, or_zero, zero_or]

theorem compressQword_eq (hlen : bytes.length = 8) (hlt : ∀ b ∈ bytes, b.toNat < 128) :
    compressQword (leNat bytes) = ofDigits 128 (bytes.map UInt8.toNat) := by
  obtain ⟨a, b, c, d, e, f, g, h, rfl⟩ : ∃ a b c d e f g h, bytes = [a, b, c, d, e, f, g, h] := by
    match bytes, hlen with
    | [a, b, c, d, e, f, g, h], _ => exact ⟨a, b, c, d, e, f, g, h, rfl⟩
  have hreverse : reverseEightBytes (leNat [a, b, c, d, e, f, g, h]) =
      leNat [h, g, f, e, d, c, b, a] := by
    have hbytes : leBytes 8 (leNat [a, b, c, d, e, f, g, h]) = [a, b, c, d, e, f, g, h] :=
      leBytes_leNat [a, b, c, d, e, f, g, h]
    rw [reverseEightBytes, hbytes]
    rfl
  have hstart : Squeezed (leNat [h, g, f, e, d, c, b, a]) [] [h, g, f, e, d, c, b, a] := by
    refine ⟨by simp, by simp, ?_, by simp⟩
    intro x hx
    exact hlt x (mem_reverse.mp hx)
  have hdone := hstart.step.step.step.step.step.step.step
  have hchars x (hx : x ∈ [h, g, f, e, d, c, b, a].map UInt8.toNat) : x < 128 := by
    obtain ⟨y, hy, rfl⟩ := mem_map.mp hx
    exact hlt y (mem_reverse.mp hy)
  have hvalue := hdone.value
  simp only [nil_append, cons_append, length_cons, length_nil] at hvalue
  rw [compressQword, hreverse]
  simp only [hvalue]
  have hlast : ofDigits 128 [h.toNat, g.toNat, f.toNat, e.toNat, d.toNat, c.toNat, b.toNat] +
      128 ^ 7 * leNat [a] = ofDigits 128 ([h, g, f, e, d, c, b, a].map UInt8.toNat) := by
    simp [ofDigits_cons, leNat_cons]
    ring
  exact (congrArg reverseEightCompressedBytes hlast).trans
    (reverseEightCompressedBytes_ofDigits hchars)

namespace Packer

/-- The number written so far, with the bits that are still in the DWORD. -/
def value (p : Packer) : Nat :=
  leNat (slice p.m 1 (p.ibOutput - 1)) + 256 ^ (p.ibOutput - 1) * p.dwOutput

def bits (p : Packer) : Nat := 8 * (p.ibOutput - 1) + p.ibitOutputCurr

structure Ok (p : Packer) : Prop where
  start : 1 ≤ p.ibOutput
  ibit_lt : p.ibitOutputCurr < 32
  dw_lt : p.dwOutput < 2 ^ p.ibitOutputCurr

/-- `p'` has written the `n` bits of `i` after what `p` has written. -/
structure Appends (p p' : Packer) (i n : Nat) : Prop where
  ok : p'.Ok
  value_eq : p'.value = p.value + 2 ^ p.bits * i
  bits_eq : p'.bits = p.bits + n
  place_eq : p'.ibOutput % 4 = p.ibOutput % 4

theorem Appends.trans {p p' p'' : Packer} {i j k : Nat} (h : Appends p p' i n)
    (h' : Appends p' p'' j k) : Appends p p'' (i + 2 ^ n * j) (n + k) where
  ok := h'.ok
  value_eq := by
    rw [h'.value_eq, h.value_eq, h.bits_eq, pow_add]
    ring
  bits_eq := by rw [h'.bits_eq, h.bits_eq, add_assoc]
  place_eq := h'.place_eq.trans h.place_eq

theorem leNat_slice_store (m : Memory) {a : Nat} (bytes : List UInt8) (ha : n = a - 1)
    (hpos : 1 ≤ a) : leNat (slice (store m a bytes) 1 (n + bytes.length)) =
      leNat (slice m 1 n) + 256 ^ n * leNat bytes := by
  have hbelow : slice (store m a bytes) 1 n = slice m 1 n :=
    (store_agreeOn m a bytes 1 n (by omega)).slice_eq
  have hplace : 1 + n = a := by omega
  rw [← slice_append, leNat_append, slice_length, hbelow, hplace, slice_store]

theorem writeFull_appends {p : Packer} (hstart : 1 ≤ p.ibOutput) (hibit : p.ibitOutputCurr ≤ 32)
    (hdw : p.dwOutput < 2 ^ p.ibitOutputCurr) : Appends p p.writeFull 0 0 := by
  rcases lt_or_eq_of_le hibit with hlt | heq
  · rw [writeFull, if_neg (by omega)]
    exact ⟨⟨hstart, hlt, hdw⟩, by simp, rfl, rfl⟩
  · rw [heq] at hdw
    have hplace : p.ibOutput + 4 - 1 = (p.ibOutput - 1) + (leBytes 4 p.dwOutput).length := by
      rw [leBytes_length]
      omega
    rw [writeFull, if_pos heq]
    refine ⟨⟨le_add_right_of_le hstart, by simp, by simp⟩, ?_, ?_, add_mod_right _ _⟩
    · simp only [value, mul_zero, add_zero]
      rw [hplace, leNat_slice_store p.m _ rfl hstart, leNat_leBytes_of_lt hdw]
    · simp only [bits, heq]
      omega

theorem or_shiftLeft {dw : Nat} (hdw : dw < 2 ^ n) (f : Nat) : dw ||| f <<< n = dw + 2 ^ n * f := by
  rw [Nat.shiftLeft_eq, mul_comm f, Nat.or_comm, ← Nat.two_pow_add_eq_or_of_lt hdw, add_comm]

theorem copyBits_appends {p : Packer} (hp : p.Ok) (i n : Nat) (hn : p.ibitOutputCurr + n ≤ 32) :
    Appends p
      (writeFull
        { p with
          dwOutput := p.dwOutput ||| ((i &&& (2 ^ n - 1)) <<< p.ibitOutputCurr)
          ibitOutputCurr := p.ibitOutputCurr + n })
      (i % 2 ^ n) n := by
  have hlow : i % 2 ^ n < 2 ^ n := Nat.mod_lt _ (Nat.two_pow_pos n)
  have hdw : p.dwOutput ||| ((i &&& (2 ^ n - 1)) <<< p.ibitOutputCurr) =
      p.dwOutput + 2 ^ p.ibitOutputCurr * (i % 2 ^ n) := by
    rw [and_two_pow_sub_one_eq_mod, or_shiftLeft hp.dw_lt]
  have hdwlt : p.dwOutput + 2 ^ p.ibitOutputCurr * (i % 2 ^ n) < 2 ^ (p.ibitOutputCurr + n) :=
    calc
      p.dwOutput + 2 ^ p.ibitOutputCurr * (i % 2 ^ n)
          < 2 ^ p.ibitOutputCurr * (i % 2 ^ n + 1) := by
            rw [mul_succ]
            have hdw_lt := hp.dw_lt
            omega
      _ ≤ 2 ^ p.ibitOutputCurr * 2 ^ n := mul_le_mul_left _ hlow
      _ = 2 ^ (p.ibitOutputCurr + n) := (pow_add _ _ _).symm
  rw [hdw]
  obtain ⟨hok, hvalue, hbits, hplace⟩ := writeFull_appends
    (p := { p with dwOutput := p.dwOutput + 2 ^ p.ibitOutputCurr * (i % 2 ^ n),
                   ibitOutputCurr := p.ibitOutputCurr + n }) hp.start hn hdwlt
  refine ⟨hok, ?_, ?_, hplace⟩
  · rw [hvalue]
    simp only [value, bits, mul_zero, add_zero, pow_add, pow_mul]
    ring
  · rw [hbits]
    simp only [bits]
    omega

end Packer

open Packer

theorem packBits_appends (rounds i n : Nat) {p : Packer} (hp : p.Ok) (hn : 0 < n)
    (hrounds : n ≤ rounds) (hi : i < 2 ^ n) : Appends p (packBits rounds i n p) i n := by
  induction rounds generalizing i n p with
  | zero => omega
  | succ rounds ih =>
    have hibit := hp.ibit_lt
    rw [packBits]
    generalize hcopy : min n (32 - p.ibitOutputCurr) = k
    have hround := copyBits_appends hp i k (by omega)
    rcases eq_or_lt_of_le (zero_le (n - k)) with hdone | hmore
    · have hk : k = n := by omega
      subst hk
      rw [mod_eq_of_lt hi] at hround
      simpa only [if_pos hdone.symm] using hround
    · -- the bits that are left form a number of their own
      have hrest : i / 2 ^ k < 2 ^ (n - k) := by
        apply Nat.div_lt_of_lt_mul
        rwa [← Nat.pow_add, Nat.add_sub_cancel' (by omega)]
      have hnext := ih (i / 2 ^ k) (n - k) hround.ok hmore (by omega) hrest
      have hboth := hround.trans hnext
      rw [Nat.mod_add_div, Nat.add_sub_cancel' (by omega)] at hboth
      simpa only [if_neg hmore.ne', shiftRight_eq_div_pow] using hboth

/-- The packer has written the characters `chars`. -/
structure Packed (p : Packer) (chars : List Nat) : Prop where
  ok : p.Ok
  value_eq : p.value = ofDigits 128 chars
  bits_eq : p.bits = 7 * chars.length

theorem packed_start (m : Memory) : Packed ⟨m, 1, 0, 0⟩ [] :=
  ⟨⟨by simp, by simp, by simp⟩, by simp [Packer.value], by simp [Packer.bits]⟩

theorem Packed.append {p p' : Packer} {chars : List Nat} {i : Nat} (h : Packed p chars)
    (h' : Appends p p' i 7) : Packed p' (chars ++ [i]) where
  ok := h'.ok
  value_eq := by
    rw [h'.value_eq, h.value_eq, h.bits_eq, two_pow_seven_mul, ofDigits_append_singleton]
  bits_eq := by
    rw [h'.bits_eq, h.bits_eq, length_append, length_singleton]
    omega

theorem packChars_packed (more : List Nat) {p : Packer} {chars : List Nat} (h : Packed p chars)
    (hmore : ∀ c ∈ more, c < 128) :
    Packed (packChars more p) (chars ++ more) ∧
      (packChars more p).ibOutput % 4 = p.ibOutput % 4 := by
  induction more generalizing p chars with
  | nil => simpa [packChars] using h
  | cons c more ih =>
    have hchar := packBits_appends 7 c 7 h.ok (by decide) (by decide)
      (hmore c mem_cons_self)
    obtain ⟨hpacked, hplace⟩ := ih (h.append hchar) fun x hx =>
      hmore x (mem_cons_of_mem _ hx)
    rw [append_assoc] at hpacked
    exact ⟨hpacked, hplace.trans hchar.place_eq⟩

theorem Packed.appendQword {p : Packer} {chars : List Nat} (h : Packed p chars)
    (hibit : p.ibitOutputCurr = 0) (hlen : bytes.length = 8) (hlt : ∀ b ∈ bytes, b.toNat < 128) :
    Packed
      { p with
        m := store p.m p.ibOutput (leBytes 8 (compressQword (leNat bytes)))
        ibOutput := p.ibOutput + 7 }
      (chars ++ bytes.map UInt8.toNat) := by
  have hstart := h.ok.start
  have hdw : p.dwOutput = 0 := by
    have hlt := h.ok.dw_lt
    rw [hibit] at hlt
    omega
  have hqw : ofDigits 128 (bytes.map UInt8.toNat) < 256 ^ 7 := by
    have hbound := Nat.ofDigits_lt_base_pow_length (b := 128) (l := bytes.map UInt8.toNat)
      (by decide) fun d hd => by
        obtain ⟨b, hb, rfl⟩ := mem_map.mp hd
        exact hlt b hb
    rw [length_map, hlen] at hbound
    exact hbound
  have hplace : p.ibOutput + 7 - 1 = p.ibOutput - 1 +
      (leBytes 7 (ofDigits 128 (bytes.map UInt8.toNat))).length := by
    rw [leBytes_length]
    omega
  have hvalue := h.value_eq
  have hbits := h.bits_eq
  rw [Packer.value, hdw, mul_zero, add_zero] at hvalue
  rw [Packer.bits, hibit] at hbits
  have hpow : 256 ^ (p.ibOutput - 1) = 128 ^ chars.length := by
    rw [← two_pow_seven_mul, ← hbits, add_zero, Nat.pow_mul]
  refine ⟨⟨Nat.le_add_right_of_le hstart, h.ok.ibit_lt, h.ok.dw_lt⟩, ?_, ?_⟩
  · rw [compressQword_eq hlen hlt, leBytes_succ, ← store_append]
    have hlast := store_agreeOn
      (store p.m p.ibOutput (leBytes 7 (ofDigits 128 (bytes.map UInt8.toNat))))
      (p.ibOutput + (leBytes 7 (ofDigits 128 (bytes.map UInt8.toNat))).length)
      [UInt8.ofNat (ofDigits 128 (bytes.map UInt8.toNat) / 256 ^ 7)] 1 (p.ibOutput + 7 - 1)
      (by rw [leBytes_length]; omega)
    rw [Packer.value, hdw, mul_zero, add_zero, hlast.slice_eq, hplace,
      leNat_slice_store p.m _ rfl hstart, leNat_leBytes_of_lt hqw, hvalue, hpow,
      Nat.ofDigits_append]
  · simp only [Packer.bits, length_append, length_map, hlen, hibit]
    omega

theorem packQwords_packed (n : Nat) {data : List UInt8} {p : Packer} {chars : List Nat}
    (h : Packed p chars) (hibit : p.ibitOutputCurr = 0) (hn : 8 * n ≤ data.length)
    (hlt : ∀ b ∈ data, b.toNat < 128) :
    ∃ p', packQwords n data p = (data.drop (8 * n), p') ∧
      Packed p' (chars ++ (data.take (8 * n)).map UInt8.toNat) := by
  induction n generalizing data p chars with
  | zero => exact ⟨p, by simp [packQwords], by simpa using h⟩
  | succ n ih =>
    have hlen : (data.take 8).length = 8 := by
      rw [length_take]
      omega
    have hqword := h.appendQword hibit hlen fun b hb => hlt b (mem_of_mem_take hb)
    obtain ⟨p', heq, hpacked⟩ := @ih (data.drop 8) _ _ hqword hibit
      (by rw [length_drop]; omega) fun b hb => hlt b (mem_of_mem_drop hb)
    have hsum : 8 * (n + 1) = 8 + 8 * n := by omega
    rw [append_assoc, ← map_append, ← take_add] at hpacked
    rw [packQwords, heq, drop_drop, hsum]
    exact ⟨p', rfl, hpacked⟩

end EseLinux.SevenBit
