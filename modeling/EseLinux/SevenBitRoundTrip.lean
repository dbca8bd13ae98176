import EseLinux.SevenBitPack

/-!
What is compressed to 7-bit characters is decompressed to the same data: into a buffer that is large
enough all of it, into a smaller one the bytes that fit.  The packed bytes are a stream of bits that
does not depend on the output buffer, though where the 64-bit loop stops does.
-/

namespace EseLinux.SevenBit

open ByteMemory DigitList List
open Nat (ofDigits)

theorem int32_eq (i : Int) :
    int32 i =
      if i % 4294967296 < 2147483648 then i % 4294967296 else i % 4294967296 - 4294967296 := by
  rw [int32, Int.bmod_def]
  rfl

theorem int32_of_lt {i : Int} (hlo : -2 ^ 31 ≤ i) (hhi : i < 2 ^ 31) : int32 i = i := by
  rw [int32_eq]
  omega

theorem int32_range (i : Int) : -2 ^ 31 ≤ int32 i ∧ int32 i < 2 ^ 31 := by
  rw [int32_eq]
  omega

theorem int32_le_sub {i : Int} (h : 2 ^ 31 ≤ i) : int32 i ≤ i - 2 ^ 32 := by
  rw [int32_eq]
  omega

theorem mul_tdiv_range (i : Int) {d : Int} (hd : 0 < d) :
    i - d < d * i.tdiv d ∧ d * i.tdiv d < i + d := by
  have hsplit := Int.mul_tdiv_add_tmod i d
  have hlt := Int.tmod_lt_of_pos i hd
  have hgt := Int.lt_tmod_of_pos i hd
  omega

theorem cbCompressed7BitAscii_le (cb : Nat) :
    cbCompressed7BitAscii cb ≤ ((7 * cb + 7) / 8 + 1 : Nat) := by
  have hle : int32 (cb * 7 + 7) ≤ cb * 7 + 7 := by
    rw [int32_eq]
    omega
  rw [cbCompressed7BitAscii]
  rcases Int.lt_or_le (int32 (cb * 7 + 7)) 0 with hneg | hnonneg
  · have hzero := (mul_tdiv_range (int32 (cb * 7 + 7)) (d := 8) (by decide)).2
    omega
  · rw [Int.tdiv_eq_ediv_of_nonneg hnonneg]
    omega

theorem lt_of_cbCompressed_lt {cb : Nat} (h : cbCompressed7BitAscii cb < cb) :
    1 + (7 * cb + 7) / 8 < cb := by
  rcases lt_or_ge cb (2 ^ 28) with hlt | hge
  · rw [cbCompressed7BitAscii, int32_of_lt (by omega) (by omega), Int.tdiv_eq_ediv_of_nonneg
      (by omega)] at h
    omega
  · omega

/-- A compressed value: the header byte, and the characters as one number in base 256. -/
structure Encoded (scheme : Scheme) (chars : List Nat) (out : List UInt8) : Prop where
  header : byteAt out 0 = scheme.bIdentifier * 8 + (7 * chars.length - 1) % 8
  value : leNat out.tail = ofDigits 128 chars
  length : out.length = 1 + (7 * chars.length + 7) / 8

variable {data : List UInt8} {fUnicodeOnly : Bool} {chars : List Nat} {p : Packer}

theorem Packed.flush (h : Packed p chars) :
    leNat (slice p.flush 1 (p.ibOutput - 1 + (p.ibitOutputCurr + 7) / 8)) = ofDigits 128 chars := by
  have hdw : p.dwOutput < 256 ^ ((p.ibitOutputCurr + 7) / 8) :=
    calc
      p.dwOutput < 2 ^ p.ibitOutputCurr := h.ok.dw_lt
      _ ≤ 2 ^ (8 * ((p.ibitOutputCurr + 7) / 8)) := Nat.pow_le_pow_right (by decide) (by omega)
      _ = 256 ^ ((p.ibitOutputCurr + 7) / 8) := by rw [Nat.pow_mul]
  have hslice := Packer.leNat_slice_store p.m (leBytes ((p.ibitOutputCurr + 7) / 8) p.dwOutput)
    rfl h.ok.start
  rw [leBytes_length, leNat_leBytes_of_lt hdw] at hslice
  rw [Packer.flush, hslice, ← h.value_eq, Packer.value]

theorem bSignature_toNat {scheme : Scheme} {ibit : Nat} :
    (bSignature scheme ibit).toNat = scheme.bIdentifier * 8 + (ibit - 1) % 8 := by
  have hlow : (ibit - 1) % 8 < 2 ^ 3 := Nat.mod_lt _ (by decide)
  have hid : scheme.bIdentifier ≤ 2 := by cases scheme <;> decide
  rw [bSignature, Nat.shiftLeft_eq, mul_comm _ (2 ^ 3), ← Nat.two_pow_add_eq_or_of_lt hlow,
    UInt8.toNat_ofNat']
  omega

theorem Packed.ibitLast (h : Packed p chars)
    (hne : chars ≠ []) : (p.ibitLast - 1) % 8 = (7 * chars.length - 1) % 8 := by
  have hbits := h.bits_eq
  have hpos := length_pos_of_ne_nil hne
  rw [Packer.bits] at hbits
  rw [Packer.ibitLast]
  split <;> omega

theorem Packed.encoded (h : Packed p chars) (hne : chars ≠ []) (scheme : Scheme) :
    Encoded scheme chars
      (slice (store p.flush 0 [bSignature scheme p.ibitLast]) 0
        (p.ibOutput + (p.ibitOutputCurr + 7) / 8)) := by
  have hstart := h.ok.start
  have hbits := h.bits_eq
  rw [Packer.bits] at hbits
  have hplace : p.ibOutput + (p.ibitOutputCurr + 7) / 8 =
      1 + (p.ibOutput - 1 + (p.ibitOutputCurr + 7) / 8) := by omega
  have hhead : slice (store p.flush 0 [bSignature scheme p.ibitLast]) 0 1 =
      [bSignature scheme p.ibitLast] := slice_store p.flush 0 [bSignature scheme p.ibitLast]
  have htail : slice (store p.flush 0 [bSignature scheme p.ibitLast]) (0 + 1)
      (p.ibOutput - 1 + (p.ibitOutputCurr + 7) / 8) =
      slice p.flush 1 (p.ibOutput - 1 + (p.ibitOutputCurr + 7) / 8) :=
    (store_agreeOn p.flush 0 _ _ _ (Or.inr (by simp))).slice_eq
  rw [hplace, ← slice_append, hhead, htail]
  refine ⟨?_, ?_, ?_⟩
  · rw [singleton_append, byteAt, getD_cons_zero, bSignature_toNat, h.ibitLast hne]
  · rw [singleton_append, tail_cons, h.flush]
  · rw [singleton_append, length_cons, slice_length]
    omega

theorem errCompress7BitAscii_encoded (hne : data ≠ [])
    (hlt : ∀ b ∈ data, b.toNat < 128) (m : Memory) {cbMax : Nat}
    (hmax : cbCompressed7BitAscii data.length ≤ (cbMax : Int)) :
    ∃ out, errCompress7BitAscii data m cbMax = (.success, out) ∧
      Encoded .compress7BitAscii (data.map UInt8.toNat) out := by
  have hrest : ∀ c ∈ (data.drop (8 * min (data.length / 8) ((cbMax - 1 - 1) / 7))).map UInt8.toNat,
      c < 128 := by
    intro c hc
    obtain ⟨b, hb, rfl⟩ := mem_map.mp hc
    exact hlt b (mem_of_mem_drop hb)
  obtain ⟨p, heq, hpacked⟩ := packQwords_packed (min (data.length / 8) ((cbMax - 1 - 1) / 7))
    (packed_start m) rfl (by omega) hlt
  have hall := (packChars_packed _ hpacked hrest).1
  rw [nil_append, ← map_append, take_append_drop] at hall
  rw [errCompress7BitAscii, if_neg (by omega)]
  simp only [heq]
  exact ⟨_, rfl, hall.encoded (by simpa using hne) .compress7BitAscii⟩

theorem errCompress7BitUnicode_encoded (hne : words data ≠ [])
    (hlt : ∀ c ∈ words data, c < 128) (m : Memory) {cbMax : Nat}
    (hmax : cbCompressed7BitUnicode data.length ≤ cbMax) :
    ∃ out, errCompress7BitUnicode data m cbMax = (.success, out) ∧
      Encoded .compress7BitUnicode (words data) out := by
  obtain ⟨hall, hplace⟩ := packChars_packed _ (packed_start m) hlt
  rw [nil_append] at hall
  have hbits := hall.bits_eq
  have hpos := length_pos_of_ne_nil hne
  have henc := hall.encoded hne .compress7BitUnicode
  rw [errCompress7BitUnicode, if_neg (by omega)]
  refine ⟨_, rfl, ?_⟩
  generalize packChars (words data) ⟨m, 1, 0, 0⟩ = p at *
  rw [Packer.bits] at hbits
  have hcb : 1 + (if p.ibitOutputCurr = 0 then (p.ibOutput - 1) / 4 - 1
      else (p.ibOutput - 1) / 4) * 4 + (p.ibitLast + 7) / 8 =
      p.ibOutput + (p.ibitOutputCurr + 7) / 8 := by
    simp only [] at hplace
    rw [Packer.ibitLast]
    split <;> omega
  simp only [hcb]
  exact henc

section Decode

variable {scheme : Scheme} {chars : List Nat} {out : List UInt8}

section

variable (h : Encoded scheme chars out)
include h

theorem Encoded.bIdentifier : byteAt out 0 >>> 3 = scheme.bIdentifier := by
  rw [h.header, Nat.shiftRight_eq_div_pow]
  omega

theorem Encoded.cbitTotal (hne : chars ≠ []) :
    SevenBit.cbitTotal out = int32 (7 * chars.length) := by
  have hpos := length_pos_of_ne_nil hne
  have hmask : byteAt out 0 &&& 7 = (7 * chars.length - 1) % 8 := by
    rw [Nat.and_two_pow_sub_one_eq_mod _ 3, h.header]
    omega
  have hlen := h.length
  rw [SevenBit.cbitTotal, hmask]
  refine congrArg int32 ?_
  omega

theorem Encoded.cTotal (hne : chars ≠ [])
    (hfits : 7 * chars.length < 2 ^ 31) : SevenBit.cTotal out = chars.length := by
  rw [SevenBit.cTotal, h.cbitTotal hne, int32_of_lt (by omega) (by omega)]
  exact Int.mul_tdiv_cancel_left _ (by decide)

theorem Encoded.cTotal_lt (hne : chars ≠ [])
    (hwraps : 2 ^ 31 ≤ 7 * chars.length) : SevenBit.cTotal out < chars.length := by
  have hle := int32_le_sub (i := 7 * chars.length) (by omega)
  have hdiv := (mul_tdiv_range (int32 (7 * chars.length)) (d := 7) (by decide)).2
  rw [SevenBit.cTotal, h.cbitTotal hne]
  omega

end

theorem div_mod_div_mod (x i s n : Nat) (hs : s + 7 ≤ n) :
    x / 2 ^ i % 2 ^ n / 2 ^ s % 2 ^ 7 = x / 2 ^ (i + s) % 2 ^ 7 := by
  have hn : 2 ^ n = 2 ^ s * 2 ^ (n - s) := by
    rw [← Nat.pow_add, Nat.add_sub_cancel' (by omega)]
  have hdvd : 2 ^ 7 ∣ 2 ^ (n - s) := Nat.pow_dvd_pow 2 (by omega)
  rw [hn, Nat.mod_mul_right_div_self, Nat.mod_mod_of_dvd _ hdvd, Nat.div_div_eq_div_mul,
    ← Nat.pow_add]

theorem byteAt_succ (out : List UInt8) (i : Nat) :
    byteAt out (i + 1) = (out.tail.getD i 0).toNat := by
  cases out <;> rfl

theorem getElem?_of_lt {pb : List UInt8} {ib : Nat} (hib : ib < pb.length) :
    pb[ib]? = some (pb.getD ib 0) := by
  rw [getElem?_eq_getElem hib, getD_eq_getElem _ _ hib]

theorem Encoded.bDecompressed (h : Encoded scheme chars out) (hlt : ∀ c ∈ chars, c < 128)
    {k : Nat} (hk : k < chars.length) :
    SevenBit.bDecompressed out (1 + 7 * k / 8) (7 * k % 8) =
      some (UInt8.ofNat (chars.getD k 0)) := by
  have hlen := h.length
  have hdigit : leNat out.tail / 2 ^ (8 * (7 * k / 8) + 7 * k % 8) % 2 ^ 7 = chars.getD k 0 := by
    rw [Nat.div_add_mod, two_pow_seven_mul, h.value]
    exact ofDigits_digit (by decide) hlt k
  have hbytes (n : Nat) (hn : 7 * k % 8 + 7 ≤ 8 * n) :
      leNat ((out.tail.drop (7 * k / 8)).take n) / 2 ^ (7 * k % 8) % 2 ^ 7 = chars.getD k 0 := by
    have hword := div_mod_div_mod (leNat out.tail) (8 * (7 * k / 8)) (7 * k % 8) (8 * n) hn
    rwa [hdigit, Nat.pow_mul, Nat.pow_mul, leNat_div_mod] at hword
  have hplace : 1 + 7 * k / 8 = 7 * k / 8 + 1 := add_comm _ _
  rw [SevenBit.bDecompressed, hplace]
  split
  · -- the character lies in one byte
    have hone := hbytes 1 (by omega)
    rw [leNat_take_succ, take_zero, leNat_nil, mul_zero, add_zero, ← byteAt_succ] at hone
    rw [getElem?_of_lt (by omega)]
    change some (UInt8.ofNat (byteAt out _ >>> _ &&& 127)) = _
    rw [Nat.shiftRight_eq_div_pow, Nat.and_two_pow_sub_one_eq_mod _ 7, hone]
  · have htwo := hbytes 2 (by omega)
    rw [leNat_take_succ, leNat_take_succ, take_zero, leNat_nil, mul_zero, add_zero,
      ← byteAt_succ, ← byteAt_succ] at htwo
    have hlow : byteAt out (7 * k / 8 + 1) < 2 ^ 8 := (out.getD _ 0).toNat_lt
    rw [getElem?_of_lt (by omega), getElem?_of_lt (by omega)]
    change some (UInt8.ofNat ((byteAt out _ ||| byteAt out _ <<< 8) >>> _ &&& 127)) = _
    rw [Packer.or_shiftLeft hlow, Nat.shiftRight_eq_div_pow, Nat.and_two_pow_sub_one_eq_mod _ 7]
    exact congrArg (fun n => some (UInt8.ofNat n)) htwo

theorem nextPlace_eq (k : Nat) :
    nextPlace (1 + 7 * k / 8) (7 * k % 8) = (1 + 7 * (k + 1) / 8, 7 * (k + 1) % 8) := by
  rw [nextPlace]
  split <;> ext <;> simp only <;> omega

theorem Encoded.unpackAscii (h : Encoded scheme chars out) (hlt : ∀ c ∈ chars, c < 128)
    (n k : Nat) (hn : k + n ≤ chars.length) :
    SevenBit.unpackAscii out n (1 + 7 * k / 8, 7 * k % 8) =
      some (((chars.drop k).map UInt8.ofNat).take n) := by
  induction n generalizing k with
  | zero => rfl
  | succ n ih =>
    have hk : k < chars.length := by omega
    rw [SevenBit.unpackAscii, h.bDecompressed hlt hk, nextPlace_eq, ih (k + 1) (by omega),
      drop_eq_getElem_cons hk, map_cons, take_succ_cons,
      getD_eq_getElem _ _ hk]
    rfl

def wide (chars : List Nat) : List UInt8 := chars.flatMap fun c => [UInt8.ofNat c, 0]

theorem wide_length (chars : List Nat) : (wide chars).length = chars.length * 2 := by simp [wide]

theorem Encoded.unpackUnicode (h : Encoded scheme chars out) (hlt : ∀ c ∈ chars, c < 128)
    (n k : Nat) (hn : n ≤ (wide (chars.drop k)).length) :
    SevenBit.unpackUnicode out n (1 + 7 * k / 8, 7 * k % 8) =
      some ((wide (chars.drop k)).take n) := by
  -- two bytes a round; the last round may stop after the first of them
  induction n using Nat.twoStepInduction generalizing k with
  | zero => rfl
  | one =>
    rw [wide_length, length_drop] at hn
    have hk : k < chars.length := by omega
    rw [SevenBit.unpackUnicode, h.bDecompressed hlt hk, drop_eq_getElem_cons hk,
      getD_eq_getElem _ _ hk]
    rfl
  | more n ih _ =>
    rw [wide_length, length_drop] at hn
    have hk : k < chars.length := by omega
    have hrest : n ≤ (wide (chars.drop (k + 1))).length := by
      rw [wide_length, length_drop]
      omega
    rw [SevenBit.unpackUnicode, h.bDecompressed hlt hk, nextPlace_eq, ih (k + 1) hrest,
      drop_eq_getElem_cons hk, getD_eq_getElem _ _ hk]
    rfl

end Decode

variable {b : UInt8}

theorem and_high_eq_zero_iff : b.toNat &&& 128 = 0 ↔ b.toNat < 128 := by
  have hlt := b.toNat_lt
  rw [show 128 = 2 ^ 7 from rfl, Nat.and_two_pow, Nat.testBit_eq_decide_div_mod_eq]
  simp only [mul_eq_zero, Bool.toNat_eq_zero, decide_eq_false_iff_not]
  omega

theorem eq_zero_of_and_all (h : b.toNat &&& 255 = 0) : b.toNat = 0 := by
  rw [Nat.and_two_pow_sub_one_eq_mod _ 8] at h
  have hlt := b.toNat_lt
  omega

variable {b₃ b₂ b₁ b₀ : UInt8}

theorem dword_and_eq_zero_iff {m₀ m₁ m₂ m₃ : Nat} (hm : ∀ x ∈ [m₀, m₁, m₂, m₃], x < 256) :
    leNat [b₀, b₁, b₂, b₃] &&& ofDigits 256 [m₀, m₁, m₂, m₃] = 0 ↔
      b₀.toNat &&& m₀ = 0 ∧ b₁.toNat &&& m₁ = 0 ∧ b₂.toNat &&& m₂ = 0 ∧ b₃.toNat &&& m₃ = 0 := by
  have hand : leNat [b₀, b₁, b₂, b₃] &&& ofDigits 256 [m₀, m₁, m₂, m₃] = ofDigits 256
        (zipWith (· &&& ·) ([b₀, b₁, b₂, b₃].map UInt8.toNat) [m₀, m₁, m₂, m₃]) :=
    @ofDigits_and _ 8 _ (fun x hx => mem_toNat_lt hx) hm
  rw [hand, ofDigits_eq_zero (by decide)]
  simp

theorem dwNot_dwMaskUnicode : dwNot dwMaskUnicode = ofDigits 256 [128, 255, 128, 255] := by decide

theorem dword_unicode (h : leNat [b₀, b₁, b₂, b₃] &&& dwNot dwMaskUnicode = 0) :
    b₀.toNat < 128 ∧ b₁.toNat = 0 ∧ b₂.toNat < 128 ∧ b₃.toNat = 0 := by
  rw [dwNot_dwMaskUnicode, dword_and_eq_zero_iff (by simp)] at h
  obtain ⟨h₀, h₁, h₂, h₃⟩ := h
  exact ⟨and_high_eq_zero_iff.mp h₀, eq_zero_of_and_all h₁, and_high_eq_zero_iff.mp h₂,
    eq_zero_of_and_all h₃⟩

theorem dword_and_ascii : leNat [b₀, b₁, b₂, b₃] &&& dwNot (dwMaskAscii false) = 0 ↔
    b₀.toNat < 128 ∧ b₁.toNat < 128 ∧ b₂.toNat < 128 ∧ b₃.toNat < 128 := by
  have hmask : dwNot (dwMaskAscii false) = ofDigits 256 [128, 128, 128, 128] := by decide
  rw [hmask, dword_and_eq_zero_iff (by simp)]
  simp only [and_high_eq_zero_iff]

theorem dword_ascii (h : leNat [b₀, b₁, b₂, b₃] &&& dwNot (dwMaskAscii fUnicodeOnly) = 0) :
    b₀.toNat < 128 ∧ b₁.toNat < 128 ∧ b₂.toNat < 128 ∧ b₃.toNat < 128 := by
  cases fUnicodeOnly with
  | true =>
    obtain ⟨h₀, h₁, h₂, h₃⟩ := dword_unicode h
    exact ⟨h₀, by omega, h₂, by omega⟩
  | false => exact dword_and_ascii.mp h

theorem scanBytes_ascii (hlt : ∀ b ∈ data, b.toNat < 128) (ib : Nat) :
    scanBytes ib data false = some false := by
  induction data generalizing ib with
  | nil => rfl
  | cons b data ih =>
    have hb := hlt b mem_cons_self
    rw [scanBytes, if_neg (by omega)]
    exact ih (fun x hx => hlt x (mem_cons_of_mem _ hx)) (ib + 1)

variable {possible : Bool}

theorem scanDwords_ascii (hfalse : possible = false)
    (hlt : ∀ b ∈ data, b.toNat < 128) : scanDwords false data possible = some false := by
  induction data, possible using scanDwords.induct false with
  | case1 b₀ b₁ b₂ b₃ rest possible dw hbad =>
    exact absurd (dword_and_ascii.mpr ⟨hlt b₀ (by simp), hlt b₁ (by simp), hlt b₂ (by simp),
      hlt b₃ (by simp)⟩) hbad
  | case2 b₀ b₁ b₂ b₃ rest possible dw hgood ih =>
    simp only [scanDwords]
    rw [if_neg hgood]
    refine ih (by rw [hfalse, Bool.false_and]) fun b hb => hlt b ?_
    simp [hb]
  | case3 tail possible hshort =>
    rw [scanDwords.eq_2 _ _ _ hshort, hfalse]
    exact scanBytes_ascii hlt 0

/-- What a scan that ends with `possible` says of the data, where it began with `possible₀`. -/
structure Scanned (data : List UInt8) (possible₀ possible : Bool) : Prop where
  bytes_lt : ∀ b ∈ data, b.toNat < 128
  words_lt : possible = true → possible₀ = true ∧ ∀ c ∈ words data, c < 128

theorem scanBytes_scanned {ib : Nat} {possible₀ : Bool}
    (hib : ib % 2 = 0) (h : scanBytes ib data possible₀ = some possible) :
    Scanned data possible₀ possible := by
  induction data using twoStepInduction generalizing ib possible₀ with
  | nil => exact ⟨nofun, fun htrue => ⟨(Option.some.inj h).trans htrue, nofun⟩⟩
  | singleton b =>
    simp only [scanBytes, Option.ite_none_left_eq_some] at h
    obtain ⟨hb, h⟩ := h
    refine ⟨forall_mem_singleton.mpr (by omega), fun htrue => ⟨?_, nofun⟩⟩
    rw [htrue, Option.some.injEq] at h
    split at h
    · cases h
    · exact h
  | cons_cons b₀ b₁ rest ih _ =>
    simp only [scanBytes, Option.ite_none_left_eq_some] at h
    obtain ⟨hb₀, hb₁, h⟩ := h
    have hodd : ((ib + 1) % 2 == 0) = false := by simp; omega
    have heven : (ib % 2 == 0) = true := by simp [hib]
    simp only [hodd, heven, Bool.and_false, Bool.false_and, Bool.and_true, Bool.false_eq_true,
      if_false, getD_cons_zero] at h
    obtain ⟨hbytes, hwords⟩ := ih (by omega) h
    refine ⟨?_, fun htrue => ?_⟩
    · simp only [forall_mem_cons]
      exact ⟨by omega, by omega, hbytes⟩
    · obtain ⟨hstart, hrest⟩ := hwords htrue
      rw [words, forall_mem_cons]
      split at hstart
      · cases hstart
      case isFalse hword =>
        rw [hstart, Bool.true_and, decide_eq_true_eq] at hword
        exact ⟨hstart, by omega, hrest⟩

theorem scanDwords_scanned {possible₀ : Bool}
    (h : scanDwords fUnicodeOnly data possible₀ = some possible) :
    Scanned data possible₀ possible := by
  induction data, possible₀ using scanDwords.induct fUnicodeOnly with
  | case1 possible₀ b₀ b₁ b₂ b₃ rest dw hbad =>
    simp only [scanDwords] at h
    rw [if_pos hbad] at h
    exact absurd h (by simp)
  | case2 possible₀ b₀ b₁ b₂ b₃ rest dw hgood ih =>
    simp only [scanDwords] at h
    rw [if_neg hgood] at h
    obtain ⟨hbytes, hwords⟩ := ih h
    obtain ⟨h₀, h₁, h₂, h₃⟩ := dword_ascii (not_not.mp hgood)
    refine ⟨by simpa using ⟨h₀, h₁, h₂, h₃, hbytes⟩, ?_⟩
    intro htrue
    obtain ⟨hboth, hrest⟩ := hwords htrue
    rw [Bool.and_eq_true, beq_iff_eq] at hboth
    obtain ⟨hw₀, hw₁, hw₂, hw₃⟩ := dword_unicode hboth.2
    simp only [words, forall_mem_cons]
    exact ⟨hboth.1, by omega, by omega, hrest⟩
  | case3 possible₀ tail hshort =>
    rw [scanDwords.eq_2 _ _ _ hshort] at h
    exact scanBytes_scanned rfl h

theorem words_length (data : List UInt8) : (words data).length = data.length / 2 := by
  induction data using twoStepInduction with
  | nil => rfl
  | singleton b => simp [words]
  | cons_cons b₀ b₁ rest ih _ =>
    rw [words, length_cons, ih, length_cons, length_cons]
    omega

theorem wide_words (heven : data.length % 2 = 0)
    (hlt : ∀ c ∈ words data, c < 128) : wide (words data) = data := by
  induction data using twoStepInduction with
  | nil => rfl
  | singleton b => cases heven
  | cons_cons b₀ b₁ rest ih _ =>
    rw [words, forall_mem_cons] at hlt
    obtain ⟨hword, hrest⟩ := hlt
    have hb₁ : b₁ = 0 := by
      apply UInt8.toNat_inj.mp
      rw [UInt8.toNat_zero]
      omega
    have hb₀ : UInt8.ofNat (b₀.toNat + 256 * b₁.toNat) = b₀ := by
      rw [hb₁, UInt8.toNat_zero, mul_zero, add_zero, UInt8.ofNat_toNat]
    rw [length_cons, length_cons] at heven
    rw [words, wide, flatMap_cons, ← wide, ih (by omega) hrest, hb₀, hb₁]
    rfl

theorem calculate_spec (data : List UInt8) (fUnicodeOnly : Bool) :
    match calculate7BitCompressionScheme data fUnicodeOnly with
    | .compressNone => True
    | .compress7BitAscii =>
      (∀ b ∈ data, b.toNat < 128) ∧ cbCompressed7BitAscii data.length < data.length
    | .compress7BitUnicode => (∀ c ∈ words data, c < 128) ∧ data.length % 2 = 0 ∧
      cbCompressed7BitUnicode data.length < data.length := by
  fun_cases calculate7BitCompressionScheme data fUnicodeOnly
  case case3 hscan hsmall =>
    obtain ⟨heven, hwords⟩ := (scanDwords_scanned hscan).words_lt rfl
    exact ⟨hwords, beq_iff_eq.mp heven, hsmall⟩
  case case6 hscan _ hsmall => exact ⟨(scanDwords_scanned hscan).bytes_lt, hsmall⟩
  all_goals trivial

def Scheme.cbCompressed : Scheme → Nat → Int
  | .compressNone, cb => cb
  | .compress7BitAscii, cb => cbCompressed7BitAscii cb
  | .compress7BitUnicode, cb => cbCompressed7BitUnicode cb

def Scheme.cChars : Scheme → Nat → Nat
  | .compress7BitUnicode, cb => cb / 2
  | _, cb => cb

def decompressedTo (data : List UInt8) (cbDataMax : Nat) : Decompressed :=
  if data.length ≤ cbDataMax then ⟨.success, some data, data.length⟩
  else ⟨.wrnBufferTruncated, some (data.take cbDataMax), data.length⟩

theorem errDecompress7Bit_eq {unpack : Nat → Option (List UInt8)}
    (hunpack : ∀ n ≤ data.length, unpack n = some (data.take n)) (cbDataMax : Nat) :
    errDecompress7Bit unpack data.length false cbDataMax = decompressedTo data cbDataMax := by
  have hmin : (min (data.length : Int) cbDataMax).toNat = min data.length cbDataMax := by omega
  have hdata : (if cbDataMax = 0 || false then some []
      else unpack (min (data.length : Int) cbDataMax).toNat) = some (data.take cbDataMax) := by
    rw [hmin, hunpack _ (min_le_left _ _), min_comm, ← take_eq_take_min]
    rcases Nat.eq_zero_or_pos cbDataMax with rfl | hpos
    · rfl
    · simp [hpos.ne']
  rw [errDecompress7Bit, decompressedTo, hdata]
  rcases lt_or_ge cbDataMax data.length with hlt | hge
  · rw [if_pos (by omega), if_neg (by omega)]
  · rw [if_neg (by omega), if_pos hge, take_of_length_le hge]

variable {out : List UInt8}

theorem Encoded.errDecompress_ascii (c : Compressor)
    (h : Encoded .compress7BitAscii (data.map UInt8.toNat) out) (hne : data ≠ [])
    (hlt : ∀ b ∈ data, b.toNat < 128) (hfits : 7 * data.length < 2 ^ 31) (cbDataMax : Nat) :
    c.errDecompress out false cbDataMax = decompressedTo data cbDataMax := by
  have htotal := h.cTotal (by simpa using hne) (by rwa [length_map])
  rw [length_map] at htotal
  have hlt' x (hx : x ∈ data.map UInt8.toNat) : x < 128 := by
    obtain ⟨b, hb, rfl⟩ := mem_map.mp hx
    exact hlt b hb
  simp only [Compressor.errDecompress, h.bIdentifier, if_true, errDecompress7BitAscii, htotal]
  apply errDecompress7Bit_eq
  intro n hn
  have hunpack := h.unpackAscii hlt' n 0 (by rw [length_map]; omega)
  rw [drop_zero, map_map] at hunpack
  have hid : data.map (UInt8.ofNat ∘ UInt8.toNat) = data := by
    simp [Function.comp_def]
  rwa [hid] at hunpack

theorem Encoded.errDecompress_unicode (c : Compressor)
    (h : Encoded .compress7BitUnicode (words data) out) (hne : words data ≠ [])
    (hlt : ∀ x ∈ words data, x < 128) (heven : data.length % 2 = 0)
    (hfits : 7 * (data.length / 2) < 2 ^ 31) (cbDataMax : Nat) :
    c.errDecompress out false cbDataMax = decompressedTo data cbDataMax := by
  have htotal : int32 (SevenBit.cTotal out * 2) = data.length := by
    rw [h.cTotal hne (by rwa [words_length]), words_length, int32_of_lt (by omega) (by omega)]
    omega
  have hother : Scheme.compress7BitUnicode.bIdentifier ≠ Scheme.compress7BitAscii.bIdentifier := by
    decide
  simp only [Compressor.errDecompress, h.bIdentifier, if_neg hother, if_true,
    errDecompress7BitUnicode, htotal]
  apply errDecompress7Bit_eq
  intro n hn
  have hdata := wide_words heven hlt
  have hunpack := h.unpackUnicode hlt n 0 (by rw [drop_zero, hdata]; exact hn)
  rwa [drop_zero, hdata] at hunpack

theorem Compressor.scheme_calculated {c : Compressor} {fCompress7Bit : Bool}
    (h : c.scheme data fCompress7Bit ≠ .compressNone) :
    ∃ fUnicodeOnly,
      c.scheme data fCompress7Bit = calculate7BitCompressionScheme data fUnicodeOnly := by
  cases fCompress7Bit with
  | false => exact absurd rfl h
  | true =>
    simp only [scheme, if_true] at h ⊢
    generalize c.tryAdvanced data = advanced at h ⊢
    cases advanced with
    | notTried => exact ⟨false, rfl⟩
    | failed err =>
      simp only at h ⊢
      split at h
      · exact absurd rfl h
      · rename_i herr
        exact ⟨false, if_neg herr⟩
    | compressed bytes =>
      simp only at h ⊢
      split at h
      · exact absurd rfl h
      · rename_i hlarge
        exact ⟨true, if_neg hlarge⟩

/-- Where the bits of the characters do not fit an `INT`, the decoder reports too short a value. -/
theorem Encoded.errDecompress_wraps (c : Compressor) (data : List UInt8) {scheme : Scheme}
    (h : Encoded scheme chars out) (hne : chars ≠ [])
    (hscheme : scheme ≠ .compressNone) (hchars : chars.length ≤ scheme.cChars data.length)
    (hwraps : 2 ^ 31 ≤ 7 * chars.length) (cbDataMax : Nat) :
    (c.errDecompress out false cbDataMax).cbActual < data.length := by
  have hlt := h.cTotal_lt hne hwraps
  rw [Compressor.errDecompress, h.bIdentifier]
  cases scheme with
  | compressNone => exact absurd rfl hscheme
  | compress7BitAscii =>
    change SevenBit.cTotal out < data.length
    simp only [Scheme.cChars] at hchars
    omega
  | compress7BitUnicode =>
    change int32 (SevenBit.cTotal out * 2) < data.length
    simp only [Scheme.cChars] at hchars
    have hrange := int32_range (7 * chars.length)
    have hdiv := mul_tdiv_range (SevenBit.cbitTotal out) (d := 7) (by decide)
    rw [← SevenBit.cTotal, h.cbitTotal hne] at hdiv
    rw [int32_of_lt (by omega) (by omega)]
    omega

theorem Encoded.fits_of_back (c : Compressor) {scheme : Scheme} (h : Encoded scheme chars out)
    (hne : chars ≠ []) (hscheme : scheme ≠ .compressNone)
    (hchars : chars.length = scheme.cChars data.length)
    (hback : ∀ cbDataMax, c.errDecompress out false cbDataMax = decompressedTo data cbDataMax) :
    7 * scheme.cChars data.length < 2 ^ 31 := by
  by_contra hwraps
  have hshort := h.errDecompress_wraps c data hne hscheme hchars.le (by omega) 0
  have hactual : (decompressedTo data 0).cbActual = data.length := by
    rw [decompressedTo]
    split <;> rfl
  rw [hback 0, hactual] at hshort
  exact Int.lt_irrefl _ hshort

/-- Data that is compressed with a 7-bit scheme comes out smaller.  It is decompressed to the same
data, or to the part of it that fits, exactly if the bits of its characters can be counted in an
`INT`.  A buffer below the computed size is refused. -/
theorem errCompress_roundTrip (c : Compressor) (data : List UInt8) (fCompress7Bit : Bool)
    (m : Memory) (cbMax : Nat) (hscheme : c.scheme data fCompress7Bit ≠ .compressNone) :
    (cbMax < (c.scheme data fCompress7Bit).cbCompressed data.length →
      c.errCompress data fCompress7Bit m cbMax = (.errBufferTooSmall, [])) ∧
    ((c.scheme data fCompress7Bit).cbCompressed data.length ≤ cbMax →
      ∃ out, c.errCompress data fCompress7Bit m cbMax = (.success, out) ∧ out.length < data.length ∧
        ((∀ cbDataMax, c.errDecompress out false cbDataMax = decompressedTo data cbDataMax) ↔
          7 * (c.scheme data fCompress7Bit).cChars data.length < 2 ^ 31)) := by
  obtain ⟨fUnicodeOnly, hcalc⟩ := Compressor.scheme_calculated hscheme
  have hspec := calculate_spec data fUnicodeOnly
  rw [← hcalc] at hspec
  rw [Compressor.errCompress]
  generalize c.scheme data fCompress7Bit = scheme at *
  cases scheme with
  | compressNone => exact absurd rfl hscheme
  | compress7BitAscii =>
    obtain ⟨hlt, hsmall⟩ := hspec
    have hne : data ≠ [] := by
      rintro rfl
      exact Nat.not_lt_zero _ (lt_of_cbCompressed_lt hsmall)
    refine ⟨fun hshort => if_pos hshort, ?_⟩
    intro hmax
    obtain ⟨out, hout, henc⟩ := errCompress7BitAscii_encoded hne hlt m hmax
    refine ⟨out, hout, ?_, ?_, henc.errDecompress_ascii c hne hlt⟩
    · rw [henc.length, length_map]
      exact lt_of_cbCompressed_lt hsmall
    · exact henc.fits_of_back c (by simpa using hne) nofun (length_map _)
  | compress7BitUnicode =>
    obtain ⟨hlt, heven, hsmall⟩ := hspec
    rw [cbCompressed7BitUnicode] at hsmall
    have hne : words data ≠ [] := by
      rw [← length_pos_iff_ne_nil, words_length]
      omega
    refine ⟨fun hshort => if_pos (Int.ofNat_lt.mp hshort), ?_⟩
    intro hmax
    obtain ⟨out, hout, henc⟩ := errCompress7BitUnicode_encoded hne hlt m
      (Int.ofNat_le.mp hmax)
    refine ⟨out, hout, ?_, ?_, henc.errDecompress_unicode c hne hlt heven⟩
    · rw [henc.length, words_length]
      omega
    · exact henc.fits_of_back c hne nofun (words_length data)

def plainCompressor : Compressor where
  cbMin := 0
  advanced _ := .notTried
  decompressOther _ _ _ _ := ⟨.success, some [], 0⟩

theorem plainCompressor_wraps_of_odd {n : Nat} (hodd : n % 2 = 1) (hwraps : 2 ^ 31 ≤ 7 * n) :
    ∃ out, plainCompressor.errCompress (replicate n 0x61) true (fun _ => 0) n =
        (.success, out) ∧
      (plainCompressor.errDecompress out false n).cbActual < n := by
  have hlt : ∀ b ∈ replicate n (0x61 : UInt8), b.toNat < 128 := by
    intro b hb
    rw [eq_of_mem_replicate hb]
    decide
  have hlen : (replicate n (0x61 : UInt8)).length = n := length_replicate
  have hsize := cbCompressed7BitAscii_le n
  have hscheme : plainCompressor.scheme (replicate n 0x61) true = .compress7BitAscii := by
    change calculate7BitCompressionScheme (replicate n 0x61) false = _
    have hpossible : ((replicate n (0x61 : UInt8)).length % 2 == 0) = false := by
      rw [hlen, hodd]
      rfl
    rw [calculate7BitCompressionScheme, hpossible]
    simp only [scanDwords_ascii rfl hlt, Bool.false_and, Bool.false_eq_true, if_false, hlen]
    rw [if_pos (by omega)]
  have hne : replicate n (0x61 : UInt8) ≠ [] := by
    rw [← length_pos_iff_ne_nil, hlen]
    omega
  have hmax : cbCompressed7BitAscii (replicate n (0x61 : UInt8)).length ≤ (n : Int) := by
    rw [hlen]
    omega
  obtain ⟨out, hout, henc⟩ := errCompress7BitAscii_encoded hne hlt (fun _ => 0) hmax
  refine ⟨out, ?_, ?_⟩
  · rw [Compressor.errCompress, hscheme]
    exact hout
  · have hshort := henc.errDecompress_wraps plainCompressor (replicate n 0x61)
      (by simpa using hne) nofun (by rw [length_map]; rfl)
      (by rw [length_map, hlen]; exact hwraps) n
    rwa [hlen] at hshort

/-- Data of 306783379 characters is compressed and does not come back. -/
theorem plainCompressor_wraps :
    ∃ out, plainCompressor.errCompress (replicate 306783379 0x61) true (fun _ => 0) 306783379 =
        (.success, out) ∧
      (plainCompressor.errDecompress out false 306783379).cbActual < 306783379 :=
  plainCompressor_wraps_of_odd (by decide) (by decide)

theorem plainCompressor_roundTrip :
    ∃ out, plainCompressor.errCompress [0x61, 0, 0x62, 0] true (fun _ => 0) 3 = (.success, out) ∧
      out.length < 4 ∧
      ∀ cbDataMax, plainCompressor.errDecompress out false cbDataMax =
        decompressedTo [0x61, 0, 0x62, 0] cbDataMax := by
  obtain ⟨out, hout, hsmall, hround⟩ := (errCompress_roundTrip plainCompressor
    [0x61, 0, 0x62, 0] true (fun _ => 0) 3 (by decide)).2 (by decide)
  exact ⟨out, hout, hsmall, hround.mpr (by decide)⟩

/-- The low seven bits of each character, one after the other, behind the header byte. -/
def asciiStream (data : List UInt8) : List UInt8 :=
  UInt8.ofNat (Scheme.compress7BitAscii.bIdentifier * 8 + (7 * data.length + 7) % 8) ::
    bytesOfBits (data.flatMap fun b => lowBits 7 b.toNat)

theorem flatMap_lowBits_length (data : List UInt8) :
    (data.flatMap fun b => lowBits 7 b.toNat).length = 7 * data.length := by
  induction data with
  | nil => rfl
  | cons b data ih =>
    rw [flatMap_cons, length_append, ih, length_cons, lowBits, length_map,
      length_range]
    omega

theorem Encoded.eq_asciiStream {data out : List UInt8} (hne : data ≠ [])
    (hlt : ∀ b ∈ data, b.toNat < 128)
    (h : Encoded .compress7BitAscii (data.map UInt8.toNat) out) : out = asciiStream data := by
  have hdigits c (hc : c ∈ data.map UInt8.toNat) : c < 2 ^ 7 := by
    obtain ⟨b, hb, rfl⟩ := mem_map.mp hc
    exact hlt b hb
  have hpos := length_pos_iff.mpr hne
  have hlen := h.length
  have hheader := h.header
  have hvalue := h.value
  rw [length_map] at hlen hheader
  obtain _ | ⟨b, payload⟩ := out
  · rw [length_nil] at hlen
    omega
  · rw [tail_cons] at hvalue
    rw [byteAt, getD_cons_zero] at hheader
    rw [length_cons] at hlen
    have hbits : ofBits (data.flatMap fun b => lowBits 7 b.toNat) = leNat payload := by
      rw [hvalue, ← flatMap_map]
      exact ofBits_flatMap hdigits
    have hsize : (7 * data.length + 7) / 8 = payload.length := by omega
    rw [asciiStream, bytesOfBits_eq, flatMap_lowBits_length, hbits, hsize, leBytes_leNat]
    refine congrArg (· :: payload) (UInt8.toNat_inj.mp ?_)
    have hcount : (7 * data.length - 1) % 8 = (7 * data.length + 7) % 8 := by omega
    rw [hheader, hcount, UInt8.toNat_ofNat']
    refine (Nat.mod_eq_of_lt ?_).symm
    simp only [Scheme.bIdentifier]
    omega

theorem errCompress7BitAscii_nil (m : Memory) {cbMax : Nat} (hmax : 1 ≤ cbMax) :
    errCompress7BitAscii [] m cbMax = (.success, asciiStream []) := by
  have hsize : cbCompressed7BitAscii 0 = 1 := by decide
  have hfits : ¬ cbCompressed7BitAscii 0 > cbMax := by
    rw [hsize]
    omega
  rw [errCompress7BitAscii, length_nil, if_neg hfits]
  have hstream : asciiStream [] = [bSignature .compress7BitAscii 32] := by decide
  simp only [Nat.zero_div, Nat.zero_min, hstream, packQwords, packChars, map_nil,
    foldl_nil, Packer.ibitLast, if_true]
  exact congrArg (Prod.mk Err.success)
    (slice_store (Packer.flush ⟨m, 1, 0, 0⟩) 0 [bSignature .compress7BitAscii 32])

/-- The packed bytes are the low seven bits of each character, little-endian, whatever the output
buffer holds and however much room it has. -/
theorem errCompress7BitAscii_eq_stream (data : List UInt8) (m : Memory) (cbMax : Nat)
    (hlt : ∀ b ∈ data, b.toNat < 128) (hmax : (7 * data.length + 7) / 8 + 1 ≤ cbMax) :
    errCompress7BitAscii data m cbMax = (.success, asciiStream data) := by
  obtain rfl | hne := eq_or_ne data []
  · exact errCompress7BitAscii_nil m hmax
  · have hle := (cbCompressed7BitAscii_le data.length).trans (Int.ofNat_le.mpr hmax)
    obtain ⟨out, heq, hencoded⟩ := errCompress7BitAscii_encoded hne hlt m hle
    rw [heq, hencoded.eq_asciiStream hne hlt]

/-- Nine characters in a buffer of nine bytes: one QWORD goes through the fast loop. -/
theorem errCompress7BitAscii_nineChars :
    errCompress7BitAscii [0x61, 0x62, 0x63, 0x64, 0x65, 0x66, 0x67, 0x68, 0x69] (fun _ => 0xff) 9 =
      (.success, asciiStream [0x61, 0x62, 0x63, 0x64, 0x65, 0x66, 0x67, 0x68, 0x69]) :=
  errCompress7BitAscii_eq_stream _ _ _ (by simp) (by decide)

end EseLinux.SevenBit
