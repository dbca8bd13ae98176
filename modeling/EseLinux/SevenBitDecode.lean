import EseLinux.SevenBitRoundTrip

/-!
Decompression of arbitrary bytes.  The size of the output is computed from the size of the input and
the bit count in the header byte before anything is checked.
-/

namespace EseLinux.SevenBit

open ByteMemory DigitList

variable (pb : List UInt8)

/-- A character whose bits are all in the input is read. -/
theorem bDecompressed_of_le {k : Nat} (hfits : 7 * (k + 1) ≤ 8 * (pb.length - 1)) :
    ∃ b, bDecompressed pb (1 + 7 * k / 8) (7 * k % 8) = some b := by
  rw [bDecompressed]
  split
  · rw [getElem?_of_lt (by omega)]
    exact ⟨_, rfl⟩
  · rw [getElem?_of_lt (by omega), getElem?_of_lt (by omega)]
    exact ⟨_, rfl⟩

theorem unpackAscii_of_le (n k : Nat) (hfits : 7 * (k + n) ≤ 8 * (pb.length - 1)) :
    ∃ data, unpackAscii pb n (1 + 7 * k / 8, 7 * k % 8) = some data ∧ data.length = n := by
  induction n generalizing k with
  | zero => exact ⟨[], rfl, rfl⟩
  | succ n ih =>
    obtain ⟨b, hb⟩ := bDecompressed_of_le pb (k := k) (by omega)
    obtain ⟨data, hdata, hlen⟩ := ih (k + 1) (by omega)
    refine ⟨b :: data, ?_, congrArg (· + 1) hlen⟩
    rw [unpackAscii, hb, nextPlace_eq, hdata]
    rfl

theorem unpackUnicode_of_le (n k : Nat) (hfits : 7 * (k + (n + 1) / 2) ≤ 8 * (pb.length - 1)) :
    ∃ data, unpackUnicode pb n (1 + 7 * k / 8, 7 * k % 8) = some data ∧ data.length = n := by
  induction n using Nat.twoStepInduction generalizing k with
  | zero => exact ⟨[], rfl, rfl⟩
  | one =>
    obtain ⟨b, hb⟩ := bDecompressed_of_le pb (k := k) (by omega)
    refine ⟨[b], ?_, rfl⟩
    rw [unpackUnicode, hb]
    rfl
  | more n ih _ =>
    obtain ⟨b, hb⟩ := bDecompressed_of_le pb (k := k) (by omega)
    obtain ⟨data, hdata, hlen⟩ := ih (k + 1) (by omega)
    refine ⟨b :: 0 :: data, ?_, congrArg (· + 2) hlen⟩
    rw [unpackUnicode, hb, nextPlace_eq, hdata]
    rfl

/-- The number of bits that the length and the header byte of the input stand for. -/
def cbitStated (pb : List UInt8) : Int :=
  ((pb.length : Int) - 2) * 8 + ((byteAt pb 0 &&& 7) + 1 : Nat)

def cbStated (pb : List UInt8) : Int :=
  if byteAt pb 0 >>> 3 = Scheme.compress7BitAscii.bIdentifier then (cbitStated pb).tdiv 7
  else if byteAt pb 0 >>> 3 = Scheme.compress7BitUnicode.bIdentifier then
    (cbitStated pb).tdiv 7 * 2
  else 0

/-- The size is the one that is stated, and as much is written as fits, for which nothing is read
beyond the input. -/
structure Compressor.DecompressOk (c : Compressor) (pb : List UInt8) (cbDataMax : Nat) : Prop where
  nonneg : 0 ≤ (c.errDecompress pb false cbDataMax).cbActual
  stated : (c.errDecompress pb false cbDataMax).cbActual = cbStated pb
  written : ∃ data, (c.errDecompress pb false cbDataMax).data = some data ∧
    (data.length : Int) = min (cbDataMax : Int) (c.errDecompress pb false cbDataMax).cbActual

/-- More than the header byte, or a bit count in it that the missing byte can make up for; and not
more bits than an `INT` can count. -/
def WellSized (pb : List UInt8) : Prop :=
  (2 ≤ pb.length ∨ byteAt pb 0 &&& 7 ≠ 0) ∧ cbitStated pb < 2 ^ 31

theorem cTotal_eq : cTotal pb = (int32 (cbitStated pb)).tdiv 7 := rfl

theorem cTotal_range : -2 ^ 30 ≤ cTotal pb ∧ cTotal pb < 2 ^ 30 := by
  have hrange := int32_range (cbitStated pb)
  have hdiv := mul_tdiv_range (int32 (cbitStated pb)) (d := 7) (by decide)
  rw [cTotal_eq]
  omega

theorem int32_cTotal : int32 (cTotal pb * 2) = cTotal pb * 2 := by
  have hrange := cTotal_range pb
  exact int32_of_lt (by omega) (by omega)

variable {pb}

section Sizes

variable (hne : pb ≠ [])

include hne

theorem wellSized_of_cTotal (hnonneg : 0 ≤ cTotal pb)
    (hstated : cTotal pb = (cbitStated pb).tdiv 7) : WellSized pb := by
  have hpos := List.length_pos_of_ne_nil hne
  constructor
  · -- a lone header byte with no further bits comes to minus one
    by_contra hshort
    obtain ⟨hlen, hbits⟩ := not_or.mp hshort
    have hminus : cbitStated pb = -7 := by
      rw [cbitStated, not_not.mp hbits]
      omega
    rw [hstated, hminus] at hnonneg
    exact absurd hnonneg (by decide)
  · by_contra hwraps
    have hle := int32_le_sub (i := cbitStated pb) (by omega)
    have hdiv := (mul_tdiv_range (int32 (cbitStated pb)) (d := 7) (by decide)).2
    have hdiv' := (mul_tdiv_range (cbitStated pb) (d := 7) (by decide)).1
    rw [cTotal_eq] at hstated
    omega

theorem WellSized.cTotal (h : WellSized pb) :
    0 ≤ SevenBit.cTotal pb ∧ SevenBit.cTotal pb = (cbitStated pb).tdiv 7 ∧
      7 * SevenBit.cTotal pb ≤ 8 * ((pb.length - 1 : Nat) : Int) := by
  have hpos := List.length_pos_of_ne_nil hne
  have hbits : byteAt pb 0 &&& 7 < 8 := Nat.and_lt_two_pow (n := 3) _ (by decide)
  obtain ⟨hlong, hlt⟩ := h
  have hlo : -7 < cbitStated pb := by
    rw [cbitStated]
    omega
  have hwhole : SevenBit.cTotal pb = (cbitStated pb).tdiv 7 := by
    rw [cTotal_eq, int32_of_lt (by omega) hlt]
  rcases Int.lt_or_le (cbitStated pb) 0 with hneg | hnonneg
  · have hzero : (cbitStated pb).tdiv 7 = 0 := by
      generalize cbitStated pb = i at *
      interval_cases i <;> rfl
    rw [hwhole, hzero]
    omega
  · have hupper : cbitStated pb ≤ 8 * ((pb.length - 1 : Nat) : Int) := by
      rw [cbitStated]
      omega
    rw [hwhole, Int.tdiv_eq_ediv_of_nonneg hnonneg]
    omega

end Sizes

theorem errDecompress7Bit_written {unpack : Nat → Option (List UInt8)} {cbActual : Int}
    (hunpack : ∀ n : Nat, n ≤ cbActual → ∃ data, unpack n = some data ∧ data.length = n)
    (hnonneg : 0 ≤ cbActual) (cbDataMax : Nat) :
    ∃ data, (errDecompress7Bit unpack cbActual false cbDataMax).data = some data ∧
      (data.length : Int) = min (cbDataMax : Int) cbActual := by
  rw [errDecompress7Bit]
  rcases Nat.eq_zero_or_pos cbDataMax with rfl | hpos
  · exact ⟨[], rfl, (Int.min_eq_left hnonneg).symm⟩
  · have hbuffer : (cbDataMax = 0 || false) = false := by simp [hpos.ne']
    obtain ⟨data, hdata, hlen⟩ := hunpack (min cbActual cbDataMax).toNat (by omega)
    simp only [hbuffer, Bool.false_eq_true, if_false]
    exact ⟨data, hdata, by omega⟩

theorem decompressOk_iff_wellSized {c : Compressor} {cbDataMax : Nat}
    {unpack : Nat → Option (List UInt8)} {k : Int} (hk : 0 < k) (hne : pb ≠ [])
    (hrun : c.errDecompress pb false cbDataMax =
      errDecompress7Bit unpack (cTotal pb * k) false cbDataMax)
    (hstated : cbStated pb = (cbitStated pb).tdiv 7 * k)
    (hunpack : 7 * cTotal pb ≤ 8 * ((pb.length - 1 : Nat) : Int) →
      ∀ n : Nat, n ≤ cTotal pb * k → ∃ data, unpack n = some data ∧ data.length = n) :
    c.DecompressOk pb cbDataMax ↔ WellSized pb := by
  constructor
  · intro h
    have hnonneg := h.nonneg
    have heq := h.stated
    rw [hrun, hstated] at heq
    rw [hrun] at hnonneg
    exact wellSized_of_cTotal hne (Int.nonneg_of_mul_nonneg_left hnonneg hk)
      (Int.eq_of_mul_eq_mul_right hk.ne' heq)
  · intro hsized
    obtain ⟨hnonneg, heq, hfits⟩ := hsized.cTotal hne
    have hactual := Int.mul_nonneg hnonneg hk.le
    constructor
    · rw [hrun]
      exact hactual
    · rw [hrun, hstated]
      exact congrArg (· * k) heq
    · rw [hrun]
      exact errDecompress7Bit_written (hunpack hfits) hactual cbDataMax

/-- On bytes whose identifier selects one of the 7-bit schemes or scrubbed data, decompression does
what the input stands for exactly if the data is scrubbed or the input is well sized. -/
theorem decompressOk_iff (c : Compressor) (pb : List UInt8) (cbDataMax : Nat) (hne : pb ≠ [])
    (hscheme : byteAt pb 0 >>> 3 = Scheme.compress7BitAscii.bIdentifier ∨
      byteAt pb 0 >>> 3 = Scheme.compress7BitUnicode.bIdentifier ∨
      byteAt pb 0 >>> 3 = bIdentifierScrub) :
    c.DecompressOk pb cbDataMax ↔ byteAt pb 0 >>> 3 = bIdentifierScrub ∨ WellSized pb := by
  rcases hscheme with hid | hid | hid
  · have hscrub : ¬ byteAt pb 0 >>> 3 = bIdentifierScrub := by
      rw [hid]
      decide
    rw [or_iff_right hscrub]
    refine decompressOk_iff_wellSized Int.one_pos hne ?_ ?_
      fun hfits n hn => unpackAscii_of_le pb n 0 (by omega)
    · rw [Compressor.errDecompress, hid, Int.mul_one]
      rfl
    · rw [cbStated, if_pos hid, Int.mul_one]
  · have hascii : ¬ byteAt pb 0 >>> 3 = Scheme.compress7BitAscii.bIdentifier := by
      rw [hid]
      decide
    have hscrub : ¬ byteAt pb 0 >>> 3 = bIdentifierScrub := by
      rw [hid]
      decide
    rw [or_iff_right hscrub]
    refine decompressOk_iff_wellSized (by decide : (0 : Int) < 2) hne ?_ ?_
      fun hfits n hn => unpackUnicode_of_le pb n 0 (by omega)
    · rw [Compressor.errDecompress, hid, ← int32_cTotal]
      rfl
    · rw [cbStated, if_neg hascii, if_pos hid]
  · have hrun : c.errDecompress pb false cbDataMax = errDecompressScrub := by
      rw [Compressor.errDecompress, hid]
      rfl
    refine ⟨fun _ => Or.inl hid, fun _ => ⟨?_, ?_, ?_⟩⟩
    · rw [hrun]
      exact Int.le_refl 0
    · rw [hrun, cbStated, hid]
      rfl
    · rw [hrun]
      exact ⟨[], rfl, (Int.min_eq_right (Int.natCast_nonneg _)).symm⟩

/-- A lone header byte is accepted, with an output of minus one byte. -/
theorem plainCompressor_minusOne :
    plainCompressor.errDecompress [0x08] false 16 = ⟨.success, some [], -1⟩ ∧
      plainCompressor.errDecompress [0x10] false 16 = ⟨.success, some [], -2⟩ := by
  decide

/-- Four bytes that hold three characters, two of them across bytes. -/
theorem plainCompressor_decompressOk :
    WellSized [0x0c, 0xe1, 0xf1, 0x18] ∧
      plainCompressor.DecompressOk [0x0c, 0xe1, 0xf1, 0x18] 2 := by
  have hsized : WellSized [0x0c, 0xe1, 0xf1, 0x18] := ⟨Or.inl (by decide), by decide⟩
  exact ⟨hsized, (decompressOk_iff plainCompressor [0x0c, 0xe1, 0xf1, 0x18] 2 (by decide)
    (Or.inl (by decide))).mpr (Or.inr hsized)⟩

end EseLinux.SevenBit
