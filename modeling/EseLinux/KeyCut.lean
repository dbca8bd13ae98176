import EseLinux.KeyBuild
import EseLinux.KeyDecode

/-!
Segments under the limits of a key: their size, and that data beyond the room that is left in
the key changes nothing.
-/

namespace EseLinux.KeyBuild

open KeySegment List

@[simp] theorem partChunk_length (cbSegRemaining : Nat) (pbField : List UInt8) :
    (partChunk cbSegRemaining pbField).length = cbSegRemaining := by
  rw [partChunk]
  split
  · rw [length_take]
    omega
  · rw [length_append, length_replicate]
    omega

theorem normalizeChunks_length (fNormalisedEntireColumn : Bool) (cbTail cChunks : Nat)
    (pbField : List UInt8) :
    (normalizeChunks fNormalisedEntireColumn cbTail cChunks pbField).length =
      cChunks * cbFLDBinaryChunkNormalized + cbTail := by
  induction cChunks generalizing pbField with
  | zero => simp [normalizeChunks]
  | succ cChunks ih =>
    rw [normalizeChunks, Nat.succ_mul]
    split
    · rename_i hle
      rw [length_append, lastChunk_length hle, ih]
      omega
    · rename_i hgt
      rw [length_append, ih, length_append, length_take, length_singleton,
        cbFLDBinaryChunkNormalized]
      omega

variable (idb : Limits) {cbKeyAvail cb : Nat}

theorem cbSegWithin_pos (havail : 0 < cbKeyAvail)
    (hcb : 0 < cb) : 0 < cbSegWithin idb cbKeyAvail cb := by
  have hvar := idb.hcbVarSegMac
  rw [cbSegWithin, Limits.cbVarSegMacT]
  split <;> split at * <;> omega

theorem cbSegWithin_le (cbKeyAvail cb : Nat) :
    cbSegWithin idb cbKeyAvail cb ≤ cbKeyAvail ∧ cbSegWithin idb cbKeyAvail cb ≤ cb := by
  rw [cbSegWithin]
  split <;> omega

theorem cbSegWithin_of_lt (cbKeyAvail cb cb' : Nat) (hcb : cbKeyAvail < cb)
    (hcb' : cbKeyAvail < cb') : cbSegWithin idb cbKeyAvail cb = cbSegWithin idb cbKeyAvail cb' ∧
      fTruncatedWithin idb cbKeyAvail cb = fTruncatedWithin idb cbKeyAvail cb' := by
  rw [cbSegWithin, cbSegWithin, fTruncatedWithin, fTruncatedWithin, decide_eq_decide]
  generalize idb.cbVarSegMacT = cbVarSegMac
  constructor <;> split <;> split <;> omega

theorem cbChunked_gt (cb : Nat) : cb < cbChunked cb := by
  simp only [cbChunked, cbFLDBinaryChunk, cbFLDBinaryChunkNormalized]
  omega

theorem normalizeBinarySegment_length {idb : Limits} (havail : 0 < cbKeyAvail)
    (fFixedField : Bool) (pbField : List UInt8) :
    (normalizeBinarySegment idb cbKeyAvail fFixedField pbField).bytes.length =
      cbSegWithin idb cbKeyAvail
        (if fFixedField then pbField.length + 1 else cbChunked pbField.length) := by
  rcases fFixedField with _ | _
  · have hpos := cbSegWithin_pos idb havail (Nat.zero_lt_of_lt (cbChunked_gt pbField.length))
    simp only [normalizeBinarySegment, Bool.false_eq_true, if_false, length_cons,
      normalizeChunks_length, Nat.div_add_mod']
    omega
  · have hpos := cbSegWithin_pos idb havail (Nat.zero_lt_of_lt (Nat.lt_add_one pbField.length))
    have hle := (cbSegWithin_le idb cbKeyAvail (pbField.length + 1)).2
    simp only [normalizeBinarySegment, if_true, length_cons, length_take]
    omega

theorem normalizeChunks_congr {cbTail cChunks : Nat} {pbField pbField' : List UInt8}
    (fEntire fEntire' : Bool)
    (hlen : cChunks * cbFLDBinaryChunk < pbField.length ∧
      cChunks * cbFLDBinaryChunk + cbTail ≤ pbField.length)
    (hlen' : cChunks * cbFLDBinaryChunk < pbField'.length ∧
      cChunks * cbFLDBinaryChunk + cbTail ≤ pbField'.length)
    (htake : pbField.take (cChunks * cbFLDBinaryChunk + cbTail) =
      pbField'.take (cChunks * cbFLDBinaryChunk + cbTail)) :
    normalizeChunks fEntire cbTail cChunks pbField =
      normalizeChunks fEntire' cbTail cChunks pbField' := by
  induction cChunks generalizing pbField pbField' with
  | zero =>
    rw [zero_mul, zero_add] at hlen hlen' htake
    rw [normalizeChunks, normalizeChunks, partChunk, partChunk, if_pos hlen.2, if_pos hlen'.2,
      htake]
  | succ cChunks ih =>
    rw [Nat.succ_mul] at hlen hlen' htake
    have hlong : ¬ pbField.length ≤ cbFLDBinaryChunk := by omega
    have hlong' : ¬ pbField'.length ≤ cbFLDBinaryChunk := by omega
    have hchunk := congrArg (take cbFLDBinaryChunk) htake
    have hrest := congrArg (drop cbFLDBinaryChunk) htake
    rw [take_take, take_take, min_eq_left (by omega)] at hchunk
    rw [drop_take, drop_take] at hrest
    have hcount : cChunks * cbFLDBinaryChunk + cbFLDBinaryChunk + cbTail - cbFLDBinaryChunk =
        cChunks * cbFLDBinaryChunk + cbTail := by omega
    rw [hcount] at hrest
    rw [normalizeChunks, normalizeChunks, if_neg hlong, if_neg hlong', hchunk,
      ih (by rw [length_drop]; omega) (by rw [length_drop]; omega) hrest]

theorem normalizeBinarySegment_take (havail : 0 < cbKeyAvail)
    (hcb : cbKeyAvail ≤ cb) (fFixedField : Bool) (pbField : List UInt8) :
    normalizeBinarySegment idb cbKeyAvail fFixedField (pbField.take cb) =
      normalizeBinarySegment idb cbKeyAvail fFixedField pbField := by
  rcases lt_or_ge cb pbField.length with hlt | hge
  · have hlen : (pbField.take cb).length = cb := by
      rw [length_take]
      omega
    rcases fFixedField with _ | _
    · have hgt := cbChunked_gt cb
      have hgt' := cbChunked_gt pbField.length
      obtain ⟨hwithin, htruncated⟩ := cbSegWithin_of_lt idb cbKeyAvail (cbChunked cb)
        (cbChunked pbField.length) (by omega) (by omega)
      have hle := (cbSegWithin_le idb cbKeyAvail (cbChunked pbField.length)).1
      have hpos := cbSegWithin_pos idb havail (Nat.zero_lt_of_lt hgt')
      simp only [normalizeBinarySegment, Bool.false_eq_true, if_false, hlen, hwithin, htruncated]
      generalize cbSegWithin idb cbKeyAvail (cbChunked pbField.length) = cbSeg at hle hpos ⊢
      have hdiv := Nat.div_add_mod' (cbSeg - 1) cbFLDBinaryChunkNormalized
      rw [normalizeChunks_congr]
      all_goals simp only [cbFLDBinaryChunkNormalized, cbFLDBinaryChunk] at hdiv ⊢
      · rw [hlen]
        omega
      · omega
      · rw [take_take, min_eq_left (by omega)]
    · obtain ⟨hwithin, htruncated⟩ := cbSegWithin_of_lt idb cbKeyAvail (cb + 1)
        (pbField.length + 1) (by omega) (by omega)
      have hle := (cbSegWithin_le idb cbKeyAvail (pbField.length + 1)).1
      simp only [normalizeBinarySegment, if_true, hlen, hwithin, htruncated, take_take]
      rw [min_eq_left (by omega)]
  · rw [take_of_length_le hge]

theorem normalizeColumn_trim (havail : 0 < cbKeyAvail)
    (hcb : cbKeyAvail ≤ cb) (seg : IdxSeg) (pb : List UInt8) :
    normalizeColumn idb cbKeyAvail seg (some (trim seg cb pb)) =
      normalizeColumn idb cbKeyAvail seg (some pb) := by
  rw [trim]
  rcases hbinary : fRECBinaryColumn seg.coltyp with _ | _
  · rfl
  · rcases pb with _ | ⟨b, pb⟩
    · simp
    · obtain ⟨cb, rfl⟩ : ∃ n, cb = n + 1 := ⟨cb - 1, by omega⟩
      have htake := normalizeBinarySegment_take idb havail hcb seg.fFixedField (b :: pb)
      rw [take_succ_cons] at htake
      simp only [if_true, take_succ_cons, normalizeColumn, hbinary, htake]

end EseLinux.KeyBuild
