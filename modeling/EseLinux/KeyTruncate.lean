import EseLinux.KeyOrder

/-!
A binary segment that does not fit is cut: what is left of it are the first bytes of the segment
that would be there without limits.
-/

namespace EseLinux.KeyTruncate

open KeySegment KeyBuild OrderCode List

def cbNormalized (fFixedField : Bool) (pbField : List UInt8) : Nat :=
  if fFixedField then pbField.length + 1 else cbChunked pbField.length

/-- No limit reaches a segment of `cb` bytes. -/
def Roomy (idb : Limits) (cbKeyAvail cb : Nat) : Prop :=
  cb ≤ cbKeyAvail ∧ (idb.cbVarSegMac ≠ idb.cbKeyMost → cb ≤ idb.cbVarSegMac)

instance (idb : Limits) (cbKeyAvail cb : Nat) : Decidable (Roomy idb cbKeyAvail cb) :=
  inferInstanceAs (Decidable (_ ∧ _))

/-- The most a segment may have: the limit on variable segments where one was set, and the key
space that is left. -/
def cbSegMost (idb : Limits) (cbKeyAvail : Nat) : Nat :=
  if idb.cbVarSegMac = idb.cbKeyMost then cbKeyAvail else min idb.cbVarSegMac cbKeyAvail

def wholeBinary (fFixedField : Bool) (pbField : List UInt8) : List UInt8 :=
  bPrefixData :: if fFixedField then pbField else chunked pbField

theorem cbSegWithin_eq_min (idb : Limits) (cbKeyAvail cb : Nat) :
    cbSegWithin idb cbKeyAvail cb = min (cbSegMost idb cbKeyAvail) cb := by
  have hle := idb.hcbVarSegMac_le
  rw [cbSegWithin, cbSegMost, Limits.cbVarSegMacT]
  by_cases hset : idb.cbKeyMost = idb.cbVarSegMac
  · rw [if_pos hset, if_pos hset.symm, if_neg (by omega)]
    omega
  · rw [if_neg hset, if_neg (Ne.symm hset)]
    split <;> omega

variable {cbKeyAvail : Nat}

theorem fTruncatedWithin_iff (idb : Limits) {cbKeyAvail' cb : Nat} (hroom : cb ≤ cbKeyAvail') :
    fTruncatedWithin idb cbKeyAvail cb = true ↔
      cbSegWithin idb cbKeyAvail cb < cbSegWithin idb cbKeyAvail' cb := by
  rw [cbSegWithin, cbSegWithin, fTruncatedWithin, decide_eq_true_eq]
  generalize hmost : (if idb.cbVarSegMacT < idb.cbKeyMost ∧ cb > idb.cbVarSegMacT then
    idb.cbVarSegMacT else cb) = cbMost
  have hle : cbMost ≤ cb := by
    rw [← hmost]
    split <;> omega
  omega

theorem cbSegMost_of_roomy {idb : Limits} {cb : Nat} (hroom : Roomy idb cbKeyAvail cb) :
    cb ≤ cbSegMost idb cbKeyAvail := by
  rw [cbSegMost]
  split
  · exact hroom.1
  case isFalse hset => exact Nat.le_min.mpr ⟨hroom.2 hset, hroom.1⟩

variable {pbField : List UInt8}

theorem partChunk_eq_take {cbTail : Nat} (htail : cbTail < cbFLDBinaryChunkNormalized)
    (hpos : pbField ≠ []) :
    partChunk cbTail pbField = (chunked pbField).take cbTail := by
  have height : cbTail ≤ cbFLDBinaryChunk := Nat.le_of_lt_succ htail
  have hblock : partChunk cbTail pbField = (block 0 cbFLDBinaryChunk pbField).take cbTail := by
    rw [partChunk, block]
    split
    case isTrue hge =>
      rw [take_append_of_le_length, take_take, min_eq_left height]
      rw [length_take]
      exact Nat.le_min.mpr ⟨height, hge⟩
    case isFalse hlt =>
      have hshort : pbField.length ≤ cbFLDBinaryChunk := by omega
      rw [take_of_length_le hshort, take_append, take_of_length_le (by omega),
        take_replicate, min_eq_left (Nat.sub_le_sub_right height _)]
  rw [hblock, KeyOrder.chunked_eq hpos, append_assoc, take_append_of_le_length]
  rw [block_length]
  exact height

theorem normalizeChunks_eq_take (fNormalisedEntireColumn : Bool) {cbTail : Nat}
    (htail : cbTail < cbFLDBinaryChunkNormalized) (cChunks : Nat)
    (hpos : pbField ≠ [])
    (hlt : cChunks * cbFLDBinaryChunkNormalized + cbTail < (chunked pbField).length) :
    normalizeChunks fNormalisedEntireColumn cbTail cChunks pbField =
      (chunked pbField).take (cChunks * cbFLDBinaryChunkNormalized + cbTail) := by
  induction cChunks generalizing pbField with
  | zero =>
    rw [normalizeChunks, zero_mul, zero_add]
    exact partChunk_eq_take htail hpos
  | succ cChunks ih =>
    have hsize : (cChunks + 1) * cbFLDBinaryChunkNormalized + cbTail =
        cbFLDBinaryChunk + (cChunks * cbFLDBinaryChunkNormalized + cbTail + 1) := by
      rw [Nat.succ_mul, cbFLDBinaryChunkNormalized]
      omega
    -- a last chunk would end all chunks
    have hmore : cbFLDBinaryChunk < pbField.length := by
      by_contra hlast
      rw [chunked_last hpos (by omega), lastChunk_length (by omega)] at hlt
      rw [Nat.succ_mul] at hlt
      omega
    have htake : (pbField.take cbFLDBinaryChunk).length = cbFLDBinaryChunk := by
      rw [length_take, min_eq_left (hmore.le)]
    have hrest : normalizeChunks fNormalisedEntireColumn cbTail cChunks
          (pbField.drop cbFLDBinaryChunk) =
        (chunked (pbField.drop cbFLDBinaryChunk)).take
          (cChunks * cbFLDBinaryChunkNormalized + cbTail) := by
      apply ih (drop_chunk_ne_nil hmore)
      rw [chunked_next hmore, length_append, length_cons, htake, hsize] at hlt
      omega
    have hfirst (cb : Nat) : (pbField.take cbFLDBinaryChunk).take (cbFLDBinaryChunk + cb) =
        pbField.take cbFLDBinaryChunk := take_of_length_le (by omega)
    rw [normalizeChunks, if_neg (by omega), hrest, chunked_next hmore, hsize,
      append_assoc, singleton_append, take_append, htake, hfirst,
      Nat.add_sub_cancel_left, take_succ_cons]

theorem wholeBinary_length (fFixedField : Bool) (hpos : pbField ≠ []) :
    (wholeBinary fFixedField pbField).length = cbNormalized fFixedField pbField := by
  cases fFixedField with
  | true => rfl
  | false => exact chunked_length hpos

theorem bytes_eq_take (idb : Limits) (havail : 0 < cbKeyAvail)
    (fFixedField : Bool) (hpos : pbField ≠ []) :
    (normalizeBinarySegment idb cbKeyAvail fFixedField pbField).bytes =
      (wholeBinary fFixedField pbField).take (cbSegMost idb cbKeyAvail) := by
  have hmost : 0 < cbSegMost idb cbKeyAvail := by
    have hvar := idb.hcbVarSegMac
    rw [cbSegMost]
    split <;> omega
  obtain ⟨cbMost, hcbMost⟩ := Nat.exists_eq_succ_of_ne_zero (Nat.ne_of_gt hmost)
  cases fFixedField with
  | true =>
    have htake : pbField.take (min cbMost pbField.length) = pbField.take cbMost :=
      take_eq_take_iff.mpr (by omega)
    simp only [normalizeBinarySegment, wholeBinary, if_true, cbSegWithin_eq_min, hcbMost,
      Nat.succ_eq_add_one, Nat.add_min_add_right, Nat.add_sub_cancel, take_succ_cons, htake]
  | false =>
    have hlength := chunked_length hpos
    simp only [normalizeBinarySegment, wholeBinary, Bool.false_eq_true, if_false,
      cbSegWithin_eq_min, hcbMost, Nat.succ_eq_add_one, ← hlength, Nat.add_min_add_right,
      Nat.add_sub_cancel, take_succ_cons]
    congr 1
    by_cases hfits : (chunked pbField).length ≤ cbMost
    · have hchunks : (chunked pbField).length =
          (pbField.length + (cbFLDBinaryChunk - 1)) / cbFLDBinaryChunk *
            cbFLDBinaryChunkNormalized := Nat.succ_inj.mp hlength
      rw [Nat.min_eq_right hfits, take_of_length_le hfits, decide_eq_true rfl, hchunks,
        Nat.mul_mod_left, Nat.mul_div_cancel _ (by decide)]
      rfl
    · have hlt := Nat.lt_of_not_le hfits
      rw [Nat.min_eq_left (Nat.le_of_lt hlt)]
      have hdiv := Nat.div_add_mod' cbMost cbFLDBinaryChunkNormalized
      have hmod : cbMost % cbFLDBinaryChunkNormalized < cbFLDBinaryChunkNormalized :=
        Nat.mod_lt _ (by decide)
      rw [normalizeChunks_eq_take _ hmod _ hpos (by omega), hdiv]

theorem bytes_of_roomy {idb : Limits} {fFixedField : Bool} (hpos : pbField ≠ [])
    (hroom : Roomy idb cbKeyAvail (cbNormalized fFixedField pbField)) :
    (normalizeBinarySegment idb cbKeyAvail fFixedField pbField).bytes =
      wholeBinary fFixedField pbField := by
  have hlength := wholeBinary_length fFixedField hpos
  have havail : 0 < cbKeyAvail := by
    have hle := hroom.1
    rw [← hlength, wholeBinary, length_cons] at hle
    omega
  rw [bytes_eq_take idb havail fFixedField hpos]
  apply take_of_length_le
  rw [hlength]
  exact cbSegMost_of_roomy hroom

/-- A cut segment has the first bytes of the whole one, is flagged where the key space cut it, and
compares with another under the same limits as the whole segments do, or equal. -/
theorem normalizeBinarySegment_truncates (idb : Limits) {cbKeyAvail : Nat}
    (havail : 0 < cbKeyAvail) (fFixedField : Bool) {pbField : List UInt8} (hpos : pbField ≠ []) :
    (∀ idb' cbKeyAvail', Roomy idb' cbKeyAvail' (cbNormalized fFixedField pbField) →
      (normalizeBinarySegment idb cbKeyAvail fFixedField pbField).bytes =
        (normalizeBinarySegment idb' cbKeyAvail' fFixedField pbField).bytes.take
          (cbSegMost idb cbKeyAvail)) ∧
    (∀ cbKeyAvail', cbNormalized fFixedField pbField ≤ cbKeyAvail' →
      ((normalizeBinarySegment idb cbKeyAvail fFixedField pbField).fColumnTruncated = true ↔
        (normalizeBinarySegment idb cbKeyAvail fFixedField pbField).bytes.length <
          (normalizeBinarySegment idb cbKeyAvail' fFixedField pbField).bytes.length)) ∧
    ∀ pbField' idb' cbKeyAvail', pbField' ≠ [] →
      Roomy idb' cbKeyAvail' (cbNormalized fFixedField pbField) →
      Roomy idb' cbKeyAvail' (cbNormalized fFixedField pbField') →
      KeyOrder.cmpKey (normalizeBinarySegment idb' cbKeyAvail' fFixedField pbField).bytes
        (normalizeBinarySegment idb' cbKeyAvail' fFixedField pbField').bytes ≠ .gt →
      KeyOrder.cmpKey (normalizeBinarySegment idb cbKeyAvail fFixedField pbField).bytes
        (normalizeBinarySegment idb cbKeyAvail fFixedField pbField').bytes ≠ .gt := by
  refine ⟨?_, ?_, ?_⟩
  · intro idb' cbKeyAvail' hroom
    rw [bytes_of_roomy hpos hroom, bytes_eq_take idb havail fFixedField hpos]
  · intro cbKeyAvail' hle
    have hsize : 0 < cbNormalized fFixedField pbField := by
      rw [← wholeBinary_length fFixedField hpos, wholeBinary, length_cons]
      exact Nat.succ_pos _
    have hflag : (normalizeBinarySegment idb cbKeyAvail fFixedField pbField).fColumnTruncated =
        fTruncatedWithin idb cbKeyAvail (cbNormalized fFixedField pbField) := by
      cases fFixedField <;> rfl
    rw [hflag, fTruncatedWithin_iff idb hle, normalizeBinarySegment_length havail,
      normalizeBinarySegment_length (hsize.trans_le hle)]
    rfl
  · intro pbField' idb' cbKeyAvail' hpos' hroom hroom' hle
    rw [KeyOrder.cmpKey_eq_compare, bytes_of_roomy hpos hroom, bytes_of_roomy hpos' hroom'] at hle
    rw [KeyOrder.cmpKey_eq_compare, bytes_eq_take idb havail fFixedField hpos,
      bytes_eq_take idb havail fFixedField hpos']
    exact compare_take_ne_gt hle _

/-- Keys of up to 255 bytes whose variable segments have no limit of their own. -/
def narrowLimits : Limits where
  cbKeyMost := 255
  cbVarSegMac := 5
  fSortNullsHigh := false
  fDotNetGuid := false
  hcbVarSegMac := by decide
  hcbVarSegMac_le := by decide

/-- Four bytes of key space cut a value of nine bytes in its first chunk. -/
theorem fourBytes_truncated :
    (normalizeBinarySegment defaultLimits 4 false [1, 2, 3, 4, 5, 6, 7, 8, 9]).bytes =
        (normalizeBinarySegment defaultLimits 255 false [1, 2, 3, 4, 5, 6, 7, 8, 9]).bytes.take 4 ∧
      (normalizeBinarySegment defaultLimits 4 false [1, 2, 3, 4, 5, 6, 7, 8, 9]).fColumnTruncated =
        true := by
  obtain ⟨hbytes, hflag, -⟩ := normalizeBinarySegment_truncates defaultLimits
    (show 0 < 4 by decide) false (cons_ne_nil 1 [2, 3, 4, 5, 6, 7, 8, 9])
  exact ⟨hbytes defaultLimits 255 (by decide), (hflag 255 (by decide)).mpr (by decide)⟩

/-- The limit on variable segments drops bytes without a flag. -/
theorem narrowLimits_not_flagged :
    Roomy defaultLimits 255 (cbNormalized false [1, 2, 3]) ∧
      (normalizeBinarySegment narrowLimits 255 false [1, 2, 3]).bytes.length <
        (normalizeBinarySegment defaultLimits 255 false [1, 2, 3]).bytes.length ∧
      (normalizeBinarySegment narrowLimits 255 false [1, 2, 3]).fColumnTruncated = false := by
  decide

end EseLinux.KeyTruncate
