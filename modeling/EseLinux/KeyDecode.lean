import EseLinux.KeySegment

/-!
Columns read back from a key: the decoder of one segment, and the segments it recovers.
-/

namespace EseLinux.KeySegment

open DigitList List

def bMask (fDescending : Bool) : UInt8 := if fDescending then 0xff else 0x00

def wordMask (fDescending : Bool) (cb : Nat) : Nat := if fDescending then maskAll cb else 0

/-- A column read from a key, `none` for NULL, and the key after it. -/
abbrev Decoded := Option (List UInt8) × List UInt8

def takeValue (cb : Nat) (decode : List UInt8 → List UInt8) (pbKey : List UInt8) :
    Option Decoded :=
  if cb ≤ pbKey.length then some (some (decode (pbKey.take cb)), pbKey.drop cb) else none

/-- A value of `cb` bytes behind any prefix but the one of NULL. -/
def retrieveSized (bNull : UInt8) (cb : Nat) (decode : List UInt8 → List UInt8) :
    List UInt8 → Option Decoded
  | [] => none
  | b :: pbKey => if b = bNull then some (none, pbKey) else takeValue cb decode pbKey

/-- A value of `cb` bytes behind the prefix of data; any other prefix is NULL. -/
def retrieveData (bData : UInt8) (cb : Nat) (decode : List UInt8 → List UInt8) :
    List UInt8 → Option Decoded
  | [] => none
  | b :: pbKey => if b = bData then takeValue cb decode pbKey else some (none, pbKey)

def denormalizeReal (cb dwT : Nat) : Nat :=
  if dwT &&& maskHighBit cb ≠ 0 then flipHighBit cb dwT else dwT ^^^ maskAll cb

/-- Where the bytes of the key are stored in the column, one assignment after the other. -/
def rgibStoreDotNetGuid : List Nat := [3, 2, 1, 0, 5, 4, 7, 6, 8, 9, 10, 11, 12, 13, 14, 15]

def rgibStoreGuid : List Nat := [10, 11, 12, 13, 14, 15, 8, 9, 6, 7, 4, 5, 0, 1, 2, 3]

def guidOfKey (fDotNetGuid : Bool) (pbKey : List UInt8) : List UInt8 :=
  ((if fDotNetGuid then rgibStoreDotNetGuid else rgibStoreGuid).zip pbKey).foldl
    (fun pb store => pb.set store.1 store.2) (replicate 16 0)

def retrieveChunks (fDescending : Bool) (pbKey : List UInt8) : Option (List UInt8 × List UInt8) :=
  if cbFLDBinaryChunkNormalized ≤ pbKey.length then
    let bChunk := bMask fDescending ^^^ pbKey.getD (cbFLDBinaryChunkNormalized - 1) 0
    let cbChunk :=
      if bChunk.toNat = cbFLDBinaryChunkNormalized then cbFLDBinaryChunkNormalized - 1
      else bChunk.toNat
    let pbColumn := flipBits fDescending (pbKey.take cbChunk)
    if bChunk.toNat = cbFLDBinaryChunkNormalized then
      (retrieveChunks fDescending (pbKey.drop cbFLDBinaryChunkNormalized)).map fun rest =>
        (pbColumn ++ rest.1, rest.2)
    else some (pbColumn, pbKey.drop cbFLDBinaryChunkNormalized)
  else none
termination_by pbKey.length
decreasing_by
  rw [length_drop]
  simp only [cbFLDBinaryChunkNormalized] at *
  omega

def retrieveVarBinary (fDescending : Bool) (bNull bData : UInt8) : List UInt8 → Option Decoded
  | [] => none
  | b :: pbKey =>
    if b = bData then
      (retrieveChunks fDescending pbKey).map fun rest => (some rest.1, rest.2)
    else if b = bNull then some (none, pbKey)
    else some (some [], pbKey)

/-- `none` when the key ends inside the column. -/
def retrieveColumnFromKey (idb : Limits) (seg : IdxSeg) (pbKey : List UInt8) : Option Decoded :=
  let fDescending := seg.fDescending
  let bNull := bMask fDescending ^^^ idb.bPrefixNullT
  let bData := bMask fDescending ^^^ bPrefixData
  match seg.coltyp with
  | .bit => retrieveSized bNull 1 (fun pb =>
    [if bMask fDescending ^^^ pb.getD 0 0 = 0 then 0x00 else 0xff]) pbKey
  | .unsignedByte => retrieveSized bNull 1 (fun pb => [bMask fDescending ^^^ pb.getD 0 0]) pbKey
  | .short => retrieveSized bNull 2 (fun pb =>
    leBytes 2 (wordMask fDescending 2 ^^^ flipHighBit 2 (ofBigEndian pb))) pbKey
  | .unsignedShort => retrieveSized bNull 2 (fun pb =>
    leBytes 2 (wordMask fDescending 2 ^^^ ofBigEndian pb)) pbKey
  | .long => retrieveSized bNull 4 (fun pb =>
    leBytes 4 (wordMask fDescending 4 ^^^ flipHighBit 4 (ofBigEndian pb))) pbKey
  | .unsignedLong => retrieveSized bNull 4 (fun pb =>
    leBytes 4 (wordMask fDescending 4 ^^^ ofBigEndian pb)) pbKey
  | .longLong | .currency => retrieveSized bNull 8 (fun pb =>
    leBytes 8 (wordMask fDescending 8 ^^^ flipHighBit 8 (ofBigEndian pb))) pbKey
  | .unsignedLongLong => retrieveSized bNull 8 (fun pb =>
    leBytes 8 (wordMask fDescending 8 ^^^ ofBigEndian pb)) pbKey
  | .ieeeSingle => retrieveSized bNull 4 (fun pb =>
    leBytes 4 (denormalizeReal 4 (wordMask fDescending 4 ^^^ ofBigEndian pb))) pbKey
  | .ieeeDouble | .dateTime => retrieveSized bNull 8 (fun pb =>
    leBytes 8 (denormalizeReal 8 (wordMask fDescending 8 ^^^ ofBigEndian pb))) pbKey
  -- neither the prefix nor the bytes are masked here
  | .guid => retrieveData bPrefixData 16 (guidOfKey idb.fDotNetGuid) pbKey
  | .binary | .longBinary =>
    if seg.fFixedField then retrieveData bData seg.cbMaxLen (flipBits fDescending) pbKey
    else retrieveVarBinary fDescending bNull bData pbKey

def keySegment (idb : Limits) (cbKeyAvail : Nat) (seg : IdxSeg) (v : Option (List UInt8)) :
    List UInt8 :=
  flipBits seg.fDescending ((normalizeColumn idb cbKeyAvail seg v).bytes.take cbKeyAvail)

variable (fDescending : Bool)

theorem bMask_xor (b : UInt8) : bMask fDescending ^^^ (bMask fDescending ^^^ b) = b := by
  rw [← UInt8.xor_assoc, UInt8.xor_self, UInt8.zero_xor]

theorem flipBits_eq_map (bytes : List UInt8) :
    flipBits fDescending bytes = bytes.map (bMask fDescending ^^^ ·) := by
  rcases fDescending with _ | _
  · simp [flipBits, bMask]
  · simp [flipBits, bMask, UInt8.xor_comm]

@[simp] theorem flipBits_length (bytes : List UInt8) :
    (flipBits fDescending bytes).length = bytes.length := by
  simp [flipBits_eq_map]

@[simp] theorem flipBits_nil : flipBits fDescending [] = [] := by
  simp [flipBits_eq_map]

@[simp] theorem flipBits_cons (b : UInt8) (bytes : List UInt8) :
    flipBits fDescending (b :: bytes) =
      (bMask fDescending ^^^ b) :: flipBits fDescending bytes := by
  simp [flipBits_eq_map]

theorem flipBits_append (bytes bytes' : List UInt8) : flipBits fDescending (bytes ++ bytes') =
      flipBits fDescending bytes ++ flipBits fDescending bytes' := by
  simp [flipBits_eq_map]

theorem flipBits_take (n : Nat) (bytes : List UInt8) :
    flipBits fDescending (bytes.take n) = (flipBits fDescending bytes).take n := by
  simp [flipBits_eq_map, map_take]

@[simp] theorem flipBits_flipBits (bytes : List UInt8) :
    flipBits fDescending (flipBits fDescending bytes) = bytes := by
  simp only [flipBits_eq_map, map_map, Function.comp_def, bMask_xor, map_id_fun', id_eq]

variable {pbField : List UInt8} {seg : IdxSeg} {cb : Nat}

theorem keySegment_whole {idb : Limits} {cbKeyAvail : Nat}
    {v : Option (List UInt8)} (h : Whole idb cbKeyAvail seg v) :
    keySegment idb cbKeyAvail seg v = flipBits seg.fDescending (wholeSegment idb seg v) := by
  rw [keySegment, normalizeColumn_whole h, take_of_length_le h.1]

theorem two_pow_eight_mul (cb : Nat) : 2 ^ (8 * cb) = 256 ^ cb := pow_mul 2 8 cb

variable {w : Nat}

theorem maskAll_xor (hw : w < 2 ^ (8 * cb)) : maskAll cb ^^^ w = 2 ^ (8 * cb) - 1 - w := by
  apply Nat.eq_of_testBit_eq
  intro i
  have hsub : 2 ^ (8 * cb) - 1 - w = 2 ^ (8 * cb) - (w + 1) := by omega
  rw [maskAll, Nat.testBit_xor, Nat.testBit_two_pow_sub_one, hsub, Nat.testBit_two_pow_sub_succ hw]
  rcases lt_or_ge i (8 * cb) with hi | hi
  · simp [hi]
  · have hzero : w.testBit i = false :=
      Nat.testBit_eq_false_of_lt (hw.trans_le (Nat.pow_le_pow_right (by decide) hi))
    simp [not_lt.mpr hi, hzero]

theorem toNat_flip (b : UInt8) : (0xff ^^^ b).toNat = 255 - b.toNat := by
  have hb : b.toNat < 2 ^ (8 * 1) := b.toNat_lt
  rw [UInt8.toNat_xor]
  exact maskAll_xor hb

theorem leNat_flip (bytes : List UInt8) :
    leNat (bytes.map (0xff ^^^ ·)) = 256 ^ bytes.length - 1 - leNat bytes := by
  induction bytes with
  | nil => rfl
  | cons b bytes ih =>
    have hb := b.toNat_lt
    have hlt := leNat_lt bytes
    rw [map_cons, leNat_cons, leNat_cons, ih, toNat_flip, length_cons, pow_succ']
    omega

theorem ofBigEndian_bigEndian (hw : w < 2 ^ (8 * cb)) : ofBigEndian (bigEndian cb w) = w := by
  rw [ofBigEndian, bigEndian, reverse_reverse]
  exact leNat_leBytes_of_lt (two_pow_eight_mul cb ▸ hw)

@[simp] theorem bigEndian_length (cb w : Nat) : (bigEndian cb w).length = cb := by
  simp [bigEndian]

theorem wordMask_xor_flipBits (hw : w < 2 ^ (8 * cb)) :
    wordMask fDescending cb ^^^ ofBigEndian (flipBits fDescending (bigEndian cb w)) = w := by
  rcases fDescending with _ | _
  · simp [wordMask, flipBits, ofBigEndian_bigEndian hw]
  · have hflip : ofBigEndian (flipBits true (bigEndian cb w)) = maskAll cb ^^^ w := by
      rw [flipBits_eq_map, ofBigEndian, ← map_reverse, bMask, if_pos rfl, leNat_flip,
        length_reverse, bigEndian_length, maskAll_xor hw, two_pow_eight_mul]
      exact congrArg (256 ^ cb - 1 - ·) (ofBigEndian_bigEndian hw)
    rw [hflip, wordMask, if_pos rfl, ← Nat.xor_assoc, Nat.xor_self, Nat.zero_xor]

theorem flipHighBit_lt (hcb : 0 < cb) (hw : w < 2 ^ (8 * cb)) : flipHighBit cb w < 2 ^ (8 * cb) :=
  Nat.xor_lt_two_pow hw (Nat.pow_lt_pow_right (by decide) (by omega))

@[simp] theorem flipHighBit_flipHighBit (cb w : Nat) : flipHighBit cb (flipHighBit cb w) = w := by
  rw [flipHighBit, flipHighBit, Nat.xor_assoc, Nat.xor_self, Nat.xor_zero]

theorem and_maskHighBit (cb w : Nat) :
    w &&& maskHighBit cb ≠ 0 ↔ w.testBit (8 * cb - 1) = true := by
  rw [maskHighBit, Nat.and_two_pow]
  rcases w.testBit (8 * cb - 1) with _ | _
  · simp
  · simp

theorem testBit_xor_maskAll (hcb : 0 < cb) (w : Nat) :
    (w ^^^ maskAll cb).testBit (8 * cb - 1) = !w.testBit (8 * cb - 1) := by
  have hlt : 8 * cb - 1 < 8 * cb := by omega
  rw [maskAll, Nat.testBit_xor, Nat.testBit_two_pow_sub_one, decide_eq_true hlt, Bool.xor_true]

theorem normalizeReal_lt (hcb : 0 < cb) (hw : w < 2 ^ (8 * cb)) :
    normalizeReal cb w < 2 ^ (8 * cb) := by
  rw [normalizeReal]
  split
  · exact Nat.xor_lt_two_pow hw (Nat.sub_one_lt (Nat.two_pow_pos _).ne')
  · exact flipHighBit_lt hcb hw

theorem denormalizeReal_normalizeReal (hcb : 0 < cb) (w : Nat) :
    denormalizeReal cb (normalizeReal cb w) = w := by
  rw [normalizeReal]
  split
  · rename_i hneg
    have hclear : ¬ ((w ^^^ maskAll cb) &&& maskHighBit cb ≠ 0) := by
      rw [and_maskHighBit, testBit_xor_maskAll hcb, (and_maskHighBit cb w).mp hneg]
      decide
    rw [denormalizeReal, if_neg hclear, Nat.xor_assoc, Nat.xor_self, Nat.xor_zero]
  · rename_i hpos
    have hset : flipHighBit cb w &&& maskHighBit cb ≠ 0 := by
      rw [and_maskHighBit, flipHighBit, maskHighBit, Nat.testBit_xor, Nat.testBit_two_pow_self,
    Bool.xor_true]
      rw [and_maskHighBit, Bool.not_eq_true] at hpos
      rw [hpos]
      rfl
    rw [denormalizeReal, if_pos hset, flipHighBit_flipHighBit]

theorem retrieveChunks_step {eight : List UInt8}
    (height : eight.length = cbFLDBinaryChunk) (bChunk : UInt8)
    (hcount : bChunk.toNat ≤ cbFLDBinaryChunkNormalized) (pbKey : List UInt8) :
    retrieveChunks fDescending (flipBits fDescending (eight ++ [bChunk]) ++ pbKey) =
      if bChunk.toNat = cbFLDBinaryChunkNormalized then
        (retrieveChunks fDescending pbKey).map fun rest => (eight ++ rest.1, rest.2)
      else some (eight.take bChunk.toNat, pbKey) := by
  have hlen : (flipBits fDescending eight).length = cbFLDBinaryChunk :=
    (flipBits_length fDescending eight).trans height
  have hkey : flipBits fDescending (eight ++ [bChunk]) ++ pbKey =
      flipBits fDescending eight ++ (bMask fDescending ^^^ bChunk) :: pbKey := by
    rw [flipBits_append, flipBits_cons, flipBits_nil, append_assoc, singleton_append]
  have hbyte : (flipBits fDescending eight ++ (bMask fDescending ^^^ bChunk) :: pbKey).getD
      (cbFLDBinaryChunkNormalized - 1) 0 = bMask fDescending ^^^ bChunk := by
    rw [getD_append_right _ _ _ _ (hlen.le.trans (by decide)), hlen]
    rfl
  have hdrop : (flipBits fDescending eight ++ (bMask fDescending ^^^ bChunk) :: pbKey).drop
      cbFLDBinaryChunkNormalized = pbKey := by
    rw [cbFLDBinaryChunkNormalized, ← hlen, ← drop_drop, drop_left, drop_one,
      tail_cons]
  have htake {n : Nat} (hn : n ≤ cbFLDBinaryChunk) : flipBits fDescending
      ((flipBits fDescending eight ++ (bMask fDescending ^^^ bChunk) :: pbKey).take n) =
        eight.take n := by
    rw [take_append_of_le_length (hlen ▸ hn), ← flipBits_take, flipBits_flipBits]
  rw [retrieveChunks, hkey, if_pos (by
    rw [length_append, hlen, length_cons, cbFLDBinaryChunkNormalized]
    omega)]
  simp only [hbyte, hdrop, bMask_xor]
  split
  · have hall : eight.take (cbFLDBinaryChunkNormalized - 1) = eight :=
      take_of_length_le (by rw [height]; decide)
    rw [htake (by decide), hall]
  case isFalse hne => rw [htake (Nat.le_of_lt_succ (Nat.lt_of_le_of_ne hcount hne))]

theorem retrieveChunks_chunked (hpos : pbField ≠ []) (pbKey : List UInt8) :
    retrieveChunks fDescending (flipBits fDescending (chunked pbField) ++ pbKey) =
      some (pbField, pbKey) := by
  induction pbField, hpos using chunk_induction with
  | last pbField hpos hle =>
    have hle8 : pbField.length ≤ 8 := hle
    have htoNat : (UInt8.ofNat pbField.length).toNat = pbField.length := by
      rw [UInt8.toNat_ofNat']
      omega
    have hpad : (pbField ++ replicate (cbFLDBinaryChunk - pbField.length) (0 : UInt8)).length =
        cbFLDBinaryChunk := by
      rw [length_append, length_replicate]
      omega
    have hne : ¬ pbField.length = cbFLDBinaryChunkNormalized := by
      simp only [cbFLDBinaryChunkNormalized, cbFLDBinaryChunk]
      omega
    rw [chunked_last hpos hle, lastChunk_true,
      retrieveChunks_step fDescending hpad _ (by rw [htoNat]; exact Nat.le_succ_of_le hle),
      htoNat, if_neg hne, take_left]
  | next pbField hpos hlt ih =>
    have hlen : (pbField.take cbFLDBinaryChunk).length = cbFLDBinaryChunk := by
      rw [length_take]
      omega
    have hsplit : pbField.take cbFLDBinaryChunk ++
        UInt8.ofNat cbFLDBinaryChunkNormalized :: chunked (pbField.drop cbFLDBinaryChunk) =
          (pbField.take cbFLDBinaryChunk ++ [UInt8.ofNat cbFLDBinaryChunkNormalized]) ++
            chunked (pbField.drop cbFLDBinaryChunk) := by
      simp
    rw [chunked_next hlt, hsplit, flipBits_append, append_assoc,
      retrieveChunks_step fDescending hlen _ (by decide), if_pos (by decide), ih]
    simp

variable (idb : Limits)

theorem bMask_prefixes (fDescending : Bool) :
    bMask fDescending ^^^ bPrefixData ≠ bMask fDescending ^^^ idb.bPrefixNullT ∧
      bMask fDescending ^^^ bPrefixZeroLength ≠ bMask fDescending ^^^ bPrefixData ∧
      bMask fDescending ^^^ bPrefixZeroLength ≠ bMask fDescending ^^^ idb.bPrefixNullT ∧
      bMask fDescending ^^^ idb.bPrefixNullT ≠ bPrefixData := by
  rw [Limits.bPrefixNullT]
  rcases fDescending with _ | _ <;> rcases idb.fSortNullsHigh with _ | _ <;> decide

theorem retrieve_null (seg : IdxSeg) (pbKey : List UInt8) :
    retrieveColumnFromKey idb seg ((bMask seg.fDescending ^^^ idb.bPrefixNullT) :: pbKey) =
      some (none, pbKey) := by
  obtain ⟨hdata, -, -, hguid⟩ := bMask_prefixes idb seg.fDescending
  rcases hcoltyp : seg.coltyp <;>
    simp [retrieveColumnFromKey, hcoltyp, retrieveSized, retrieveData, retrieveVarBinary,
      hdata.symm, hguid]

theorem takeValue_append {bytes : List UInt8} (hlen : bytes.length = cb)
    (decode : List UInt8 → List UInt8) (pbKey : List UInt8) :
    takeValue cb decode (bytes ++ pbKey) = some (some (decode bytes), pbKey) := by
  rw [takeValue, if_pos (by rw [length_append]; omega), ← hlen, take_left, drop_left]

theorem retrieveSized_data (fDescending : Bool) {bytes : List UInt8}
    (hlen : bytes.length = cb) (decode : List UInt8 → List UInt8) (pbKey : List UInt8) :
    retrieveSized (bMask fDescending ^^^ idb.bPrefixNullT) cb decode
        (flipBits fDescending (bPrefixData :: bytes) ++ pbKey) =
      some (some (decode (flipBits fDescending bytes)), pbKey) := by
  rw [flipBits_cons, cons_append, retrieveSized, if_neg (bMask_prefixes idb fDescending).1,
    takeValue_append (by rw [flipBits_length, hlen])]

theorem retrieveSized_word (fDescending : Bool) {f g : Nat → Nat}
    {decode : List UInt8 → List UInt8} (hlen : pbField.length = cb)
    (hf : f (leNat pbField) < 2 ^ (8 * cb)) (hg : g (f (leNat pbField)) = leNat pbField)
    (hdecode : ∀ pb, decode pb = leBytes cb (g (wordMask fDescending cb ^^^ ofBigEndian pb)))
    (pbKey : List UInt8) : retrieveSized (bMask fDescending ^^^ idb.bPrefixNullT) cb decode
        (flipBits fDescending (bPrefixData :: bigEndian cb (f (leNat pbField))) ++ pbKey) =
      some (some pbField, pbKey) := by
  rw [retrieveSized_data idb fDescending (bigEndian_length cb _), hdecode,
    wordMask_xor_flipBits fDescending hf, hg, ← hlen, leBytes_leNat]

/-- Each byte is stored where the encoder took it from. -/
theorem guidOfKey_normalized (fDotNetGuid : Bool) (hlen : pbField.length = 16) :
    guidOfKey fDotNetGuid ((rgibOfGuid fDotNetGuid).map fun ib => pbField.getD ib 0) = pbField := by
  match pbField, hlen with
  | [_, _, _, _, _, _, _, _, _, _, _, _, _, _, _, _], _ =>
    rcases fDotNetGuid with _ | _
    · rfl
    · rfl

theorem leNat_lt_word (hlen : pbField.length = cb) :
    leNat pbField < 2 ^ (8 * cb) := by
  rw [two_pow_eight_mul, ← hlen]
  exact leNat_lt pbField

theorem retrieve_number (hsize : seg.coltyp.size = some cb)
    (hbit : seg.coltyp ≠ .bit) (hguid : seg.coltyp ≠ .guid)
    (hlen : pbField.length = cb) (pbKey : List UInt8) :
    retrieveColumnFromKey idb seg (flipBits seg.fDescending
        (normalizeFixedSegment seg.coltyp idb.fDotNetGuid pbField) ++ pbKey) =
      some (some pbField, pbKey) := by
  have hword := leNat_lt_word hlen
  have hflip (hcb : 0 < cb) := flipHighBit_lt hcb hword
  have hreal (hcb : 0 < cb) := normalizeReal_lt hcb hword
  have hsigned (cb x : Nat) : wordMask seg.fDescending cb ^^^ flipHighBit cb x =
      flipHighBit cb (wordMask seg.fDescending cb ^^^ x) :=
    (Nat.xor_assoc _ x (maskHighBit cb)).symm
  rw [retrieveColumnFromKey]
  rcases hcoltyp : seg.coltyp <;> rw [hcoltyp] at hsize hbit hguid <;> cases hsize
  case bit => exact absurd rfl hbit
  case guid => exact absurd rfl hguid
  case unsignedByte =>
    obtain ⟨b, rfl⟩ := length_eq_one_iff.mp hlen
    refine (retrieveSized_data idb seg.fDescending rfl _ pbKey).trans ?_
    simp only [flipBits_cons, flipBits_nil, getD_cons_zero, bMask_xor]
  case unsignedShort | unsignedLong | unsignedLongLong =>
    exact retrieveSized_word (f := id) (g := id) idb seg.fDescending hlen hword rfl (fun _ => rfl)
      pbKey
  case short | long | longLong | currency =>
    exact retrieveSized_word idb seg.fDescending hlen (hflip (by decide))
      (flipHighBit_flipHighBit _ _) (fun _ => by rw [hsigned]) pbKey
  case ieeeSingle | ieeeDouble | dateTime =>
    exact retrieveSized_word idb seg.fDescending hlen (hreal (by decide))
      (denormalizeReal_normalizeReal (by decide) _) (fun _ => rfl) pbKey

theorem retrieve_bit (hcoltyp : seg.coltyp = .bit) (b : UInt8) (pbKey : List UInt8) :
    retrieveColumnFromKey idb seg (flipBits seg.fDescending
        (normalizeFixedSegment seg.coltyp idb.fDotNetGuid [b]) ++ pbKey) =
      some (some [if b = 0 then 0x00 else 0xff], pbKey) := by
  have hbit (c : UInt8) (hc : c = 0x00 ∨ c = 0xff) :
      (if c = 0 then (0x00 : UInt8) else 0xff) = c := by
    rcases hc with rfl | rfl <;> rfl
  simp only [retrieveColumnFromKey, hcoltyp, normalizeFixedSegment, getD_cons_zero]
  refine (retrieveSized_data idb seg.fDescending rfl _ pbKey).trans ?_
  simp only [flipBits_cons, flipBits_nil, getD_cons_zero, bMask_xor]
  rw [hbit]
  split
  · exact Or.inl rfl
  · exact Or.inr rfl

theorem retrieve_guid (hcoltyp : seg.coltyp = .guid)
    (hascending : seg.fDescending = false) (hlen : pbField.length = 16) (pbKey : List UInt8) :
    retrieveColumnFromKey idb seg (flipBits seg.fDescending
        (normalizeFixedSegment seg.coltyp idb.fDotNetGuid pbField) ++ pbKey) =
      some (some pbField, pbKey) := by
  have hrgib : (rgibOfGuid idb.fDotNetGuid).length = 16 := by
    rcases idb.fDotNetGuid with _ | _ <;> rfl
  simp only [retrieveColumnFromKey, hcoltyp, normalizeFixedSegment, hascending, flipBits,
    Bool.false_eq_true, if_false, cons_append, retrieveData, if_true]
  rw [takeValue_append (by rw [length_map, hrgib]), guidOfKey_normalized _ hlen]

theorem retrieve_guid_descending (hcoltyp : seg.coltyp = .guid)
    (hdescending : seg.fDescending = true) (pbField pbKey : List UInt8) :
    ∃ pbRest, retrieveColumnFromKey idb seg (flipBits seg.fDescending
        (normalizeFixedSegment seg.coltyp idb.fDotNetGuid pbField) ++ pbKey) =
      some (none, pbRest) := by
  have hprefix : bMask true ^^^ bPrefixData ≠ bPrefixData := by decide
  simp only [retrieveColumnFromKey, hcoltyp, normalizeFixedSegment, hdescending, flipBits_cons,
    cons_append, retrieveData, if_neg hprefix]
  exact ⟨_, rfl⟩

section Binary

variable (hcoltyp : fRECBinaryColumn seg.coltyp = true) (pbKey : List UInt8)
include hcoltyp

theorem retrieveColumnFromKey_binary :
    retrieveColumnFromKey idb seg pbKey = if seg.fFixedField then
        retrieveData (bMask seg.fDescending ^^^ bPrefixData) seg.cbMaxLen
          (flipBits seg.fDescending) pbKey
      else retrieveVarBinary seg.fDescending (bMask seg.fDescending ^^^ idb.bPrefixNullT)
        (bMask seg.fDescending ^^^ bPrefixData) pbKey := by
  rw [retrieveColumnFromKey]
  rcases htyp : seg.coltyp <;> rw [htyp] at hcoltyp <;> first | rfl | cases hcoltyp

theorem retrieve_binary {b : UInt8} (hv : seg.Holds (some (b :: pbField))) :
    retrieveColumnFromKey idb seg (flipBits seg.fDescending
        (wholeSegment idb seg (some (b :: pbField))) ++ pbKey) =
      some (some (b :: pbField), pbKey) := by
  rw [retrieveColumnFromKey_binary idb hcoltyp, wholeSegment, if_pos hcoltyp, flipBits_cons,
    cons_append]
  rcases hfixed : seg.fFixedField with _ | _
  · rw [if_neg Bool.false_ne_true, if_neg Bool.false_ne_true, retrieveVarBinary, if_pos rfl,
      retrieveChunks_chunked seg.fDescending (cons_ne_nil b pbField)]
    rfl
  · rw [if_pos rfl, if_pos rfl, retrieveData, if_pos rfl,
      takeValue_append (by rw [flipBits_length]; exact hv.1 hfixed), flipBits_flipBits]

theorem retrieve_zeroLength (hfixed : seg.fFixedField = false) :
    retrieveColumnFromKey idb seg ((bMask seg.fDescending ^^^ bPrefixZeroLength) :: pbKey) =
      some (some [], pbKey) := by
  obtain ⟨-, hdata, hnull, -⟩ := bMask_prefixes idb seg.fDescending
  rw [retrieveColumnFromKey_binary idb hcoltyp, hfixed, if_neg Bool.false_ne_true,
    retrieveVarBinary, if_neg hdata, if_neg hnull]

end Binary

/-- No GUID in a descending column, no zero-length value outside a binary column, and for a bit
one of the two bytes that the record format stores. -/
def Recoverable (seg : IdxSeg) (v : Option (List UInt8)) : Prop :=
  (seg.coltyp = .guid → seg.fDescending = true → v = none) ∧
    (v = some [] → fRECBinaryColumn seg.coltyp = true) ∧
      (seg.coltyp = .bit → v = none ∨ v = some [0x00] ∨ v = some [0xff])

theorem not_fixed_of_zeroLength (hv : seg.Holds (some [])) :
    seg.fFixedField = false := by
  rcases hfixed : seg.fFixedField with _ | _
  · rfl
  · exact absurd (hv.1 hfixed).symm (seg.hcbMaxLen hfixed).1.ne'

theorem size_of_not_binary {coltyp : Coltyp} (h : fRECBinaryColumn coltyp = false) :
    ∃ cb, coltyp.size = some cb := by
  cases coltyp <;> first | exact ⟨_, rfl⟩ | cases h

theorem retrieve_data_iff {b : UInt8} (hv : seg.Holds (some (b :: pbField))) (pbKey : List UInt8) :
    retrieveColumnFromKey idb seg (flipBits seg.fDescending
        (wholeSegment idb seg (some (b :: pbField))) ++ pbKey) = some (some (b :: pbField), pbKey) ↔
      Recoverable seg (some (b :: pbField)) := by
  rcases hbinary : fRECBinaryColumn seg.coltyp with _ | _
  · obtain ⟨cb, hsize⟩ := size_of_not_binary hbinary
    have hlen : (b :: pbField).length = cb := (hv.2 cb hsize).resolve_left (cons_ne_nil b pbField)
    have hseg : wholeSegment idb seg (some (b :: pbField)) =
        normalizeFixedSegment seg.coltyp idb.fDotNetGuid (b :: pbField) := by
      simp [wholeSegment, hbinary]
    rw [hseg]
    rcases eq_or_ne seg.coltyp .bit with hbit | hbit
    · rw [hbit] at hsize
      cases hsize
      obtain rfl : pbField = [] := length_eq_zero_iff.mp (Nat.succ.inj hlen)
      have hstored : (if b = 0 then (0x00 : UInt8) else 0xff) = b ↔ b = 0x00 ∨ b = 0xff := by
        by_cases hb : b = 0
        · simp [hb]
        · rw [if_neg hb, eq_comm]
          exact ⟨Or.inr, fun h => h.resolve_left hb⟩
      rw [retrieve_bit idb hbit]
      simpa [Recoverable, hbit] using hstored
    · rcases eq_or_ne seg.coltyp .guid with hguid | hguid
      · rw [hguid] at hsize
        cases hsize
        rcases hdescending : seg.fDescending with _ | _
        · rw [← hdescending, retrieve_guid idb hguid hdescending hlen]
          simp [Recoverable, hguid, hdescending]
        · obtain ⟨pbRest, hrest⟩ :=
            retrieve_guid_descending idb hguid hdescending (b :: pbField) pbKey
          rw [← hdescending, hrest]
          simp [Recoverable, hguid, hdescending]
      · rw [retrieve_number idb hsize hbit hguid hlen]
        simp [Recoverable, hbit, hguid]
  · have hbit : seg.coltyp ≠ .bit := fun h => by rw [h] at hbinary; cases hbinary
    have hguid : seg.coltyp ≠ .guid := fun h => by rw [h] at hbinary; cases hbinary
    rw [retrieve_binary idb hbinary pbKey hv]
    simp [Recoverable, hbit, hguid]

/-- A whole segment, whatever follows it in the key, gives back the value it was made of and
ends where the next segment starts, exactly for the recoverable values. -/
theorem retrieveColumnFromKey_keySegment (idb : Limits) (cbKeyAvail : Nat) (seg : IdxSeg)
    (v : Option (List UInt8)) (hv : seg.Holds v) (hwhole : Whole idb cbKeyAvail seg v)
    (pbKey : List UInt8) :
    retrieveColumnFromKey idb seg (keySegment idb cbKeyAvail seg v ++ pbKey) = some (v, pbKey) ↔
      Recoverable seg v := by
  rw [keySegment_whole hwhole]
  rcases v with _ | _ | ⟨b, pbField⟩
  · simp [wholeSegment, normalizeNullSegment, retrieve_null, Recoverable]
  · rcases hbinary : fRECBinaryColumn seg.coltyp with _ | _
    · simp [wholeSegment, normalizeNullSegment, hbinary, retrieve_null, Recoverable]
    · have hbit : seg.coltyp ≠ .bit := fun h => by rw [h] at hbinary; cases hbinary
      have hguid : seg.coltyp ≠ .guid := fun h => by rw [h] at hbinary; cases hbinary
      simp [wholeSegment, normalizeNullSegment, hbinary, Recoverable, hbit, hguid,
        retrieve_zeroLength idb hbinary pbKey (not_fixed_of_zeroLength hv)]
  · exact retrieve_data_iff idb hv pbKey

def defaultLimits : Limits := ⟨255, 255, false, false, by decide, by decide⟩

def binaryDescending : IdxSeg := ⟨.longBinary, false, 0, true, by simp, by simp⟩

def binaryAscending : IdxSeg := ⟨.longBinary, false, 0, false, by simp, by simp⟩

def shortDescending : IdxSeg := ⟨.short, true, 2, true, by simp, by simp [Coltyp.size]⟩

/-- Ten bytes in two chunks, behind which another segment starts. -/
theorem binaryDescending_retrieved :
    Recoverable binaryDescending (some (replicate 10 0x41)) ∧
      retrieveColumnFromKey defaultLimits binaryDescending
          (keySegment defaultLimits 255 binaryDescending (some (replicate 10 0x41)) ++ [0x7f]) =
        some (some (replicate 10 0x41), [0x7f]) := by
  have hrecoverable : Recoverable binaryDescending (some (replicate 10 0x41)) := by
    refine ⟨?_, ?_, ?_⟩
    · intro h
      cases h
    · intro _
      rfl
    · intro h
      cases h
  refine ⟨hrecoverable, (retrieveColumnFromKey_keySegment defaultLimits 255 binaryDescending
    (some (replicate 10 0x41)) ⟨?_, ?_⟩ ⟨?_, ?_⟩ [0x7f]).mpr hrecoverable⟩
  · intro h
    cases h
  · intro n hn
    cases hn
  · decide
  · intro _ _ _ h
    exact absurd rfl h

def guidDescending : IdxSeg := ⟨.guid, true, 16, true, by simp, by simp [Coltyp.size]⟩

def someGuid : List UInt8 := (range 16).map UInt8.ofNat

/-- The key of a descending GUID reads back as NULL. -/
theorem guidDescending_lost :
    guidDescending.Holds (some someGuid) ∧ Whole defaultLimits 255 guidDescending (some someGuid) ∧
      retrieveColumnFromKey defaultLimits guidDescending
          (keySegment defaultLimits 255 guidDescending (some someGuid) ++ [0x7f]) ≠
        some (some someGuid, [0x7f]) := by
  refine ⟨⟨fun _ => rfl, ?_⟩, ⟨by decide, ?_⟩, by decide⟩
  · intro n hn
    cases hn
    exact Or.inr rfl
  · intro h
    cases h

end EseLinux.KeySegment
