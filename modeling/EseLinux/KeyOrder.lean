import EseLinux.KeyAgree
import EseLinux.OrderCode

/-!
The order of keys is the order of rows: columns compared one after the other, each by the order
of its type, NULL and the zero-length value where the index puts them, and a descending column
the other way round.
-/

namespace EseLinux.KeyOrder

open DigitList KeySegment KeyBuild OrderCode List

/-- A word of `cb` bytes in two's complement. -/
def signed (cb w : Nat) : Int := if w < maskHighBit cb then w else (w : Int) - 2 ^ (8 * cb)

/-- A floating-point word by its sign and magnitude: a negative number comes before every
positive one, and the greater its magnitude the earlier. -/
def realRank (cb w : Nat) : Int := if w < maskHighBit cb then w else (maskHighBit cb : Int) - 1 - w

/-- The .Net order of a GUID: its DWORD, its two WORDs, then its bytes.  The other order looks at
the last six bytes first, then at the pairs in front of them from the last one on, each from its
lower byte on, and at the first four bytes at the end. -/
def cmpGuid (fDotNetGuid : Bool) (pb pb' : List UInt8) : Ordering :=
  if fDotNetGuid then
    (compare (leNat (pb.take 4)) (leNat (pb'.take 4))).then
      ((compare (leNat ((pb.drop 4).take 2)) (leNat ((pb'.drop 4).take 2))).then
        ((compare (leNat ((pb.drop 6).take 2)) (leNat ((pb'.drop 6).take 2))).then
          (compare (pb.drop 8) (pb'.drop 8))))
  else
    (compare (pb.drop 10) (pb'.drop 10)).then
      ((compare ((pb.drop 8).take 2) ((pb'.drop 8).take 2)).then
        ((compare ((pb.drop 6).take 2) ((pb'.drop 6).take 2)).then
          ((compare ((pb.drop 4).take 2) ((pb'.drop 4).take 2)).then
            (compare (pb.take 4) (pb'.take 4)))))

def cmpData (fDotNetGuid : Bool) (pb pb' : List UInt8) : Coltyp → Ordering
  | .bit => compare (decide (leNat pb ≠ 0)) (decide (leNat pb' ≠ 0))
  | .unsignedByte | .unsignedShort | .unsignedLong | .unsignedLongLong =>
    compare (leNat pb) (leNat pb')
  | .short => compare (signed 2 (leNat pb)) (signed 2 (leNat pb'))
  | .long => compare (signed 4 (leNat pb)) (signed 4 (leNat pb'))
  | .longLong | .currency => compare (signed 8 (leNat pb)) (signed 8 (leNat pb'))
  | .ieeeSingle => compare (realRank 4 (leNat pb)) (realRank 4 (leNat pb'))
  | .ieeeDouble | .dateTime => compare (realRank 8 (leNat pb)) (realRank 8 (leNat pb'))
  | .guid => cmpGuid fDotNetGuid pb pb'
  | .binary | .longBinary => compare pb pb'

/-- NULL before or after everything else, the zero-length value before data.  Only a binary
column has a zero-length value; to an index the others are NULL. -/
def rank (idb : Limits) (seg : IdxSeg) : Option (List UInt8) → Nat
  | none => if idb.fSortNullsHigh then 3 else 0
  | some [] =>
    if fRECBinaryColumn seg.coltyp then 1 else if idb.fSortNullsHigh then 3 else 0
  | some (_ :: _) => 2

def cmpValue (idb : Limits) (seg : IdxSeg) (v v' : Option (List UInt8)) : Ordering :=
  (compare (rank idb seg v) (rank idb seg v')).then <|
    match v, v' with
    | some (b :: pb), some (b' :: pb') => cmpData idb.fDotNetGuid (b :: pb) (b' :: pb') seg.coltyp
    | _, _ => .eq

def cmpColumn (idb : Limits) (seg : IdxSeg) (v v' : Option (List UInt8)) : Ordering :=
  if seg.fDescending then (cmpValue idb seg v v').swap else cmpValue idb seg v v'

abbrev Row := List (IdxSeg × Option (List UInt8))

def cmpRow (idb : Limits) : Row → Row → Ordering
  | (seg, v) :: row, (_, v') :: row' => (cmpColumn idb seg v v').then (cmpRow idb row row')
  | _, _ => .eq

def memcmp (pb pb' : List UInt8) (cb : Nat) : Ordering := compare (pb.take cb) (pb'.take cb)

def cmpKey (key key' : List UInt8) : Ordering :=
  (memcmp key key' (min key.length key'.length)).then (compare key.length key'.length)

theorem cmpKey_eq_compare (key key' : List UInt8) : cmpKey key key' = compare key key' :=
  (compare_eq_take_then key key').symm

theorem compare_ofNat {n n' : Nat} (hn : n < 256) (hn' : n' < 256) :
    compare (UInt8.ofNat n) (UInt8.ofNat n') = compare n n' := by
  rw [UInt8.compare_eq_toNat_compare_toNat, UInt8.toNat_ofNat', UInt8.toNat_ofNat',
    Nat.mod_eq_of_lt hn, Nat.mod_eq_of_lt hn']

theorem compare_div_mod {m : Nat} (hm : 0 < m) (w w' : Nat) :
    compare w w' = (compare (w / m) (w' / m)).then (compare (w % m) (w' % m)) := by
  have hw := Nat.div_add_mod w m
  have hw' := Nat.div_add_mod w' m
  have hmod := Nat.mod_lt w hm
  have hmod' := Nat.mod_lt w' hm
  rcases Nat.lt_trichotomy (w / m) (w' / m) with hlt | heq | hgt
  · have hmul := Nat.mul_le_mul_left m (Nat.succ_le_of_lt hlt)
    rw [Nat.mul_succ] at hmul
    rw [Nat.compare_eq_lt.mpr hlt, Nat.compare_eq_lt.mpr (by omega)]
    rfl
  · rw [heq, Nat.compare_eq_eq.mpr rfl]
    rw [heq] at hw
    simp only [compare, compareOfLessAndEq, Ordering.eq_then, show w < w' ↔ w % m < w' % m by omega,
      show w = w' ↔ w % m = w' % m by omega]
  · have hmul := Nat.mul_le_mul_left m (Nat.succ_le_of_lt hgt)
    rw [Nat.mul_succ] at hmul
    rw [Nat.compare_eq_gt.mpr hgt, Nat.compare_eq_gt.mpr (by omega)]
    rfl

theorem leBytes_mod (cb w : Nat) : leBytes cb (w % 256 ^ cb) = leBytes cb w := by
  have h := leBytes_leNat (leBytes cb w)
  rwa [leBytes_length, leNat_leBytes] at h

theorem bigEndian_succ (cb w : Nat) :
    bigEndian (cb + 1) w = UInt8.ofNat (w / 256 ^ cb) :: bigEndian cb (w % 256 ^ cb) := by
  rw [bigEndian, leBytes_succ, reverse_append, reverse_singleton, singleton_append,
    bigEndian, leBytes_mod]

theorem ordered_bigEndian {cb w w' : Nat} (hw : w < 256 ^ cb) (hw' : w' < 256 ^ cb) :
    Ordered (compare w w') (bigEndian cb w) (bigEndian cb w') := by
  induction cb generalizing w w' with
  | zero =>
    obtain rfl : w = 0 := by simpa using hw
    obtain rfl : w' = 0 := by simpa using hw'
    rfl
  | succ cb ih =>
    have hpos : 0 < 256 ^ cb := Nat.pow_pos (by decide)
    have hhigh {w : Nat} (hw : w < 256 ^ (cb + 1)) : w / 256 ^ cb < 256 :=
      (Nat.div_lt_iff_lt_mul hpos).mpr (by rwa [pow_succ'] at hw)
    rw [bigEndian_succ, bigEndian_succ, compare_div_mod hpos w w',
      ← compare_ofNat (hhigh hw) (hhigh hw')]
    exact (ordered_singleton _ _).append fun _ => ih (Nat.mod_lt w hpos) (Nat.mod_lt w' hpos)

theorem two_mul_maskHighBit {cb : Nat} (hcb : 0 < cb) : 2 ^ (8 * cb) = 2 * maskHighBit cb := by
  rw [maskHighBit, ← pow_succ']
  congr 1
  omega

variable {pb pb' : List UInt8} {cb w : Nat} {idb : Idb} {seg : IdxSeg}

theorem flipHighBit_of_lt (hw : w < maskHighBit cb) :
    flipHighBit cb w = maskHighBit cb + w := by
  have h := BitField.xor_add_two_pow_mul hw 0 1
  rw [mul_zero, add_zero, Nat.xor_zero, mul_one, Nat.xor_comm, add_comm] at h
  exact h

theorem flipHighBit_of_ge (hcb : 0 < cb) (hw : w < 2 ^ (8 * cb))
    (hge : maskHighBit cb ≤ w) : flipHighBit cb w = w - maskHighBit cb := by
  have hhalf := two_mul_maskHighBit hcb
  have hlow : w - maskHighBit cb < maskHighBit cb := by omega
  have hflip := flipHighBit_of_lt hlow
  rw [Nat.add_sub_cancel' hge] at hflip
  have hback := congrArg (flipHighBit cb) hflip
  rw [flipHighBit_flipHighBit] at hback
  exact hback.symm

theorem flipHighBit_eq (hcb : 0 < cb) (hw : w < 2 ^ (8 * cb)) :
    (flipHighBit cb w : Int) = signed cb w + maskHighBit cb := by
  have hhalf := two_mul_maskHighBit hcb
  have hhalf' : (2 : Int) ^ (8 * cb) = 2 * maskHighBit cb := by exact_mod_cast hhalf
  rw [signed]
  split
  · rename_i hlt
    rw [flipHighBit_of_lt hlt]
    omega
  · rename_i hge
    rw [flipHighBit_of_ge hcb hw (not_lt.mp hge), hhalf']
    omega

theorem and_maskHighBit_iff (hcb : 0 < cb) (hw : w < 2 ^ (8 * cb)) :
    w &&& maskHighBit cb ≠ 0 ↔ ¬ w < maskHighBit cb := by
  rw [and_maskHighBit, iff_not_comm, Bool.not_eq_true]
  refine ⟨Nat.testBit_lt_two_pow, fun h => ?_⟩
  by_contra hge
  rw [Nat.testBit_of_two_pow_le_and_two_pow_add_one_gt (not_lt.mp hge)
    (by rwa [Nat.sub_add_cancel (by omega)])] at h
  cases h

theorem normalizeReal_eq (hcb : 0 < cb) (hw : w < 2 ^ (8 * cb)) :
    (normalizeReal cb w : Int) = realRank cb w + maskHighBit cb := by
  have hhalf := two_mul_maskHighBit hcb
  have hmask := and_maskHighBit_iff hcb hw
  rw [realRank, normalizeReal]
  rcases lt_or_ge w (maskHighBit cb) with hlt | hge
  · rw [if_neg (mt hmask.mp (not_not.mpr hlt)), if_pos hlt, flipHighBit_of_lt hlt]
    omega
  · rw [if_pos (hmask.mpr (not_lt.mpr hge)), if_neg (not_lt.mpr hge), Nat.xor_comm,
      maskAll_xor hw]
    omega

theorem ordered_of_shift {n n' : Nat} {x x' c : Int} (hn : (n : Int) = x + c)
    (hn' : (n' : Int) = x' + c) (hlt : n < 2 ^ (8 * cb)) (hlt' : n' < 2 ^ (8 * cb)) :
    Ordered (compare x x') (bigEndian cb n) (bigEndian cb n') := by
  have hcompare : compare x x' = compare n n' := by
    simp only [compare, compareOfLessAndEq, show x < x' ↔ n < n' by omega,
      show x = x' ↔ n = n' by omega]
  rw [two_pow_eight_mul] at hlt hlt'
  exact hcompare ▸ ordered_bigEndian hlt hlt'

section Numbers

variable {cb : Nat} {pb pb' : List UInt8} (hlen : pb.length = cb) (hlen' : pb'.length = cb)

include hlen hlen'

theorem ordered_unsigned : Ordered (compare (leNat pb) (leNat pb')) (bigEndian cb (leNat pb))
    (bigEndian cb (leNat pb')) :=
  ordered_bigEndian (hlen ▸ leNat_lt pb) (hlen' ▸ leNat_lt pb')

theorem ordered_signed (hcb : 0 < cb) :
    Ordered (compare (signed cb (leNat pb)) (signed cb (leNat pb')))
      (bigEndian cb (flipHighBit cb (leNat pb))) (bigEndian cb (flipHighBit cb (leNat pb'))) :=
  have hw := leNat_lt_word hlen
  have hw' := leNat_lt_word hlen'
  ordered_of_shift (flipHighBit_eq hcb hw) (flipHighBit_eq hcb hw') (flipHighBit_lt hcb hw)
    (flipHighBit_lt hcb hw')

theorem ordered_real (hcb : 0 < cb) :
    Ordered (compare (realRank cb (leNat pb)) (realRank cb (leNat pb')))
      (bigEndian cb (normalizeReal cb (leNat pb))) (bigEndian cb (normalizeReal cb (leNat pb'))) :=
  have hw := leNat_lt_word hlen
  have hw' := leNat_lt_word hlen'
  ordered_of_shift (normalizeReal_eq hcb hw) (normalizeReal_eq hcb hw') (normalizeReal_lt hcb hw)
    (normalizeReal_lt hcb hw')

end Numbers

theorem bigEndian_leNat (pb : List UInt8) : bigEndian pb.length (leNat pb) = pb.reverse := by
  rw [bigEndian, leBytes_leNat]

theorem ordered_reverse (hlen : pb.length = pb'.length) :
    Ordered (compare (leNat pb) (leNat pb')) pb.reverse pb'.reverse := by
  have h := ordered_unsigned rfl hlen.symm
  rwa [bigEndian_leNat, hlen, bigEndian_leNat] at h

theorem dotNetGuid_eq (hlen : pb.length = 16) : (rgibDotNetGuid.map fun ib => pb.getD ib 0) =
      (pb.take 4).reverse ++ (((pb.drop 4).take 2).reverse ++ (((pb.drop 6).take 2).reverse ++
        pb.drop 8)) := by
  match pb, hlen with
  | [_, _, _, _, _, _, _, _, _, _, _, _, _, _, _, _], _ => rfl

theorem guid_eq (hlen : pb.length = 16) : (rgibGuid.map fun ib => pb.getD ib 0) =
      pb.drop 10 ++ ((pb.drop 8).take 2 ++ ((pb.drop 6).take 2 ++ ((pb.drop 4).take 2 ++
        pb.take 4))) := by
  match pb, hlen with
  | [_, _, _, _, _, _, _, _, _, _, _, _, _, _, _, _], _ => rfl

theorem ordered_guid (fDotNetGuid : Bool) (hlen : pb.length = 16) (hlen' : pb'.length = 16) :
    Ordered (cmpGuid fDotNetGuid pb pb') ((rgibOfGuid fDotNetGuid).map fun ib => pb.getD ib 0)
      ((rgibOfGuid fDotNetGuid).map fun ib => pb'.getD ib 0) := by
  rcases fDotNetGuid with _ | _
  · simp only [cmpGuid, rgibOfGuid, Bool.false_eq_true, if_false, guid_eq hlen, guid_eq hlen']
    refine (ordered_of_length_eq (by simp [hlen, hlen'])).append fun _ => ?_
    refine (ordered_of_length_eq (by simp [hlen, hlen'])).append fun _ => ?_
    refine (ordered_of_length_eq (by simp [hlen, hlen'])).append fun _ => ?_
    refine (ordered_of_length_eq (by simp [hlen, hlen'])).append fun _ => ?_
    exact ordered_of_length_eq (by simp [hlen, hlen'])
  · simp only [cmpGuid, rgibOfGuid, if_true, dotNetGuid_eq hlen, dotNetGuid_eq hlen']
    refine (ordered_reverse (by simp [hlen, hlen'])).append fun _ => ?_
    refine (ordered_reverse (by simp [hlen, hlen'])).append fun _ => ?_
    refine (ordered_reverse (by simp [hlen, hlen'])).append fun _ => ?_
    exact ordered_of_length_eq (by simp [hlen, hlen'])

theorem ordered_bit (b b' : UInt8) :
    Ordered (compare (decide (leNat [b] ≠ 0)) (decide (leNat [b'] ≠ 0)))
      [if b = 0 then (0x00 : UInt8) else 0xff] [if b' = 0 then (0x00 : UInt8) else 0xff] := by
  have hnat (c : UInt8) : leNat [c] = 0 ↔ c = 0 := by
    rw [leNat_cons, leNat_nil, mul_zero, add_zero, ← UInt8.toNat_inj]
    rfl
  have hsame : compare (decide (leNat [b] ≠ 0)) (decide (leNat [b'] ≠ 0)) =
      compare (if b = 0 then (0x00 : UInt8) else 0xff)
        (if b' = 0 then (0x00 : UInt8) else 0xff) := by
    split <;> split <;> simp_all <;> decide
  rw [hsame]
  exact ordered_singleton _ _

theorem chunked_eq (hpos : pb ≠ []) : chunked pb = (block 0 cbFLDBinaryChunk pb ++
        [UInt8.ofNat (min pb.length cbFLDBinaryChunkNormalized)]) ++
      if cbFLDBinaryChunk < pb.length then chunked (pb.drop cbFLDBinaryChunk) else [] := by
  rcases lt_or_ge cbFLDBinaryChunk pb.length with hlt | hle
  · have hcount : min pb.length cbFLDBinaryChunkNormalized = cbFLDBinaryChunkNormalized :=
      min_eq_right hlt
    have hblock : block (0 : UInt8) cbFLDBinaryChunk pb = pb.take cbFLDBinaryChunk := by
      rw [block, Nat.sub_eq_zero_of_le (le_of_lt hlt), replicate_zero, append_nil]
    rw [chunked_next hlt, if_pos hlt, hcount, hblock, append_assoc, singleton_append]
  · have hcount : min pb.length cbFLDBinaryChunkNormalized = pb.length :=
      min_eq_left (Nat.le_succ_of_le hle)
    have hblock : block (0 : UInt8) cbFLDBinaryChunk pb =
        pb ++ replicate (cbFLDBinaryChunk - pb.length) 0 := by
      rw [block, take_of_length_le hle]
    rw [chunked_last hpos hle, if_neg (not_lt.mpr hle), hcount, hblock, append_nil,
      lastChunk_true]

theorem ordered_chunked_step (hpos : pb ≠ []) (hpos' : pb' ≠ [])
    (hrest : cbFLDBinaryChunk < pb.length → cbFLDBinaryChunk < pb'.length →
      Ordered (compare (pb.drop cbFLDBinaryChunk) (pb'.drop cbFLDBinaryChunk))
        (chunked (pb.drop cbFLDBinaryChunk)) (chunked (pb'.drop cbFLDBinaryChunk))) :
    Ordered (compare pb pb') (chunked pb) (chunked pb') := by
  have hzero (b : UInt8) : compare 0 b ≠ .gt := by
    rw [UInt8.compare_eq_toNat_compare_toNat, ne_eq, Nat.compare_eq_gt]
    exact Nat.not_lt_zero _
  have hbyte (n : Nat) : min n (cbFLDBinaryChunk + 1) < 256 := by
    simp only [cbFLDBinaryChunk]
    omega
  rw [compare_eq_block hzero cbFLDBinaryChunk pb pb', chunked_eq hpos, chunked_eq hpos',
    ← compare_ofNat (hbyte pb.length) (hbyte pb'.length)]
  refine Ordered.append ((ordered_of_length_eq (by simp)).append fun _ =>
    ordered_singleton _ _) fun heq => ?_
  have hcount := (Ordering.then_eq_eq.mp heq).2
  rw [compare_ofNat (hbyte pb.length) (hbyte pb'.length), Nat.compare_eq_eq] at hcount
  rcases lt_or_ge cbFLDBinaryChunk pb.length with hlt | hle
  · have hlt' : cbFLDBinaryChunk < pb'.length := by omega
    rw [if_pos hlt, if_pos hlt']
    exact hrest hlt hlt'
  · have hle' : pb'.length ≤ cbFLDBinaryChunk := by omega
    rw [if_neg (not_lt.mpr hle), if_neg (not_lt.mpr hle'), drop_of_length_le hle,
      drop_of_length_le hle']
    rfl

theorem ordered_chunked (hpos : pb ≠ []) (hpos' : pb' ≠ []) :
    Ordered (compare pb pb') (chunked pb) (chunked pb') := by
  induction pb, hpos using chunk_induction generalizing pb' with
  | last pb hpos hle =>
    exact ordered_chunked_step hpos hpos' fun hlt => absurd hlt (not_lt.mpr hle)
  | next pb hpos hlt ih =>
    exact ordered_chunked_step hpos hpos' fun _ hlt' => ih (drop_chunk_ne_nil hlt')

def prefixByte (idb : Limits) (seg : IdxSeg) (v : Option (List UInt8)) : UInt8 :=
  match rank idb seg v with
  | 0 => bPrefixNull
  | 1 => bPrefixZeroLength
  | 2 => bPrefixData
  | _ => bPrefixNullHigh

def body (idb : Limits) (seg : IdxSeg) (v : Option (List UInt8)) : List UInt8 :=
  (wholeSegment idb seg v).tail

theorem wholeSegment_eq (idb : Limits) (seg : IdxSeg) (v : Option (List UInt8)) :
    wholeSegment idb seg v = [prefixByte idb seg v] ++ body idb seg v := by
  rcases v with _ | _ | ⟨b, pb⟩
  · rcases h : idb.fSortNullsHigh with _ | _ <;>
      simp [wholeSegment, normalizeNullSegment, prefixByte, rank, body, Limits.bPrefixNullT, h]
  · rcases hbinary : fRECBinaryColumn seg.coltyp with _ | _ <;>
      rcases h : idb.fSortNullsHigh with _ | _ <;>
      simp [wholeSegment, normalizeNullSegment, prefixByte, rank, body, Limits.bPrefixNullT, h,
        hbinary]
  · rcases hbinary : fRECBinaryColumn seg.coltyp with _ | _ <;>
      simp [wholeSegment, normalizeFixedSegment, prefixByte, rank, body, hbinary]

theorem rank_le (idb : Limits) (seg : IdxSeg) (v : Option (List UInt8)) : rank idb seg v ≤ 3 := by
  rcases v with _ | _ | ⟨b, pb⟩ <;> simp only [rank] <;> repeat' split
  all_goals omega

theorem compare_prefixByte (idb : Limits) (seg : IdxSeg) (v v' : Option (List UInt8)) :
    compare (prefixByte idb seg v) (prefixByte idb seg v') =
      compare (rank idb seg v) (rank idb seg v') := by
  have hr := rank_le idb seg v
  have hr' := rank_le idb seg v'
  rw [prefixByte, prefixByte]
  generalize rank idb seg v = r at hr ⊢
  generalize rank idb seg v' = r' at hr' ⊢
  interval_cases r <;> interval_cases r' <;> rfl

theorem ordered_sized (fDotNetGuid : Bool) {coltyp : Coltyp}
    (hsize : coltyp.size = some cb) (hlen : pb.length = cb) (hlen' : pb'.length = cb) :
    Ordered (cmpData fDotNetGuid pb pb' coltyp) (normalizeFixedSegment coltyp fDotNetGuid pb).tail
      (normalizeFixedSegment coltyp fDotNetGuid pb').tail := by
  cases coltyp <;> cases hsize
  case bit =>
    obtain ⟨b, rfl⟩ := length_eq_one_iff.mp hlen
    obtain ⟨b', rfl⟩ := length_eq_one_iff.mp hlen'
    exact ordered_bit b b'
  case unsignedByte =>
    have h := ordered_reverse (hlen.trans hlen'.symm)
    obtain ⟨b, rfl⟩ := length_eq_one_iff.mp hlen
    obtain ⟨b', rfl⟩ := length_eq_one_iff.mp hlen'
    exact h
  case unsignedShort | unsignedLong | unsignedLongLong => exact ordered_unsigned hlen hlen'
  case short | long | longLong | currency => exact ordered_signed hlen hlen' (by decide)
  case ieeeSingle | ieeeDouble | dateTime => exact ordered_real hlen hlen' (by decide)
  case guid => exact ordered_guid fDotNetGuid hlen hlen'

theorem ordered_data (idb : Limits) {b b' : UInt8}
    (hv : seg.Holds (some (b :: pb))) (hv' : seg.Holds (some (b' :: pb'))) :
    Ordered (cmpData idb.fDotNetGuid (b :: pb) (b' :: pb') seg.coltyp)
      (body idb seg (some (b :: pb))) (body idb seg (some (b' :: pb'))) := by
  rcases hbinary : fRECBinaryColumn seg.coltyp with _ | _
  · obtain ⟨cb, hsize⟩ := size_of_not_binary hbinary
    have hlen := (hv.2 cb hsize).resolve_left (cons_ne_nil b pb)
    have hlen' := (hv'.2 cb hsize).resolve_left (cons_ne_nil b' pb')
    simp only [body, wholeSegment, hbinary, Bool.false_eq_true, if_false]
    exact ordered_sized idb.fDotNetGuid hsize hlen hlen'
  · have hcmp : cmpData idb.fDotNetGuid (b :: pb) (b' :: pb') seg.coltyp =
        compare (b :: pb) (b' :: pb') := by
      rcases hcoltyp : seg.coltyp <;> rw [hcoltyp] at hbinary <;> first | rfl | cases hbinary
    rw [hcmp]
    simp only [body, wholeSegment, hbinary, if_true, tail_cons]
    rcases hfixed : seg.fFixedField with _ | _
    · exact ordered_chunked (cons_ne_nil b pb) (cons_ne_nil b' pb')
    · exact ordered_of_length_eq ((hv.1 hfixed).trans (hv'.1 hfixed).symm)

theorem rank_ne_two (idb : Limits) (seg : IdxSeg) :
    rank idb seg none ≠ 2 ∧ rank idb seg (some []) ≠ 2 := by
  simp only [rank]
  constructor <;> repeat' split
  all_goals decide

variable {v : Option (List UInt8)}

theorem ordered_segment (idb : Limits) {v' : Option (List UInt8)}
    (hv : seg.Holds v) (hv' : seg.Holds v') :
    Ordered (cmpValue idb seg v v') (wholeSegment idb seg v) (wholeSegment idb seg v') := by
  obtain ⟨hnull, hzero⟩ := rank_ne_two idb seg
  rw [wholeSegment_eq, wholeSegment_eq]
  unfold cmpValue
  rw [← compare_prefixByte]
  refine (ordered_singleton _ _).append fun heq => ?_
  rw [compare_prefixByte, Nat.compare_eq_eq] at heq
  -- of equal rank: both are data, or neither has a body
  rcases v with _ | _ | ⟨b, pb⟩ <;> rcases v' with _ | _ | ⟨b', pb'⟩
  · rfl
  · rfl
  · exact absurd heq hnull
  · rfl
  · rfl
  · exact absurd heq hzero
  · exact absurd heq.symm hnull
  · exact absurd heq.symm hzero
  · exact ordered_data idb hv hv'

theorem compare_zero_ne_gt (b : UInt8) : compare 0 b ≠ .gt := by
  rw [UInt8.compare_eq_toNat_compare_toNat, ne_eq, Nat.compare_eq_gt]
  exact Nat.not_lt_zero _

theorem compare_flip (b b' : UInt8) : compare (b ^^^ 0xff) (b' ^^^ 0xff) = compare b' b := by
  have hb := b.toNat_lt
  have hb' := b'.toNat_lt
  rw [UInt8.xor_comm b, UInt8.xor_comm b', UInt8.compare_eq_toNat_compare_toNat,
    UInt8.compare_eq_toNat_compare_toNat, toNat_flip, toNat_flip]
  simp only [compare, compareOfLessAndEq,
    show 255 - b.toNat < 255 - b'.toNat ↔ b'.toNat < b.toNat by omega,
    show 255 - b.toNat = 255 - b'.toNat ↔ b'.toNat = b.toNat by omega]

theorem ordered_column (idb : Limits) {v' : Option (List UInt8)}
    (hv : seg.Holds v) (hv' : seg.Holds v') :
    Ordered (cmpColumn idb seg v v') (flipBits seg.fDescending (wholeSegment idb seg v))
      (flipBits seg.fDescending (wholeSegment idb seg v')) := by
  have h := ordered_segment idb hv hv'
  rw [cmpColumn]
  rcases seg.fDescending with _ | _
  · exact h
  · exact h.map compare_flip

def rowKey (idb : Limits) (row : Row) : List UInt8 :=
  row.flatMap fun c => flipBits c.1.fDescending (wholeSegment idb c.1 c.2)

theorem ordered_rowKey (idb : Limits) {row row' : Row}
    (hsegs : row.map Prod.fst = row'.map Prod.fst)
    (hrow : ∀ c ∈ row, c.1.Holds c.2) (hrow' : ∀ c ∈ row', c.1.Holds c.2) :
    Ordered (cmpRow idb row row') (rowKey idb row) (rowKey idb row') := by
  induction row generalizing row' with
  | nil =>
    obtain rfl : row' = [] := by simpa using hsegs.symm
    rfl
  | cons c row ih =>
    rcases row' with _ | ⟨c', row'⟩
    · simp at hsegs
    · obtain ⟨seg', v'⟩ := c'
      rw [map_cons, map_cons, cons.injEq] at hsegs
      obtain ⟨rfl, hsegs⟩ := hsegs
      rw [forall_mem_cons] at hrow hrow'
      rw [rowKey, rowKey, flatMap_cons, flatMap_cons, cmpRow]
      exact (ordered_column idb hrow.1 hrow'.1).append fun _ => ih hsegs hrow.2 hrow'.2

/-- The row of an entry, from the key column `iidxseg` on. -/
def rowFrom (idb : Idb) (ichOffset : Nat) : Nat → List (IdxSeg × Column) → Row
  | _, [] => []
  | iidxseg, (seg, col) :: rest =>
    (seg, keyValue idb ichOffset iidxseg seg col) :: rowFrom idb ichOffset (iidxseg + 1) rest

def rowOf (idb : Idb) (entry : Entry) : Row :=
  rowFrom idb entry.ichOffset 0 (idb.rgidxseg.zip entry.columns)

/-- No segment of the key is cut: the key has room for all of them, and no binary value is over
the limit on variable segments where one was set. -/
structure Untruncated (idb : Limits) (row : Row) : Prop where
  total : (rowKey idb row).length ≤ idb.cbKeyMost
  segments : ∀ c ∈ row, fRECBinaryColumn c.1.coltyp = true → c.2 ≠ none → c.2 ≠ some [] →
    idb.cbVarSegMac ≠ idb.cbKeyMost → (wholeSegment idb c.1 c.2).length ≤ idb.cbVarSegMac

theorem wholeSegment_pos (idb : Limits) (seg : IdxSeg) (v : Option (List UInt8)) :
    0 < (wholeSegment idb seg v).length := by
  rw [wholeSegment_eq, length_append, length_singleton]
  omega

theorem rowKey_cons (idb : Limits) (seg : IdxSeg) (v : Option (List UInt8)) (row : Row) :
    rowKey idb ((seg, v) :: row) =
      flipBits seg.fDescending (wholeSegment idb seg v) ++ rowKey idb row :=
  rfl

theorem part_whole (idb : Idb) {cbKeyAvail : Nat} (h : Whole idb.toLimits cbKeyAvail seg v) :
    part idb cbKeyAvail seg v = flipBits seg.fDescending (wholeSegment idb.toLimits seg v) ∧
      fCut idb cbKeyAvail seg v = false := by
  refine ⟨keySegment_whole h, ?_⟩
  rw [fCut, normalizeColumn_whole h, Bool.false_or, decide_eq_false_iff_not]
  exact not_lt.mpr h.1

theorem retrieveSegments_row {ichOffset : Nat} {cols : List (IdxSeg × Column)} :
    ∀ {iidxseg : Nat} {st st' : KeyState}, st.fKeyTruncated = false →
      st.key.length + (rowKey idb.toLimits (rowFrom idb ichOffset iidxseg cols)).length ≤
        idb.cbKeyMost →
      (∀ c ∈ rowFrom idb ichOffset iidxseg cols, fRECBinaryColumn c.1.coltyp = true →
        c.2 ≠ none → c.2 ≠ some [] → idb.cbVarSegMac ≠ idb.cbKeyMost →
        (wholeSegment idb.toLimits c.1 c.2).length ≤ idb.cbVarSegMac) →
      retrieveSegments idb idb.cbKeyMost ichOffset iidxseg cols st = .ok st' →
      st'.key = st.key ++ rowKey idb.toLimits (rowFrom idb ichOffset iidxseg cols) := by
  induction cols with
  | nil =>
    intro iidxseg st st' _ _ _ h
    cases h
    exact (append_nil _).symm
  | cons c cols ih =>
    intro iidxseg st st' hnot htotal hsegments h
    obtain ⟨seg, col⟩ := c
    obtain ⟨st₁, hst, h⟩ := bind_eq_ok h
    rw [rowFrom, forall_mem_cons] at hsegments
    rw [rowFrom, rowKey_cons, length_append, flipBits_length] at htotal
    have hpos := wholeSegment_pos idb.toLimits seg (keyValue idb ichOffset iidxseg seg col)
    have hlt : st.key.length < idb.cbKeyMost := by omega
    obtain ⟨hpart, hcut⟩ := part_keyValue (Nat.sub_pos_of_lt hlt) (Nat.sub_le _ _) ichOffset
      iidxseg seg col
    have hfits : Whole idb.toLimits (idb.cbKeyMost - st.key.length) seg
        (keyValue idb ichOffset iidxseg seg col) := ⟨by omega, hsegments.1⟩
    obtain ⟨hwhole, hnocut⟩ := part_whole idb hfits
    rcases retrieveSegment_ok (fun htruncated => by rw [hnot] at htruncated; cases htruncated) hst
      with ⟨hfull, -⟩ | ⟨-, -, hkey, htruncated⟩
    · exact absurd hlt (not_lt.mpr hfull)
    · rw [← hpart, hwhole] at hkey
      rw [← hcut, hnocut] at htruncated
      have hlen := congrArg length hkey
      rw [length_append, flipBits_length] at hlen
      have hrest := ih htruncated (by omega) hsegments.2 h
      rw [hrest, hkey, append_assoc, rowFrom, rowKey_cons]

variable {entry : Entry}

theorem recIRetrieveKey_row (hentry : EntryOf idb entry) {fuel : Nat}
    {warning : Warning} {key : List UInt8}
    (h : recIRetrieveKey idb entry (fuel + 1) = some (.ok (warning, key)))
    (huntruncated : Untruncated idb.toLimits (rowOf idb entry)) :
    key = rowKey idb.toLimits (rowOf idb entry) := by
  rw [hentry.recIRetrieveKey_eq] at h
  rcases hkey : recIIRetrieveKey idb entry idb.cbKeyMost with stop | st
  · rw [hkey] at h
    cases h
  · rw [hkey] at h
    cases h
    have hrun :=
      retrieveSegments_row rfl (by simpa [KeyState.start, rowOf] using huntruncated.total)
      huntruncated.segments (recIIRetrieveKey_run hkey)
    exact hrun

theorem rowFrom_map_fst (idb : Idb) (ichOffset : Nat) (cols : List (IdxSeg × Column)) :
    ∀ iidxseg, (rowFrom idb ichOffset iidxseg cols).map Prod.fst = cols.map Prod.fst := by
  induction cols with
  | nil => exact fun _ => rfl
  | cons c cols ih => exact fun iidxseg => congrArg (c.1 :: ·) (ih (iidxseg + 1))

theorem rowOf_map_fst (hlen : entry.columns.length = idb.rgidxseg.length) :
    (rowOf idb entry).map Prod.fst = idb.rgidxseg := by
  rw [rowOf, rowFrom_map_fst]
  exact map_fst_zip (le_of_eq hlen.symm)

theorem mem_rowFrom {ichOffset : Nat} {cols : List (IdxSeg × Column)}
    {c : IdxSeg × Option (List UInt8)} :
    ∀ {iidxseg : Nat}, c ∈ rowFrom idb ichOffset iidxseg cols →
      ∃ i col, cols[i]? = some (c.1, col) ∧ c.2 = keyValue idb ichOffset (iidxseg + i) c.1 col := by
  induction cols with
  | nil =>
    intro iidxseg h
    cases h
  | cons d cols ih =>
    intro iidxseg h
    obtain ⟨seg, col⟩ := d
    rcases mem_cons.mp h with rfl | hrest
    · exact ⟨0, col, rfl, rfl⟩
    · obtain ⟨i, col', hi, hvalue⟩ := ih hrest
      refine ⟨i + 1, col', hi, ?_⟩
      rw [hvalue, add_right_comm, add_assoc]

theorem rowOf_holds (hentry : EntryOf idb entry) : ∀ c ∈ rowOf idb entry, c.1.Holds c.2 := by
  intro c hc
  obtain ⟨i, col, hi, hvalue⟩ := mem_rowFrom hc
  rw [zero_add] at hvalue
  have hholds := hentry.holds i c.1 col hi
  rw [keyValue] at hvalue
  split at hvalue
  · rename_i htuple
    rw [Bool.and_eq_true, beq_iff_eq] at htuple
    obtain ⟨htuples, rfl⟩ := htuple
    -- the first column of a tuple index is binary and has no size
    have hhead : idb.rgidxseg.head? = some c.1 := by
      rw [head?_eq_getElem?]
      exact (getElem?_zip_eq_some.mp hi).1
    have hsize := size_of_binary ((idb.htuples htuples).2.2 c.1 hhead)
    rw [hvalue]
    rcases hdata : keyData idb idb.cbKeyMost entry.ichOffset 0 c.1 col with _ | pb
    · trivial
    · refine ⟨fun hfixed => hentry.tuple c.1 col htuples hfixed hi pb hdata, ?_⟩
      intro n hn
      rw [hsize] at hn
      cases hn
  · rw [hvalue]
    exact hholds

/-- The keys of two entries that no limit cuts compare as their rows do, column by column. -/
theorem cmpKey_eq_cmpRow (idb : Idb) (entry entry' : Entry) (hentry : EntryOf idb entry)
    (hentry' : EntryOf idb entry') (hlen : entry.columns.length = idb.rgidxseg.length)
    (hlen' : entry'.columns.length = idb.rgidxseg.length)
    (huntruncated : Untruncated idb.toLimits (rowOf idb entry))
    (huntruncated' : Untruncated idb.toLimits (rowOf idb entry')) (fuel : Nat)
    (warning warning' : Warning) (key key' : List UInt8)
    (hkey : recIRetrieveKey idb entry (fuel + 1) = some (.ok (warning, key)))
    (hkey' : recIRetrieveKey idb entry' (fuel + 1) = some (.ok (warning', key'))) :
    cmpKey key key' = cmpRow idb.toLimits (rowOf idb entry) (rowOf idb entry') := by
  rw [cmpKey_eq_compare, recIRetrieveKey_row hentry hkey huntruncated,
    recIRetrieveKey_row hentry' hkey' huntruncated']
  apply Ordered.compare_eq
  apply ordered_rowKey
  · rw [rowOf_map_fst hlen, rowOf_map_fst hlen']
  · exact rowOf_holds hentry
  · exact rowOf_holds hentry'

def pairIndex : Idb where
  toLimits := defaultLimits
  rgidxseg := [shortDescending, binaryAscending]
  fTuples := false
  cchTuplesLengthMin := 0
  cchTuplesLengthMax := 0
  fNestedTable := false
  fDisallowTruncation := false
  fHasPlaceholderColumn := false
  htuples := nofun

def pairEntry (v : Option (List UInt8)) : Entry where
  rgConditional := []
  columns := [⟨false, 1, .inRecord, some [1, 0]⟩, ⟨true, 1, .intrinsicLV, v⟩]
  ichOffset := 0

theorem entryOf_pairEntry (v : Option (List UInt8)) : EntryOf pairIndex (pairEntry v) := by
  refine ⟨?_, nofun⟩
  intro i seg col hi
  rcases i with _ | _ | i
  · cases hi
    refine ⟨fun _ => rfl, ?_⟩
    intro n hn
    cases hn
    exact Or.inr rfl
  · cases hi
    rcases v with _ | pb
    · trivial
    · refine ⟨nofun, ?_⟩
      intro n hn
      cases hn
  · simp [pairIndex, pairEntry] at hi

theorem untruncated_pairEntry
    (h : (rowKey pairIndex.toLimits (rowOf pairIndex (pairEntry v))).length ≤ 255) :
    Untruncated pairIndex.toLimits (rowOf pairIndex (pairEntry v)) :=
  ⟨h, fun _ _ _ _ _ hne => absurd rfl hne⟩

/-- Equal numbers, and a binary value after NULL. -/
theorem pairEntry_compared :
    cmpKey [0x80, 0x7f, 0xfe, 0x7f, 0x41, 0, 0, 0, 0, 0, 0, 0, 1] [0x80, 0x7f, 0xfe, 0x00] =
      cmpRow pairIndex.toLimits (rowOf pairIndex (pairEntry (some [0x41])))
        (rowOf pairIndex (pairEntry none)) :=
  cmpKey_eq_cmpRow pairIndex (pairEntry (some [0x41])) (pairEntry none) (entryOf_pairEntry _)
    (entryOf_pairEntry _) rfl rfl (untruncated_pairEntry (by decide))
    (untruncated_pairEntry (by decide)) 0 .success .wrnFLDNullSeg _ _ (by decide) (by decide)

end EseLinux.KeyOrder
