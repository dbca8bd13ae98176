import EseLinux.KeyTruncate

/-!
The keys between a search key and a limit key: those of the entries whose column begins with the
data of the search.  A value and a prefix part inside the data of the prefix, or the value goes on
behind it and stays below the sentinel.
-/

namespace EseLinux.KeyBracket

open KeySegment KeyBuild KeyOrder KeyTruncate OrderCode Std List

def ibDataEnd (pb : List UInt8) : Nat :=
  (pb.length - 1) / cbFLDBinaryChunk * cbFLDBinaryChunkNormalized +
    ((pb.length - 1) % cbFLDBinaryChunk + 1)

def stem (pb : List UInt8) : List UInt8 := (chunked pb).take (ibDataEnd pb)

variable {pb : List UInt8}

theorem ibDataEnd_last (hpos : pb ≠ []) (hle : pb.length ≤ cbFLDBinaryChunk) :
    ibDataEnd pb = pb.length := by
  have hlen : 0 < pb.length := length_pos_iff.mpr hpos
  simp only [ibDataEnd, cbFLDBinaryChunk, cbFLDBinaryChunkNormalized] at hle ⊢
  omega

theorem ibDataEnd_next (hlt : cbFLDBinaryChunk < pb.length) :
    ibDataEnd pb = cbFLDBinaryChunkNormalized + ibDataEnd (pb.drop cbFLDBinaryChunk) := by
  simp only [ibDataEnd, length_drop, cbFLDBinaryChunk, cbFLDBinaryChunkNormalized] at hlt ⊢
  omega

theorem stem_last (hpos : pb ≠ []) (hle : pb.length ≤ cbFLDBinaryChunk) :
    stem pb = pb := by
  rw [stem, ibDataEnd_last hpos hle, chunked_last hpos hle, lastChunk, append_assoc,
    take_left]

theorem stem_next (hlt : cbFLDBinaryChunk < pb.length) :
    stem pb = pb.take cbFLDBinaryChunk ++
      UInt8.ofNat cbFLDBinaryChunkNormalized :: stem (pb.drop cbFLDBinaryChunk) := by
  have hlen : (pb.take cbFLDBinaryChunk).length = cbFLDBinaryChunk := by
    rw [length_take, min_eq_left (hlt.le)]
  rw [stem, chunked_next hlt, ibDataEnd_next hlt, take_append, hlen,
    take_of_length_le (by rw [hlen, cbFLDBinaryChunkNormalized]; omega),
    show cbFLDBinaryChunkNormalized + ibDataEnd (pb.drop cbFLDBinaryChunk) - cbFLDBinaryChunk =
      ibDataEnd (pb.drop cbFLDBinaryChunk) + 1 by rw [cbFLDBinaryChunkNormalized]; omega,
    take_succ_cons]
  rfl

theorem ibDelimiterFrom_eq (hpos : pb ≠ []) (ib : Nat) :
    ibDelimiterFrom 0 ((pb.length + (cbFLDBinaryChunk - 1)) / cbFLDBinaryChunk) ib pb =
      ib + ibDataEnd pb := by
  induction pb, hpos using chunk_induction generalizing ib with
  | last pb hpos hle =>
    have hlen : 0 < pb.length := length_pos_iff.mpr hpos
    have hcount : (pb.length + (cbFLDBinaryChunk - 1)) / cbFLDBinaryChunk = 0 + 1 := by
      simp only [cbFLDBinaryChunk] at hle ⊢
      omega
    rw [hcount, ibDelimiterFrom, if_pos hle, ibDataEnd_last hpos hle]
  | next pb hpos hlt ih =>
    have hcount : (pb.length + (cbFLDBinaryChunk - 1)) / cbFLDBinaryChunk =
        ((pb.drop cbFLDBinaryChunk).length + (cbFLDBinaryChunk - 1)) / cbFLDBinaryChunk + 1 := by
      simp only [length_drop, cbFLDBinaryChunk] at hlt ⊢
      omega
    rw [hcount, ibDelimiterFrom, if_neg (Nat.not_le.mpr hlt), ih, ibDataEnd_next hlt]
    omega

variable {n : Nat}

theorem count_toNat (hn : 0 < n) : 0 < (UInt8.ofNat (min n cbFLDBinaryChunkNormalized)).toNat ∧
      (UInt8.ofNat (min n cbFLDBinaryChunkNormalized)).toNat < 255 := by
  have hle : min n cbFLDBinaryChunkNormalized ≤ 9 := min_le_right _ _
  rw [UInt8.toNat_ofNat_of_lt' (hle.trans_lt (by decide))]
  exact ⟨Nat.lt_min.mpr ⟨hn, by decide⟩, hle.trans_lt (by decide)⟩

variable {pbField : List UInt8}

theorem chunked_of_begins (hpos : pb ≠ []) (h : pb <+: pbField) :
    ∃ fill count more, chunked pbField = stem pb ++ (fill ++ count :: more) ∧
      0 < count.toNat ∧ count.toNat < 255 ∧
      (chunked pb).length = ibDataEnd pb + fill.length + 1 := by
  induction pb, hpos using chunk_induction generalizing pbField with
  | last pb hpos hle =>
    obtain ⟨t, rfl⟩ := h
    have hne : pb ++ t ≠ [] := by simp [hpos]
    have hblock : block 0 cbFLDBinaryChunk (pb ++ t) =
        pb ++ (block 0 cbFLDBinaryChunk (pb ++ t)).drop pb.length := by
      rw [block, take_append, take_of_length_le hle, append_assoc, drop_left]
    have heq := chunked_eq hne
    rw [hblock, append_assoc, append_assoc, singleton_append] at heq
    rw [stem_last hpos hle]
    obtain ⟨hpositive, hless⟩ := count_toNat (length_pos_iff.mpr hne)
    refine ⟨_, _, _, heq, hpositive, hless, ?_⟩
    rw [chunked_eq hpos, if_neg (Nat.not_lt.mpr hle), ibDataEnd_last hpos hle]
    simp only [length_append, length_drop, block_length, length_singleton,
      length_nil]
    omega
  | next pb hpos hlt ih =>
    have hlt' : cbFLDBinaryChunk < pbField.length := Nat.lt_of_lt_of_le hlt h.length_le
    obtain ⟨fill, count, more, heq, hpositive, hless, hlen⟩ := ih (h.drop cbFLDBinaryChunk)
    have htake : pbField.take cbFLDBinaryChunk = pb.take cbFLDBinaryChunk := by
      obtain ⟨t, rfl⟩ := h
      exact take_append_of_le_length (Nat.le_of_lt hlt)
    refine ⟨fill, count, more, ?_, hpositive, hless, ?_⟩
    · rw [chunked_next hlt', stem_next hlt, htake, heq, append_assoc, cons_append]
    · rw [chunked_next hlt, ibDataEnd_next hlt, length_append, length_cons, hlen,
        length_take, cbFLDBinaryChunkNormalized]
      omega

variable {y x : UInt8}

theorem fork_stem (hpos : pb ≠ []) (h : Fork x y pb pbField) :
    Fork x y (stem pb) (chunked pbField) := by
  have hne {pbField : List UInt8} : ∀ {pb : List UInt8}, Fork x y pb pbField → pbField ≠ [] := by
    rintro pb ⟨ws, xs', ys', -, rfl⟩
    simp
  induction pb, hpos using chunk_induction generalizing pbField with
  | last pb hpos hle =>
    rw [stem_last hpos hle, chunked_eq (hne h), block, append_assoc, append_assoc]
    have hfork := (h.take hle).append [] (replicate (cbFLDBinaryChunk - pbField.length) 0 ++
      ([UInt8.ofNat (min pbField.length cbFLDBinaryChunkNormalized)] ++
        if cbFLDBinaryChunk < pbField.length then chunked (pbField.drop cbFLDBinaryChunk) else []))
    rwa [append_nil] at hfork
  | next pb hpos hlt ih =>
    rw [stem_next hlt]
    rcases h.take_or_drop cbFLDBinaryChunk with htake | ⟨htake, hdrop⟩
    · rw [chunked_eq (hne h), block, append_assoc, append_assoc]
      exact htake.append _ _
    · have hlt' : cbFLDBinaryChunk < pbField.length := by
        by_contra hle
        exact hne hdrop (drop_of_length_le (Nat.le_of_not_lt hle))
      rw [chunked_next hlt', htake]
      exact ((ih hdrop).append_left [_]).append_left _

theorem before_of_getLast {bs : List UInt8} (hlast : bs.getLast? ≠ some 0) (hne : bs ≠ [])
    (hn : bs.length ≤ n) (us : List UInt8) : Before (replicate n 0 ++ us) bs := by
  induction bs generalizing n with
  | nil => exact absurd rfl hne
  | cons b bs ih =>
    obtain ⟨n, rfl⟩ : ∃ k, n = k + 1 := ⟨n - 1, by rw [length_cons] at hn; omega⟩
    cases hb : compare 0 b with
    | lt => exact .head hb _ _
    | gt => exact absurd hb (compare_zero_ne_gt b)
    | eq =>
      obtain rfl := LawfulEqOrd.eq_of_compare hb
      cases bs with
      | nil => exact absurd rfl hlast
      | cons b' bs =>
        refine .tail 0 (ih ?_ (cons_ne_nil _ _) (Nat.le_of_succ_le_succ hn))
        rwa [getLast?_cons_cons] at hlast

theorem before_stem (hpos : pbField ≠ []) (h : pbField <+: pb)
    (hlt : pbField.length < pb.length) (hlast : pb.getLast? ≠ some 0) :
    Before (chunked pbField) (stem pb) := by
  have hne : pb ≠ [] := length_pos_iff.mp (Nat.zero_lt_of_lt hlt)
  induction pb, hne using chunk_induction generalizing pbField with
  | last pb hne hle =>
    obtain ⟨t, rfl⟩ := h
    rw [length_append] at hlt hle
    have ht : t ≠ [] := length_pos_iff.mp (by omega)
    rw [stem_last hne (by rw [length_append]; exact hle),
      chunked_last hpos (by omega), lastChunk, append_assoc]
    rw [getLast?_append_of_ne_nil _ ht] at hlast
    exact Before.append_left _ (before_of_getLast hlast ht (by omega) _)
  | next pb hne hltChunk ih =>
    rw [stem_next hltChunk]
    have hdrop := h.drop cbFLDBinaryChunk
    rcases lt_or_ge cbFLDBinaryChunk pbField.length with hlong | hshort
    · have htake : pbField.take cbFLDBinaryChunk = pb.take cbFLDBinaryChunk := by
        obtain ⟨t, rfl⟩ := h
        exact (take_append_of_le_length (hlong.le)).symm
      rw [chunked_next hlong, htake]
      refine Before.append_left _ (.tail _ (ih (drop_chunk_ne_nil hlong) hdrop ?_ ?_))
      · rw [length_drop, length_drop]
        omega
      · rwa [getLast?_drop, if_neg (by omega)]
    · -- the count of the shorter value tells if the zeroes do not
      obtain ⟨t, rfl⟩ := h
      have hblock : compare (block 0 cbFLDBinaryChunk pbField)
          ((pbField ++ t).take cbFLDBinaryChunk) ≠ .gt := by
        rw [block, take_append, take_of_length_le hshort, compare_append_self]
        refine compare_replicate_ne_gt compare_zero_ne_gt ?_
        rw [length_append] at hltChunk
        rw [length_take]
        omega
      have hcount : compare (UInt8.ofNat (min pbField.length cbFLDBinaryChunkNormalized))
          (UInt8.ofNat cbFLDBinaryChunkNormalized) = .lt := by
        rw [compare_ofNat, Nat.compare_eq_lt]
        all_goals simp only [cbFLDBinaryChunkNormalized, cbFLDBinaryChunk] at hshort ⊢; omega
      have hlen : (block 0 cbFLDBinaryChunk pbField).length =
          ((pbField ++ t).take cbFLDBinaryChunk).length := by
        rw [block_length, length_take, min_eq_left (hltChunk.le)]
      have hordered := (ordered_of_length_eq hlen).append fun _ =>
        ordered_singleton (UInt8.ofNat (min pbField.length cbFLDBinaryChunkNormalized))
          (UInt8.ofNat cbFLDBinaryChunkNormalized)
      rw [hcount, then_lt_of_ne_gt hblock] at hordered
      have hbefore := Before.append hordered
        (if cbFLDBinaryChunk < pbField.length then chunked (pbField.drop cbFLDBinaryChunk) else [])
        (stem ((pbField ++ t).drop cbFLDBinaryChunk))
      rw [append_assoc _ [UInt8.ofNat cbFLDBinaryChunkNormalized]] at hbefore
      rw [chunked_eq hpos]
      exact hbefore

def Begins (pb : List UInt8) : Option (List UInt8) → Prop
  | none => False
  | some pbField => pb <+: pbField

/-- The bytes of a column in a key with `cbKeyAvail` bytes left, before they are flipped. -/
def columnBytes (idb : Limits) (cbKeyAvail : Nat) (seg : IdxSeg) (v : Option (List UInt8)) :
    List UInt8 :=
  (normalizeColumn idb cbKeyAvail seg v).bytes.take cbKeyAvail

section Column

variable {idb : Limits} {cbKeyAvail : Nat} {seg : IdxSeg} {pb : List UInt8}
  (hbinary : fRECBinaryColumn seg.coltyp = true) (hvar : seg.fFixedField = false)

include hbinary in
theorem columnBytes_of_no_data (havail : 0 < cbKeyAvail) {v : Option (List UInt8)}
    (hv : v = none ∨ v = some []) :
    ∃ b, b ≠ bPrefixData ∧ columnBytes idb cbKeyAvail seg v = [b] := by
  have hone (b : UInt8) : [b].take cbKeyAvail = [b] :=
    take_of_length_le (by rw [length_singleton]; exact havail)
  rcases hv with rfl | rfl
  · refine ⟨idb.bPrefixNullT, ?_, ?_⟩
    · rw [Limits.bPrefixNullT]
      split <;> decide
    · rw [columnBytes, normalizeColumn, normalizeNullSegment, Bool.and_false]
      exact hone _
  · refine ⟨bPrefixZeroLength, by decide, ?_⟩
    rw [columnBytes, normalizeColumn, normalizeNullSegment, hbinary]
    exact hone _

theorem cbSegMost_le (idb : Limits) (cbKeyAvail : Nat) :
    cbSegMost idb cbKeyAvail ≤ cbKeyAvail := by
  rw [cbSegMost]
  split
  · exact le_rfl
  · exact min_le_right _ _

include hbinary hvar in
theorem columnBytes_of_data (havail : 0 < cbKeyAvail) {pbField : List UInt8} (hpos : pbField ≠ []) :
    columnBytes idb cbKeyAvail seg (some pbField) =
      (bPrefixData :: chunked pbField).take (cbSegMost idb cbKeyAvail) := by
  obtain ⟨b, pbField, rfl⟩ := exists_cons_of_ne_nil hpos
  rw [columnBytes, normalizeColumn, if_pos hbinary, hvar, bytes_eq_take idb havail false hpos,
    take_take, Nat.min_eq_right (cbSegMost_le idb cbKeyAvail)]
  rfl

/-- How the bytes of a column lie to the data of a prefix: the value begins with the prefix and goes
on below the sentinel, or it parts from the data, or it is a shorter value that is stored whole. -/
inductive Lies (pb : List UInt8) (v : Option (List UInt8)) (bytes : List UInt8) : Prop
  | begins (hbegins : Begins pb v) (fill : List UInt8) (count : UInt8) (more : List UInt8)
      (heq : bytes = bPrefixData :: stem pb ++ (fill ++ count :: more))
      (hpositive : 0 < count.toNat) (hless : count.toNat < 255)
      (hlen : (chunked pb).length = ibDataEnd pb + fill.length + 1)
      (hseek : compare (bPrefixData :: chunked pb) bytes ≠ .gt)
  | parts (hnot : ¬ Begins pb v) (x y : UInt8) (hne : x ≠ y)
      (hfork : Fork x y (bPrefixData :: stem pb) bytes)
  | shorter (hnot : ¬ Begins pb v) (pbField : List UInt8) (hpos : pbField ≠ [])
      (hbegins : pbField <+: pb) (hlt : pbField.length < pb.length)
      (heq : bytes = bPrefixData :: chunked pbField)

theorem seek_ne_gt (hpos : pb ≠ []) (h : pb <+: pbField) (hn : (chunked pb).length < n) :
    compare (bPrefixData :: chunked pb) ((bPrefixData :: chunked pbField).take n) ≠ .gt := by
  have hne : pbField ≠ [] := by
    rintro rfl
    exact hpos (prefix_nil.mp h)
  have hcompare : compare (bPrefixData :: chunked pb) (bPrefixData :: chunked pbField) =
      compare pb pbField := by
    rw [List.compare_cons_cons, ReflOrd.compare_self, Ordering.eq_then]
    exact (ordered_chunked hpos hne).compare_eq
  have hle := compare_take_ne_gt (hcompare ▸ compare_ne_gt_of_begins h) n
  rwa [take_of_length_le (by rw [length_cons]; exact hn)] at hle

theorem lies_of_begins (hpos : pb ≠ []) (h : pb <+: pbField) (hn : (chunked pb).length < n) :
    Lies pb (some pbField) ((bPrefixData :: chunked pbField).take n) := by
  obtain ⟨fill, count, more, heq, hpositive, hless, hlen⟩ := chunked_of_begins hpos h
  refine .begins h fill count (more.take (n - (ibDataEnd pb + fill.length + 2))) ?_ hpositive hless
    hlen (seek_ne_gt hpos h hn)
  have hstem : (stem pb).length = ibDataEnd pb := by
    rw [stem, length_take, min_eq_left (by omega)]
  have hsplit : bPrefixData :: chunked pbField =
      (bPrefixData :: stem pb ++ (fill ++ [count])) ++ more := by
    rw [heq]
    simp
  have hlength : (bPrefixData :: stem pb ++ (fill ++ [count])).length =
      ibDataEnd pb + fill.length + 2 := by
    simp only [cons_append, length_cons, length_append, length_nil, hstem]
    omega
  rw [hsplit, take_append, take_of_length_le (by omega), hlength]
  simp

include hbinary hvar in
theorem lies_columnBytes (hpos : pb ≠ [])
    (hroom : Roomy idb cbKeyAvail (cbNormalized false pb)) (v : Option (List UInt8)) :
    Lies pb v (columnBytes idb cbKeyAvail seg v) := by
  have hmost := cbSegMost_of_roomy hroom
  have hwhole : (chunked pb).length + 1 = cbNormalized false pb := wholeBinary_length false hpos
  have havail : 0 < cbKeyAvail := Nat.lt_of_lt_of_le (by omega) hroom.1
  by_cases hv : v = none ∨ v = some []
  · obtain ⟨b, hb, heq⟩ : ∃ b, b ≠ bPrefixData ∧ columnBytes idb cbKeyAvail seg v = [b] :=
      columnBytes_of_no_data hbinary havail hv
    rw [heq]
    refine .parts ?_ bPrefixData b hb.symm ⟨[], stem pb, [], rfl, rfl⟩
    rcases hv with rfl | rfl
    · exact id
    · exact fun h => hpos (prefix_nil.mp h)
  · obtain ⟨pbField, rfl, hne⟩ : ∃ pbField, v = some pbField ∧ pbField ≠ [] := by
      cases v with
      | none => exact absurd (Or.inl rfl) hv
      | some pbField => exact ⟨pbField, rfl, fun h => hv (Or.inr (congrArg some h))⟩
    rw [columnBytes_of_data hbinary hvar havail hne]
    by_cases hbegins : pb <+: pbField
    · exact lies_of_begins hpos hbegins (by omega)
    · rcases prefix_or_fork pb pbField with h | h | ⟨x, y, hxy, hfork⟩
      · exact absurd h hbegins
      · have hlt : pbField.length < pb.length :=
          Nat.lt_of_not_le fun hle => hbegins (h.eq_of_length_le hle ▸ prefix_rfl)
        refine .shorter hbegins pbField hne h hlt (take_of_length_le ?_)
        have hfield : (chunked pbField).length + 1 = cbNormalized false pbField :=
          wholeBinary_length false hne
        have hmono : cbNormalized false pbField ≤ cbNormalized false pb := by
          exact Nat.succ_le_succ (Nat.mul_le_mul_right _ (Nat.div_le_div_right (by omega)))
        rw [length_cons]
        omega
      · refine .parts hbegins x y hxy (Fork.take ((fork_stem hpos hfork).append_left [_]) ?_)
        have hstem : (stem pb).length ≤ (chunked pb).length := by
          rw [stem, length_take]
          exact Nat.min_le_right _ _
        rw [singleton_append, length_cons]
        omega

end Column

def Between (lo key hi : List UInt8) : Prop := cmpKey lo key ≠ .gt ∧ cmpKey key hi ≠ .gt

instance (lo key hi : List UInt8) : Decidable (Between lo key hi) :=
  inferInstanceAs (Decidable (_ ∧ _))

theorem compare_gt_of_before {xs ys : List UInt8} (h : Before xs ys) : compare ys xs = .gt :=
  Ordered.compare_eq (show Ordered .gt ys xs from h)

theorem not_between_of_below {lo key : List UInt8} (h : Before key lo) (hi : List UInt8) :
    ¬ Between lo key hi := by
  rintro ⟨hlo, -⟩
  rw [cmpKey_eq_compare] at hlo
  exact hlo (compare_gt_of_before h)

theorem not_between_of_above {key hi : List UInt8} (h : Before hi key) (lo : List UInt8) :
    ¬ Between lo key hi := by
  rintro ⟨-, hhi⟩
  rw [cmpKey_eq_compare] at hhi
  exact hhi (compare_gt_of_before h)

theorem not_between_of_fork {lead bytes : List UInt8} (hne : x ≠ y)
    (h : Fork x y lead bytes) (lo more hi : List UInt8) :
    ¬ Between (lead ++ lo) (bytes ++ more) (lead ++ hi) := by
  cases hcmp : compare x y with
  | lt => exact not_between_of_above ((h.append hi more).before hcmp) _
  | eq => exact absurd (LawfulEqOrd.eq_of_compare hcmp) hne
  | gt =>
    refine not_between_of_below ((h.symm.append more lo).before ?_) _
    rw [OrientedOrd.eq_swap, hcmp]
    rfl

theorem compare_sentinel_ne_gt (b : UInt8) : compare b bSentinel ≠ .gt := by
  rw [UInt8.compare_eq_toNat_compare_toNat, ne_eq, Nat.compare_eq_gt]
  exact Nat.not_lt.mpr (Nat.le_of_lt_succ b.toNat_lt)

theorem count_lt_sentinel (fDescending : Bool) {count : UInt8} (hpositive : 0 < count.toNat)
    (hless : count.toNat < 255) : compare (bMask fDescending ^^^ count) bSentinel = .lt := by
  cases hcmp : compare (bMask fDescending ^^^ count) bSentinel with
  | lt => rfl
  | gt => exact absurd hcmp (compare_sentinel_ne_gt _)
  | eq =>
    have hcount := congrArg (bMask fDescending ^^^ ·)
      (LawfulEqOrd.eq_of_compare hcmp)
    simp only [bMask_xor] at hcount
    subst hcount
    cases fDescending
    · exact absurd hless (by decide)
    · exact absurd hpositive (by decide)

section Bracket

variable {pb bytes : List UInt8} {v : Option (List UInt8)} (fDescending : Bool)
  (front more : List UInt8)

def lead (pb : List UInt8) : List UInt8 := flipBits fDescending (bPrefixData :: stem pb)

def sentinels (pb : List UInt8) : List UInt8 :=
  replicate ((chunked pb).length + 1 - ibDataEnd pb) bSentinel

theorem take_delimiter (pb : List UInt8) :
    (flipBits fDescending (bPrefixData :: chunked pb)).take (1 + ibDataEnd pb) =
      lead fDescending pb := by
  rw [← flipBits_take, add_comm, take_succ_cons]
  rfl

theorem lead_length_le (pb : List UInt8) :
    (lead fDescending pb).length ≤ (chunked pb).length + 1 := by
  rw [lead, flipBits_length, length_cons, stem, length_take]
  omega

theorem below_sentinels {fill rest : List UInt8} {count : UInt8} (hpositive : 0 < count.toNat)
    (hless : count.toNat < 255) (hlen : (chunked pb).length = ibDataEnd pb + fill.length + 1) :
    Before (front ++ flipBits fDescending (bPrefixData :: stem pb ++ (fill ++ count :: rest)) ++
      more)
      (front ++ lead fDescending pb ++ sentinels pb) := by
  have hroom : (flipBits fDescending fill).length < (chunked pb).length + 1 - ibDataEnd pb := by
    rw [flipBits_length]
    omega
  have hbelow := before_replicate compare_sentinel_ne_gt
    (count_lt_sentinel fDescending hpositive hless) (flipBits fDescending rest ++ more)
    (flipBits fDescending fill) hroom
  have hkey := hbelow.append_left (front ++ lead fDescending pb)
  rw [flipBits_append, flipBits_append _ fill, flipBits_cons _ count]
  simpa only [lead, sentinels, append_assoc, cons_append] using hkey

theorem fork_lead (h : Fork x y (bPrefixData :: stem pb) bytes) :
    Fork (bMask fDescending ^^^ x) (bMask fDescending ^^^ y) (front ++ lead fDescending pb)
      (front ++ flipBits fDescending bytes) := by
  rw [lead, flipBits_eq_map, flipBits_eq_map]
  exact (h.map _).append_left front

theorem bMask_xor_ne (h : x ≠ y) : bMask fDescending ^^^ x ≠ bMask fDescending ^^^ y := by
  intro heq
  have hxy := congrArg (bMask fDescending ^^^ ·) heq
  simp only [bMask_xor] at hxy
  exact h hxy

theorem between_start_iff (h : Lies pb v bytes) (hlast : pb.getLast? ≠ some 0) :
    Between (front ++ lead fDescending pb) (front ++ flipBits fDescending bytes ++ more)
      (front ++ lead fDescending pb ++ sentinels pb) ↔ Begins pb v := by
  cases h with
  | begins hbegins fill count rest heq hpositive hless hlen hseek =>
    refine iff_of_true ⟨?_, ?_⟩ hbegins
    · rw [cmpKey_eq_compare]
      refine compare_ne_gt_of_begins ⟨flipBits fDescending (fill ++ count :: rest) ++ more, ?_⟩
      rw [heq, flipBits_append _ (bPrefixData :: stem pb), lead]
      simp only [append_assoc]
    · rw [cmpKey_eq_compare, heq,
        (below_sentinels fDescending front more hpositive hless hlen).compare_eq]
      exact nofun
  | parts hnot x y hne hfork =>
    have hout := not_between_of_fork (bMask_xor_ne fDescending hne)
      (fork_lead fDescending front hfork) [] more (sentinels pb)
    rw [append_nil] at hout
    exact iff_of_false hout hnot
  | shorter hnot pbField hpos hbegins hlt heq =>
    refine iff_of_false ?_ hnot
    have hbefore : Before (bPrefixData :: chunked pbField) (bPrefixData :: stem pb) :=
      .tail _ (before_stem hpos hbegins hlt hlast)
    rw [heq]
    cases fDescending with
    | false =>
      have hkey := (hbefore.append more []).append_left front
      rw [append_nil, ← append_assoc] at hkey
      exact not_between_of_below hkey _
    | true =>
      have hflip := hbefore.map compare_flip
      have hkey := (hflip.append (sentinels pb) more).append_left front
      rw [← append_assoc, ← append_assoc] at hkey
      exact not_between_of_above hkey _

theorem between_seek_iff (hpos : pb ≠ []) (h : Lies pb v bytes) :
    Between (front ++ (bPrefixData :: chunked pb)) (front ++ bytes ++ more)
      (front ++ lead false pb ++ sentinels pb) ↔ Begins pb v := by
  cases h with
  | begins hbegins fill count rest heq hpositive hless hlen hseek =>
    refine iff_of_true ⟨?_, ?_⟩ hbegins
    · rw [cmpKey_eq_compare, append_assoc, compare_append rfl, ReflOrd.compare_self,
        Ordering.eq_then]
      have hmore := compare_ne_gt_of_begins (prefix_append bytes more)
      rw [ne_eq, ← Ordering.isLE_iff_ne_gt] at hseek hmore ⊢
      exact TransOrd.isLE_trans hseek hmore
    · have hbelow : Before (front ++ bytes ++ more) (front ++ lead false pb ++ sentinels pb) := by
        rw [heq]
        exact below_sentinels false front more hpositive hless hlen
      rw [cmpKey_eq_compare, hbelow.compare_eq]
      exact nofun
  | parts hnot x y hne hfork =>
    have hout := not_between_of_fork hne (hfork.append_left front)
      ((chunked pb).drop (ibDataEnd pb)) more (sentinels pb)
    rw [append_assoc, cons_append, stem, take_append_drop] at hout
    exact iff_of_false hout hnot
  | shorter hnot pbField hne hbegins hlt heq =>
    refine iff_of_false ?_ hnot
    have hbefore : Before (chunked pbField) (chunked pb) := by
      have hcompare : compare pbField pb = .lt := by
        obtain ⟨t, rfl⟩ := hbegins
        rw [length_append] at hlt
        obtain ⟨b, t, rfl⟩ := exists_cons_of_length_pos (by omega : 0 < t.length)
        have happend := compare_append (rfl : pbField.length = pbField.length) [] (b :: t)
        rw [append_nil, ReflOrd.compare_self, Ordering.eq_then] at happend
        rw [happend]
        rfl
      have hordered := ordered_chunked hne hpos
      rwa [hcompare] at hordered
    have hkey := ((Before.tail bPrefixData hbefore).append more []).append_left front
    rw [append_nil, ← append_assoc] at hkey
    rw [heq]
    exact not_between_of_below hkey _

end Bracket

theorem retrieveSegments_append (idb : Idb) (cbDataMost ichOffset : Nat)
    (cols cols' : List (IdxSeg × Column)) :
    ∀ (iidxseg : Nat) (st : KeyState),
      retrieveSegments idb cbDataMost ichOffset iidxseg (cols ++ cols') st =
        (retrieveSegments idb cbDataMost ichOffset iidxseg cols st).bind
          (retrieveSegments idb cbDataMost ichOffset (iidxseg + cols.length) cols') := by
  induction cols with
  | nil => exact fun iidxseg st => rfl
  | cons c cols ih =>
    intro iidxseg st
    obtain ⟨seg, col⟩ := c
    rw [cons_append, retrieveSegments, retrieveSegments]
    cases retrieveSegment idb cbDataMost ichOffset iidxseg seg col st with
    | error stop => rfl
    | ok st' =>
      have hlen : iidxseg + 1 + cols.length = iidxseg + (cols.length + 1) := by omega
      exact (ih (iidxseg + 1) st').trans (by rw [hlen]; rfl)

theorem storedKey_eq {idb : Idb} {entry : Entry} (hentry : EntryOf idb entry) {st' : KeyState}
    (h : recIIRetrieveKey idb entry idb.cbKeyMost = .ok st') {iidxseg : Nat} {seg : IdxSeg}
    {col : Column} (hcol : (idb.rgidxseg.zip entry.columns)[iidxseg]? = some (seg, col)) :
    ∃ st sk, makeKeys idb entry.ichOffset 0 ((idb.rgidxseg.zip entry.columns).take iidxseg)
        SearchKey.reset = .ok sk ∧ InStep idb iidxseg st sk ∧
      (sk.dataSearchKey.length < idb.cbKeyMost → ∃ more, st'.key = sk.dataSearchKey ++
        flipBits seg.fDescending (columnBytes idb.toLimits
          (idb.cbKeyMost - sk.dataSearchKey.length) seg
          (keyValue idb entry.ichOffset iidxseg seg col)) ++ more) := by
  have hrun := recIIRetrieveKey_run h
  have hcols : ∀ i seg col, (idb.rgidxseg.zip entry.columns)[i]? = some (seg, col) →
      idb.rgidxseg[i]? = some seg ∧ Searchable idb entry.ichOffset i seg col :=
    fun i seg col hi => ⟨(getElem?_zip_eq_some.mp hi).1, hentry.searchable hi⟩
  generalize idb.rgidxseg.zip entry.columns = cols at hrun hcols hcol ⊢
  obtain ⟨hlt, hget⟩ := List.getElem?_eq_some_iff.mp hcol
  have hsplit : cols = cols.take iidxseg ++ (seg, col) :: cols.drop (iidxseg + 1) := by
    rw [← hget, getElem_cons_drop, take_append_drop]
  have hlen : (cols.take iidxseg).length = iidxseg := by
    rw [length_take, Nat.min_eq_left (Nat.le_of_lt hlt)]
  rw [hsplit, retrieveSegments_append, hlen, Nat.zero_add] at hrun
  obtain ⟨st, hfirst, hrun⟩ := bind_eq_ok hrun
  obtain ⟨sk, hsk, hstep, -⟩ := makeKeys_inStep (InStep.start idb) (fun i seg col hi => by
    rw [Nat.zero_add]
    refine hcols i seg col ?_
    rw [getElem?_take] at hi
    split at hi
    · exact hi
    · cases hi) hfirst
  rw [hlen, Nat.zero_add] at hstep
  refine ⟨st, sk, hsk, hstep, fun hroom => ?_⟩
  obtain ⟨st₁, hst, hrun⟩ := bind_eq_ok hrun
  obtain ⟨hseg, hsearch⟩ := hcols iidxseg seg col hcol
  obtain ⟨sk₁, -, hstep₁⟩ := hstep.step hseg hsearch hst
  obtain ⟨-, -, -, more, hmore⟩ := makeKeys_inStep hstep₁ (fun i seg col hi => by
    rw [getElem?_drop] at hi
    exact hcols _ seg col hi) hrun
  rw [hstep.key] at hroom ⊢
  rcases retrieveSegment_ok hstep.full hst with ⟨hfull, -⟩ | ⟨-, -, hkey, -⟩
  · exact absurd hroom (Nat.not_lt.mpr hfull)
  · refine ⟨more, ?_⟩
    rw [← hmore, hkey, ← (part_keyValue (by omega) (Nat.sub_le _ _) _ _ _ _).1]
    rfl

/-- The call for the column `iidxseg` of a search. -/
def searchGrbit (iidxseg : Nat) (limitOptions : LimitOptions) : Grbit where
  fNewKey := iidxseg == 0
  fKeyDataZeroLength := false
  fKeyOverridePrimaryIndexPlaceholder := true
  limitOptions := limitOptions
  fStrLimit := false

section Search

variable {idb : Idb} {cbKeyAvail : Nat} {seg : IdxSeg} {pb : List UInt8}
  (hbinary : fRECBinaryColumn seg.coltyp = true) (hvar : seg.fFixedField = false)
  (hpos : pb ≠ []) (hroom : Roomy idb.toLimits cbKeyAvail (cbNormalized false pb))

include hbinary hvar hpos hroom

theorem normalizeSegment_of_roomy (fTupleField : Bool) (grbit : Grbit) :
    normalizeSegment idb cbKeyAvail seg fTupleField grbit pb =
      .ok (flipBits seg.fDescending (bPrefixData :: chunked pb), false) := by
  have htruncated : fTruncatedWithin idb.toLimits cbKeyAvail (cbChunked pb.length) = false := by
    have hfits : cbChunked pb.length ≤ cbKeyAvail := hroom.1
    rw [Bool.eq_false_iff, ne_eq, fTruncatedWithin_iff idb.toLimits hfits]
    exact lt_irrefl _
  have hbytes := bytes_of_roomy hpos hroom
  simp only [normalizeSegment, if_neg hpos, if_pos hbinary, hvar, hbytes]
  simp only [normalizeBinarySegment, Bool.false_eq_true, if_false, htruncated, wholeBinary]

theorem ibBinaryColumnDelimiter_of_roomy :
    ibBinaryColumnDelimiter idb.toLimits cbKeyAvail seg pb = 1 + ibDataEnd pb := by
  have hcbSeg :
      cbSegWithin idb.toLimits cbKeyAvail (cbChunked pb.length) = cbChunked pb.length := by
    rw [cbSegWithin_eq_min]
    exact Nat.min_eq_right (cbSegMost_of_roomy hroom)
  have hnot : (decide (pb = []) || !fRECBinaryColumn seg.coltyp || seg.fFixedField) = false := by
    simp [hpos, hbinary, hvar]
  simp only [ibBinaryColumnDelimiter, hnot, Bool.false_eq_true, if_false, hcbSeg]
  rw [cbChunked, Nat.add_sub_cancel, Nat.mul_mod_left, Nat.mul_div_cancel _ (by decide)]
  exact ibDelimiterFrom_eq hpos 1

end Search

section Keys

variable {idb : Idb} {iidxseg : Nat} {st : KeyState} {sk : SearchKey} {seg : IdxSeg}
  {pb : List UInt8} (hstep : InStep idb iidxseg st sk) (hseg : idb.rgidxseg[iidxseg]? = some seg)
  (hbinary : fRECBinaryColumn seg.coltyp = true) (hvar : seg.fFixedField = false) (hpos : pb ≠ [])
  (hroom : Roomy idb.toLimits (idb.cbKeyMost - sk.dataSearchKey.length) (cbNormalized false pb))

include hroom in
theorem length_lt_of_roomy : sk.dataSearchKey.length < idb.cbKeyMost := by
  have hle := hroom.1
  simp only [cbNormalized, Bool.false_eq_true, if_false, cbChunked] at hle
  omega

include hbinary hroom in
theorem lineKeySeg_eq :
    (if idb.cbKeyMost = cbKeyMostOld then trim seg cbKeyMostOld pb else pb) = pb := by
  split
  case isTrue hold =>
    have hle := hroom.1
    simp only [cbNormalized, Bool.false_eq_true, if_false, cbChunked, hold, cbKeyMostOld,
      cbFLDBinaryChunk, cbFLDBinaryChunkNormalized] at hle
    rw [trim, if_pos hbinary]
    exact take_of_length_le (by simp only [cbKeyMostOld]; omega)
  case isFalse => rfl

include hstep hseg hbinary hvar hpos hroom

theorem searchKey_eq (limitOptions : LimitOptions) (hvalid : limitOptions ≠ .several)
    {norm : List UInt8} {fLimit : Bool}
    (hlimit : setLimit (searchGrbit iidxseg limitOptions)
      (flipBits seg.fDescending (bPrefixData :: chunked pb))
      (idb.cbKeyMost - sk.dataSearchKey.length + 1) (1 + ibDataEnd pb) = (norm, fLimit))
    (hnorm : norm.length ≤ (chunked pb).length + 2) :
    makeKey idb (searchGrbit iidxseg limitOptions) pb sk =
      .ok ⟨sk.dataSearchKey ++ norm, iidxseg + 1, true, false, fLimit⟩ := by
  have hlt := length_lt_of_roomy hroom
  have hbig : sk.fTooBig = false := by
    rw [Bool.eq_false_iff]
    intro hbig
    have hfull := hstep.tooBig hbig
    rw [← hstep.key] at hfull
    omega
  have hgrbit : fInvalidGrbit seg limitOptions = false := by
    cases limitOptions <;> simp_all [fInvalidGrbit]
  have hwhole : (chunked pb).length + 1 = cbNormalized false pb := wholeBinary_length false hpos
  have hle := hroom.1
  have htake : norm.take (idb.cbKeyMost + 1 - sk.dataSearchKey.length) = norm :=
    take_of_length_le (by omega)
  have hcond : (!sk.fTooBig && decide (sk.dataSearchKey.length < idb.cbKeyMost)) = true := by
    rw [hbig, decide_eq_true hlt]
    rfl
  rw [makeKey_eq hstep hseg rfl rfl, appendKeySegment]
  simp only [hvar, Bool.false_and, Bool.false_eq_true, if_false, lineKeySeg_eq hbinary hroom]
  rw [if_neg (by simp [searchGrbit, hgrbit]), if_pos hcond]
  simp only [normalizeSegment_of_roomy hbinary hvar hpos hroom,
    ibBinaryColumnDelimiter_of_roomy hbinary hvar hpos hroom]
  change Except.ok _ = Except.ok _
  simp only [hlimit, htake, hstep.columns, hstep.unlimited, Bool.false_or]

theorem seekKey_eq : makeKey idb (searchGrbit iidxseg .none) pb sk =
    .ok ⟨sk.dataSearchKey ++ flipBits seg.fDescending (bPrefixData :: chunked pb), iidxseg + 1,
      true, false, false⟩ := by
  refine searchKey_eq hstep hseg hbinary hvar hpos hroom .none nofun rfl ?_
  rw [flipBits_length, length_cons]
  omega

theorem startKey_eq :
    makeKey idb (searchGrbit iidxseg .partialColumnStartLimit) pb sk =
      .ok ⟨sk.dataSearchKey ++ lead seg.fDescending pb, iidxseg + 1, true, false, true⟩ := by
  refine searchKey_eq hstep hseg hbinary hvar hpos hroom .partialColumnStartLimit nofun ?_ ?_
  · simp only [setLimit, searchGrbit, trySetPartialColumnLimitOnBinaryColumn, Nat.add_eq_zero_iff,
      Nat.one_ne_zero, false_and, Bool.false_eq_true, if_false, take_delimiter]
  · have hle := lead_length_le seg.fDescending pb
    omega

theorem limitKey_eq :
    makeKey idb (searchGrbit iidxseg .partialColumnEndLimit) pb sk =
      .ok ⟨sk.dataSearchKey ++ (lead seg.fDescending pb ++ sentinels pb), iidxseg + 1, true,
        false, true⟩ := by
  refine searchKey_eq hstep hseg hbinary hvar hpos hroom .partialColumnEndLimit nofun ?_ ?_
  · have hcount : (flipBits seg.fDescending (bPrefixData :: chunked pb)).length + 1 -
        (1 + ibDataEnd pb) = (chunked pb).length + 1 - ibDataEnd pb := by
      rw [flipBits_length, length_cons]
      omega
    simp only [setLimit, searchGrbit, trySetPartialColumnLimitOnBinaryColumn, Nat.add_eq_zero_iff,
      Nat.one_ne_zero, false_and, if_false, if_true, take_delimiter, hcount]
    rfl
  · rw [lead, sentinels, length_append, flipBits_length, length_cons, stem,
      length_take, length_replicate]
    omega

end Keys

/-- For a variable binary column and data that fits in the key, a call for each column before it and
then one with the data and a limit give search keys.  The stored key of an entry with the same
columns before lies between the key of the plain data, if the column is ascending, and the key with
the end limit exactly if its column begins with the data; in either direction the key with the start
limit does the same for data that does not end in a zero byte.  The other columns matter only by the
bytes they put before and behind (`between_seek_iff`, `between_start_iff`). -/
theorem limitKeys_bracket (idb : Idb) (entry : Entry) (hentry : EntryOf idb entry) (fuel : Nat)
    (warning : Warning) (key : List UInt8)
    (hkey : recIRetrieveKey idb entry (fuel + 1) = some (.ok (warning, key))) (iidxseg : Nat)
    (seg : IdxSeg) (col : Column)
    (hcol : (idb.rgidxseg.zip entry.columns)[iidxseg]? = some (seg, col))
    (hbinary : fRECBinaryColumn seg.coltyp = true) (hvar : seg.fFixedField = false)
    (pb : List UInt8) (hpos : pb ≠ []) :
    ∃ sk, makeKeys idb entry.ichOffset 0 ((idb.rgidxseg.zip entry.columns).take iidxseg)
        SearchKey.reset = .ok sk ∧
      (Roomy idb.toLimits (idb.cbKeyMost - sk.dataSearchKey.length) (cbNormalized false pb) →
        ∃ seek start limit, makeKey idb (searchGrbit iidxseg .none) pb sk = .ok seek ∧
          makeKey idb (searchGrbit iidxseg .partialColumnStartLimit) pb sk =
            .ok start ∧
          makeKey idb (searchGrbit iidxseg .partialColumnEndLimit) pb sk = .ok limit ∧
          (seg.fDescending = false → (Between seek.dataSearchKey key limit.dataSearchKey ↔
              Begins pb (keyValue idb entry.ichOffset iidxseg seg col))) ∧
          (pb.getLast? ≠ some 0 → (Between start.dataSearchKey key limit.dataSearchKey ↔
              Begins pb (keyValue idb entry.ichOffset iidxseg seg col)))) := by
  rw [hentry.recIRetrieveKey_eq fuel] at hkey
  cases hst : recIIRetrieveKey idb entry idb.cbKeyMost with
  | error stop =>
    rw [hst] at hkey
    cases hkey
  | ok st' =>
    rw [hst] at hkey
    cases hkey
    obtain ⟨st, sk, hsk, hstep, hstored⟩ := storedKey_eq hentry hst hcol
    have hseg := (getElem?_zip_eq_some.mp hcol).1
    refine ⟨sk, hsk, fun hroom => ?_⟩
    obtain ⟨more, hkey⟩ := hstored (length_lt_of_roomy hroom)
    have hlies := lies_columnBytes hbinary hvar hpos hroom
      (keyValue idb entry.ichOffset iidxseg seg col)
    refine ⟨_, _, _, seekKey_eq hstep hseg hbinary hvar hpos hroom,
      startKey_eq hstep hseg hbinary hvar hpos hroom,
      limitKey_eq hstep hseg hbinary hvar hpos hroom, ?_, ?_⟩
    · intro hascending
      rw [hkey, hascending, ← append_assoc]
      exact between_seek_iff sk.dataSearchKey more hpos hlies
    · intro hlast
      rw [hkey, ← append_assoc]
      exact between_start_iff seg.fDescending sk.dataSearchKey more hlies hlast

def descendingIndex : Idb where
  toLimits := defaultLimits
  rgidxseg := [binaryDescending]
  fTuples := false
  cchTuplesLengthMin := 0
  cchTuplesLengthMax := 0
  fNestedTable := false
  fDisallowTruncation := false
  fHasPlaceholderColumn := false
  htuples := nofun

def onesEntry : Entry := ⟨[], [⟨true, 1, .intrinsicLV, some [1, 1]⟩], 0⟩

def onesKey : List UInt8 := [0x80, 0xfe, 0xfe, 0xff, 0xff, 0xff, 0xff, 0xff, 0xff, 0xfd]

theorem entryOf_onesEntry : EntryOf descendingIndex onesEntry where
  holds := by
    rintro (_ | i) seg col hcol
    · cases hcol
      exact ⟨nofun, nofun⟩
    · cases hcol
  tuple := nofun

/-- The limits bracket the entry in a search for the byte 1. -/
theorem onesEntry_bracketed :
    ∃ start limit,
      makeKey descendingIndex (searchGrbit 0 .partialColumnStartLimit) [1] .reset = .ok start ∧
      makeKey descendingIndex (searchGrbit 0 .partialColumnEndLimit) [1] .reset =
        .ok limit ∧ Between start.dataSearchKey onesKey limit.dataSearchKey := by
  obtain ⟨sk, hsk, hbracket⟩ := limitKeys_bracket descendingIndex onesEntry entryOf_onesEntry 0
    .success onesKey (by decide) 0 ⟨.longBinary, false, 0, true, by simp, by simp⟩ _ rfl rfl rfl [1]
    (by decide)
  cases hsk
  obtain ⟨seek, start, limit, -, hstart, hlimit, -, hbetween⟩ := hbracket (by decide)
  exact ⟨start, limit, hstart, hlimit, (hbetween (by decide)).mpr ⟨[1], rfl⟩⟩

/-- The key of the plain byte is above the entry. -/
theorem onesEntry_outside :
    recIRetrieveKey descendingIndex onesEntry 1 = some (.ok (.success, onesKey)) ∧
      ∃ seek limit, makeKey descendingIndex (searchGrbit 0 .none) [1] .reset = .ok seek ∧
        makeKey descendingIndex (searchGrbit 0 .partialColumnEndLimit) [1] .reset = .ok limit ∧
        ¬ Between seek.dataSearchKey onesKey limit.dataSearchKey := by
  refine ⟨by decide, _, _, rfl, rfl, ?_⟩
  decide

end EseLinux.KeyBracket
