import EseLinux.KeyEnough

/-!
The search key of a row is the key of its index entry: both are the same segments cut at the
same byte, although one is cut from trimmed data and the other from the whole values.
-/

namespace EseLinux.KeyBuild

open KeySegment List

/-- What a column adds to a key with `cbKeyAvail` bytes left. -/
def part (idb : Idb) (cbKeyAvail : Nat) (seg : IdxSeg) (v : Option (List UInt8)) : List UInt8 :=
  flipBits seg.fDescending ((normalizeColumn idb.toLimits cbKeyAvail seg v).bytes.take cbKeyAvail)

def fCut (idb : Idb) (cbKeyAvail : Nat) (seg : IdxSeg) (v : Option (List UInt8)) : Bool :=
  (normalizeColumn idb.toLimits cbKeyAvail seg v).fColumnTruncated ||
    decide ((normalizeColumn idb.toLimits cbKeyAvail seg v).bytes.length > cbKeyAvail)

theorem part_length_le (idb : Idb) (cbKeyAvail : Nat) (seg : IdxSeg) (v : Option (List UInt8)) :
    (part idb cbKeyAvail seg v).length ≤ cbKeyAvail := by
  rw [part, flipBits_length, length_take]
  exact min_le_left _ _

variable {cbKeyAvail : Nat}

theorem normalizeBinarySegment_truncated {idb : Limits}
    (havail : 0 < cbKeyAvail) {fFixedField : Bool} {pbField : List UInt8}
    (h : (normalizeBinarySegment idb cbKeyAvail fFixedField pbField).fColumnTruncated = true) :
    (normalizeBinarySegment idb cbKeyAvail fFixedField pbField).bytes.length = cbKeyAvail := by
  have htruncated : fTruncatedWithin idb cbKeyAvail
      (if fFixedField then pbField.length + 1 else cbChunked pbField.length) = true := by
    rcases fFixedField with _ | _
    · exact h
    · exact h
  rw [normalizeBinarySegment_length havail, cbSegWithin]
  rw [fTruncatedWithin, decide_eq_true_eq] at htruncated
  exact min_eq_right (htruncated.le)

variable {idb : Idb} {seg : IdxSeg} {col : Column} {ichOffset iidxseg : Nat} {entry : Entry}
  {st st' : KeyState} {sk : SearchKey}

variable {v : Option (List UInt8)}

theorem part_length_of_fCut (havail : 0 < cbKeyAvail) (h : fCut idb cbKeyAvail seg v = true) :
    (part idb cbKeyAvail seg v).length = cbKeyAvail := by
  rw [fCut, Bool.or_eq_true, decide_eq_true_eq] at h
  rw [part, flipBits_length, length_take, min_eq_left]
  rcases h with htruncated | hlong
  · rcases v with _ | _ | ⟨b, pb⟩
    · cases htruncated
    · cases htruncated
    · rw [normalizeColumn] at htruncated ⊢
      split at htruncated
      · rename_i hbinary
        rw [if_pos hbinary, normalizeBinarySegment_truncated havail htruncated]
      · cases htruncated
  · exact hlong.le

variable {cbDataMost : Nat}

theorem appendSegment_ok (h : appendSegment idb cbDataMost seg v st = .ok st')
    (hnot : st.fKeyTruncated = false) : st'.key = st.key ++ part idb (idb.cbKeyAvail st) seg v ∧
      st'.fKeyTruncated = fCut idb (idb.cbKeyAvail st) seg v := by
  simp only [appendSegment, hnot, Bool.false_eq_true, if_false] at h
  split at h
  · cases h
  · cases h
    exact ⟨rfl, rfl⟩

def keyData (idb : Idb) (cbDataMost ichOffset iidxseg : Nat) (seg : IdxSeg) (col : Column) :
    Option (List UInt8) :=
  col.value.map (dataField idb cbDataMost ichOffset (idb.fTuples && iidxseg == 0) seg col.source)

theorem retrieveSegment_ok (hfull : st.fKeyTruncated = true → idb.cbKeyMost ≤ st.key.length)
    (h : retrieveSegment idb cbDataMost ichOffset iidxseg seg col st = .ok st') :
    (idb.cbKeyMost ≤ st.key.length ∧ st'.key = st.key) ∨ (st.key.length < idb.cbKeyMost ∧
      let v := keyData idb cbDataMost ichOffset iidxseg seg col
      (idb.fTuples = true → iidxseg = 0 → v ≠ none ∧ v ≠ some []) ∧
        st'.key = st.key ++ part idb (idb.cbKeyMost - st.key.length) seg v ∧
        st'.fKeyTruncated = fCut idb (idb.cbKeyMost - st.key.length) seg v) := by
  rw [retrieveSegment] at h
  -- the flag for multi-valued columns plays no role for the key
  generalize hst : (if col.fTagged then
      { st with fAllMVOutOfValues := st.fAllMVOutOfValues &&
        (col.itag > 1 && (col.value.isNone && col.source != .userDefinedDefault)) }
    else st) = st₁ at h
  have hkey : st₁.key = st.key := by rw [← hst]; split <;> rfl
  have htruncated : st₁.fKeyTruncated = st.fKeyTruncated := by rw [← hst]; split <;> rfl
  simp only [Idb.cbKeyAvail, hkey] at h
  split at h
  · rename_i hzero
    refine Or.inl ⟨by omega, ?_⟩
    split at h
    · cases h
    · split at h
      · cases h
      · cases h
        split <;> rfl
  · rename_i hpos
    have hlt : st.key.length < idb.cbKeyMost := by omega
    have hnot : st.fKeyTruncated = false :=
      Bool.eq_false_iff.mpr fun hflag => absurd (hfull hflag) (by omega)
    refine Or.inr ⟨hlt, ?_⟩
    split at h
    · cases h
    · rcases hvalue : col.value with _ | pb
      · simp only [hvalue] at h
        split at h
        · cases h
        · rename_i hshort
          obtain ⟨hkey', hcut⟩ := appendSegment_ok h (htruncated.trans hnot)
          simp only [nullColumn, Idb.cbKeyAvail, hkey] at hkey' hcut
          simp only [keyData, hvalue, Option.map_none]
          refine ⟨?_, hkey', hcut⟩
          intro htuples hfirst
          have hmin := (idb.htuples htuples).1
          simp [htuples, hfirst, hmin] at hshort
      · simp only [hvalue] at h
        split at h
        · cases h
        · rename_i hlong
          obtain ⟨hkey', hcut⟩ := appendSegment_ok h (htruncated.trans hnot)
          simp only [keyData, hvalue, Option.map_some]
          refine ⟨?_, hkey', hcut⟩
          intro htuples hfirst
          have hmin := (idb.htuples htuples).1
          refine ⟨Option.some_ne_none _, fun hempty => hlong ?_⟩
          rw [Option.some.inj hempty]
          simp [htuples, hfirst, hmin]

/-- The calls that give the zero-length value do so where a column can hold one. -/
def keyGrbit (iidxseg : Nat) (seg : IdxSeg) (v : Option (List UInt8)) : Grbit where
  fNewKey := iidxseg == 0
  fKeyDataZeroLength := v == some [] && fRECBinaryColumn seg.coltyp
  fKeyOverridePrimaryIndexPlaceholder := true
  limitOptions := .none
  fStrLimit := false

theorem normalizeSegment_eq (idb : Idb) {cbAvail : Nat} (havail : 0 < cbAvail) (iidxseg : Nat)
    (seg : IdxSeg) (fTupleField : Bool) (v : Option (List UInt8))
    (hfixed : v = some [] → seg.fFixedField = false)
    (htuple : fTupleField = true → v ≠ none ∧ v ≠ some []) :
    normalizeSegment idb cbAvail seg fTupleField (keyGrbit iidxseg seg v) (v.getD []) =
      .ok (part idb cbAvail seg v, fCut idb cbAvail seg v) := by
  have hone (b : UInt8) : take cbAvail [b] = [b] := take_of_length_le havail
  rcases v with _ | _ | ⟨b, pb⟩
  · have hno : fTupleField = false := Bool.eq_false_iff.mpr fun h => (htuple h).1 rfl
    simp [normalizeSegment, hno, keyGrbit, part, fCut, normalizeColumn, normalizeNullSegment, hone,
      havail.ne']
  · have hno : fTupleField = false := Bool.eq_false_iff.mpr fun h => (htuple h).2 rfl
    rcases hbinary : fRECBinaryColumn seg.coltyp with _ | _
    · simp [normalizeSegment, hno, keyGrbit, part, fCut, normalizeColumn, normalizeNullSegment,
        hbinary, hone, havail.ne']
    · simp [normalizeSegment, hno, keyGrbit, part, fCut, normalizeColumn, normalizeNullSegment,
        hbinary, hfixed rfl, hone, havail.ne']
  · rw [normalizeSegment, Option.getD_some, if_neg (cons_ne_nil b pb)]
    rcases hbinary : fRECBinaryColumn seg.coltyp with _ | _
    · simp [part, fCut, normalizeColumn, hbinary]
    · have hle :
          (normalizeBinarySegment idb.toLimits cbAvail seg.fFixedField (b :: pb)).bytes.length ≤
          cbAvail := by
        rw [normalizeBinarySegment_length havail]
        exact (cbSegWithin_le idb.toLimits cbAvail _).1
      simp [part, fCut, normalizeColumn, hbinary, take_of_length_le hle, hle]

theorem normalizeSegment_trim (idb : Idb) {cbAvail cb : Nat} (havail : 0 < cbAvail)
    (hcb : cbAvail ≤ cb) (iidxseg : Nat) {fTupleField : Bool}
    (hfixed : v = some [] → seg.fFixedField = false)
    (htuple : fTupleField = true → v ≠ none ∧ v ≠ some []) :
    normalizeSegment idb cbAvail seg fTupleField (keyGrbit iidxseg seg v)
        (trim seg cb (v.getD [])) =
      .ok (part idb cbAvail seg v, fCut idb cbAvail seg v) := by
  have hnil : trim seg cb [] = [] := by simp [trim]
  rcases v with _ | _ | ⟨b, pb⟩
  · rw [Option.getD_none, hnil]
    exact normalizeSegment_eq idb havail iidxseg seg fTupleField none hfixed htuple
  · rw [Option.getD_some, hnil]
    exact normalizeSegment_eq idb havail iidxseg seg fTupleField (some []) hfixed htuple
  · obtain ⟨c, pb', htrim⟩ : ∃ c pb', trim seg cb (b :: pb) = c :: pb' := by
      obtain ⟨n, rfl⟩ : ∃ n, cb = n + 1 := ⟨cb - 1, by omega⟩
      rw [trim]
      split
      · exact ⟨_, _, take_succ_cons⟩
      · exact ⟨b, pb, rfl⟩
    have hcolumn := normalizeColumn_trim idb.toLimits havail hcb seg (b :: pb)
    have hgrbit : keyGrbit iidxseg seg (some (b :: pb)) =
        keyGrbit iidxseg seg (some (trim seg cb (b :: pb))) := by
      simp [keyGrbit, htrim]
    have hsegment := normalizeSegment_eq idb havail iidxseg seg fTupleField
      (some (trim seg cb (b :: pb))) (by simp [htrim]) (by simp [htrim])
    rw [Option.getD_some] at hsegment ⊢
    rw [hgrbit, hsegment, part, fCut, part, fCut, hcolumn]

/-- The two pipelines before the column `iidxseg`. -/
structure InStep (idb : Idb) (iidxseg : Nat) (st : KeyState) (sk : SearchKey) : Prop where
  key : sk.dataSearchKey = st.key
  columns : sk.cColumnsInSearchKey = iidxseg
  fresh : iidxseg = 0 → sk = SearchKey.reset
  prepared : iidxseg ≠ 0 → sk.fPrepared = true
  within : st.key.length ≤ idb.cbKeyMost
  full : st.fKeyTruncated = true → idb.cbKeyMost ≤ st.key.length
  tooBig : sk.fTooBig = true → idb.cbKeyMost ≤ st.key.length
  unlimited : sk.fLimit = false

theorem InStep.start (idb : Idb) : InStep idb 0 .start SearchKey.reset :=
  ⟨rfl, rfl, fun _ => rfl, fun h => absurd rfl h, Nat.zero_le _, nofun, nofun, rfl⟩

theorem makeKey_eq (hstep : InStep idb iidxseg st sk) (hseg : idb.rgidxseg[iidxseg]? = some seg)
    {grbit : Grbit} (hnew : grbit.fNewKey = (iidxseg == 0))
    (hoverride : grbit.fKeyOverridePrimaryIndexPlaceholder = true) (pbKeySeg : List UInt8) :
    makeKey idb grbit pbKeySeg sk = appendKeySegment idb seg grbit pbKeySeg sk := by
  have hreset : (if grbit.fNewKey then SearchKey.reset else sk) = sk := by
    split
    · rename_i hfirst
      exact (hstep.fresh (by simpa [hnew] using hfirst)).symm
    · rfl
  have hmade : (!grbit.fNewKey && !sk.fPrepared) = false := by
    rcases Nat.eq_zero_or_pos iidxseg with hzero | hpos
    · simp [hnew, hzero]
    · simp [hstep.prepared hpos.ne']
  have hseg' : idb.rgidxseg[sk.cColumnsInSearchKey]? = some seg := hstep.columns ▸ hseg
  simp only [makeKey, hmade, hstep.unlimited, hreset, hoverride, Bool.not_true, Bool.and_false,
    Bool.false_eq_true, if_false, hseg']

/-- The value of a key column that a search gives: the row's, or the tuple of the entry. -/
def keyValue (idb : Idb) (ichOffset iidxseg : Nat) (seg : IdxSeg) (col : Column) :
    Option (List UInt8) :=
  if idb.fTuples && iidxseg == 0 then keyData idb idb.cbKeyMost ichOffset iidxseg seg col
  else col.value

/-- A value of the column, where a tuple is one of a fixed column only as a whole. -/
def Searchable (idb : Idb) (ichOffset iidxseg : Nat) (seg : IdxSeg) (col : Column) : Prop :=
  ∀ pb ∈ keyValue idb ichOffset iidxseg seg col, seg.fFixedField = true → pb.length = seg.cbMaxLen

theorem part_keyValue (havail : 0 < cbKeyAvail)
    (hmost : cbKeyAvail ≤ idb.cbKeyMost) (ichOffset iidxseg : Nat) (seg : IdxSeg) (col : Column) :
    part idb cbKeyAvail seg (keyValue idb ichOffset iidxseg seg col) =
        part idb cbKeyAvail seg (keyData idb idb.cbKeyMost ichOffset iidxseg seg col) ∧
      fCut idb cbKeyAvail seg (keyValue idb ichOffset iidxseg seg col) =
        fCut idb cbKeyAvail seg (keyData idb idb.cbKeyMost ichOffset iidxseg seg col) := by
  rw [keyValue]
  split
  · exact ⟨rfl, rfl⟩
  · rename_i htuple
    rcases hvalue : col.value with _ | pb
    · simp [keyData, hvalue]
    · have hdata : keyData idb idb.cbKeyMost ichOffset iidxseg seg col =
          some (trim seg idb.cbKeyMost pb) := by
        simp [keyData, hvalue, dataField, htuple]
      rw [hdata, part, part, fCut, fCut, normalizeColumn_trim idb.toLimits havail hmost]
      exact ⟨rfl, rfl⟩

section Sized

variable (hsize : ∀ pb ∈ v, seg.fFixedField = true → pb.length = seg.cbMaxLen)
include hsize

theorem not_fixed_of_empty (hempty : v = some []) : seg.fFixedField = false :=
  Bool.eq_false_iff.mpr fun hfixed =>
    absurd (hsize [] hempty hfixed).symm (seg.hcbMaxLen hfixed).1.ne'

theorem not_wrong_size : (seg.fFixedField && decide (0 < (v.getD []).length) &&
    (v.getD []).length != seg.cbMaxLen) = false := by
  rcases hfixed : seg.fFixedField with _ | _
  · rfl
  · rcases v with _ | pb
    · rfl
    · simp [hsize pb rfl hfixed]

theorem appendKeySegment_of_full (iidxseg : Nat)
    (hfull : idb.cbKeyMost ≤ sk.dataSearchKey.length) :
    appendKeySegment idb seg (keyGrbit iidxseg seg v) (v.getD []) sk =
      .ok { sk with cColumnsInSearchKey := sk.cColumnsInSearchKey + 1, fPrepared := true } := by
  have hskip : (!sk.fTooBig && decide (sk.dataSearchKey.length < idb.cbKeyMost)) = false := by
    rw [decide_eq_false (not_lt.mpr hfull), Bool.and_false]
  simp only [appendKeySegment, not_wrong_size hsize, keyGrbit, fInvalidGrbit, hskip,
    Bool.false_eq_true, if_false]

theorem appendKeySegment_of_lt (iidxseg : Nat) (hlt : sk.dataSearchKey.length < idb.cbKeyMost)
    (hbig : sk.fTooBig = false) (htuple : (sk.cColumnsInSearchKey == 0 && idb.fTuples) = true →
      v ≠ none ∧ v ≠ some []) :
    appendKeySegment idb seg (keyGrbit iidxseg seg v) (v.getD []) sk =
      .ok ⟨sk.dataSearchKey ++ part idb (idb.cbKeyMost - sk.dataSearchKey.length) seg v,
        sk.cColumnsInSearchKey + 1, true,
        fCut idb (idb.cbKeyMost - sk.dataSearchKey.length) seg v, sk.fLimit⟩ := by
  have havail : 0 < idb.cbKeyMost - sk.dataSearchKey.length := by omega
  have hgo : (!sk.fTooBig && decide (sk.dataSearchKey.length < idb.cbKeyMost)) = true := by
    rw [hbig, decide_eq_true hlt]
    rfl
  have hvalid : fInvalidGrbit seg (keyGrbit iidxseg seg v).limitOptions = false := rfl
  have htake : (part idb (idb.cbKeyMost - sk.dataSearchKey.length) seg v).take
      (idb.cbKeyMost + 1 - sk.dataSearchKey.length) =
        part idb (idb.cbKeyMost - sk.dataSearchKey.length) seg v := by
    have hle := part_length_le idb (idb.cbKeyMost - sk.dataSearchKey.length) seg v
    exact take_of_length_le (by omega)
  have hnorm : normalizeSegment idb (idb.cbKeyMost - sk.dataSearchKey.length) seg
      (sk.cColumnsInSearchKey == 0 && idb.fTuples) (keyGrbit iidxseg seg v)
      (if idb.cbKeyMost = cbKeyMostOld then trim seg cbKeyMostOld (v.getD []) else v.getD []) =
        .ok (part idb (idb.cbKeyMost - sk.dataSearchKey.length) seg v,
          fCut idb (idb.cbKeyMost - sk.dataSearchKey.length) seg v) := by
    split
    · exact normalizeSegment_trim idb havail (by omega) iidxseg (not_fixed_of_empty hsize) htuple
    · exact normalizeSegment_eq idb havail iidxseg seg _ _ (not_fixed_of_empty hsize) htuple
  simp only [appendKeySegment, not_wrong_size hsize, hvalid, hgo, Bool.false_eq_true, if_false,
    if_true, hnorm]
  change Except.ok _ = Except.ok _
  simp only [setLimit, keyGrbit, Bool.false_eq_true, if_false, htake, Bool.or_false]

end Sized

theorem InStep.step (hstep : InStep idb iidxseg st sk)
    (hseg : idb.rgidxseg[iidxseg]? = some seg) (hsearch : Searchable idb ichOffset iidxseg seg col)
    (h : retrieveSegment idb idb.cbKeyMost ichOffset iidxseg seg col st = .ok st') :
    ∃ sk', makeKey idb (keyGrbit iidxseg seg (keyValue idb ichOffset iidxseg seg col))
        ((keyValue idb ichOffset iidxseg seg col).getD []) sk = .ok sk' ∧
      InStep idb (iidxseg + 1) st' sk' := by
  rw [makeKey_eq hstep hseg rfl rfl]
  rcases retrieveSegment_ok hstep.full h with ⟨hfull, hkey⟩ | ⟨hlt, htuple, hkey, hcut⟩
  · refine ⟨_, appendKeySegment_of_full hsearch iidxseg (hstep.key.symm ▸ hfull), ?_⟩
    exact {
      key := hstep.key.trans hkey.symm
      columns := congrArg (· + 1) hstep.columns
      fresh := fun h => absurd h (Nat.succ_ne_zero iidxseg)
      prepared := fun _ => rfl
      within := hkey ▸ hstep.within
      full := fun _ => hkey ▸ hfull
      tooBig := fun _ => hkey ▸ hfull
      unlimited := hstep.unlimited }
  · have hbig : sk.fTooBig = false :=
      Bool.eq_false_iff.mpr fun hflag => absurd (hstep.tooBig hflag) (not_le.mpr hlt)
    have htuple' : (sk.cColumnsInSearchKey == 0 && idb.fTuples) = true →
        keyValue idb ichOffset iidxseg seg col ≠ none ∧
          keyValue idb ichOffset iidxseg seg col ≠ some [] := by
      intro hfield
      rw [hstep.columns, Bool.and_eq_true, beq_iff_eq] at hfield
      rw [keyValue, if_pos (by simp [hfield])]
      exact htuple hfield.2 hfield.1
    have havail : 0 < idb.cbKeyMost - st.key.length := by omega
    obtain ⟨hpart, hcut'⟩ := part_keyValue havail (Nat.sub_le _ _) ichOffset iidxseg seg col
    have happend := appendKeySegment_of_lt hsearch iidxseg (hstep.key.symm ▸ hlt) hbig htuple'
    rw [hstep.key, hpart, hcut', ← hkey, ← hcut] at happend
    have hlen := congrArg length hkey
    rw [length_append] at hlen
    have hfull (htruncated : st'.fKeyTruncated = true) : idb.cbKeyMost ≤ st'.key.length := by
      have hpartlen := part_length_of_fCut havail (hcut ▸ htruncated)
      omega
    refine ⟨_, happend, ?_⟩
    exact {
      key := rfl
      columns := congrArg (· + 1) hstep.columns
      fresh := fun h => absurd h (Nat.succ_ne_zero iidxseg)
      prepared := fun _ => rfl
      within := by
        have hle := part_length_le idb (idb.cbKeyMost - st.key.length) seg
          (keyData idb idb.cbKeyMost ichOffset iidxseg seg col)
        omega
      full := hfull
      tooBig := hfull
      unlimited := hstep.unlimited }

def makeKeys (idb : Idb) (ichOffset : Nat) :
    Nat → List (IdxSeg × Column) → SearchKey → Except KeyErr SearchKey
  | _, [], sk => .ok sk
  | iidxseg, (seg, col) :: rest, sk => do
      let v := keyValue idb ichOffset iidxseg seg col
      let sk ← makeKey idb (keyGrbit iidxseg seg v) (v.getD []) sk
      makeKeys idb ichOffset (iidxseg + 1) rest sk

theorem retrieveSegment_grows (hfull : st.fKeyTruncated = true → idb.cbKeyMost ≤ st.key.length)
    (h : retrieveSegment idb cbDataMost ichOffset iidxseg seg col st = .ok st') :
    st.key <+: st'.key := by
  rcases retrieveSegment_ok hfull h with ⟨-, hkey⟩ | ⟨-, -, hkey, -⟩
  · rw [hkey]
  · rw [hkey]
    exact prefix_append _ _

theorem makeKeys_inStep {cols : List (IdxSeg × Column)} :
    ∀ {iidxseg : Nat} {st st' : KeyState} {sk : SearchKey}, InStep idb iidxseg st sk →
      (∀ i seg col, cols[i]? = some (seg, col) → idb.rgidxseg[iidxseg + i]? = some seg ∧
        Searchable idb ichOffset (iidxseg + i) seg col) →
      retrieveSegments idb idb.cbKeyMost ichOffset iidxseg cols st = .ok st' →
      ∃ sk', makeKeys idb ichOffset iidxseg cols sk = .ok sk' ∧
        InStep idb (iidxseg + cols.length) st' sk' ∧ st.key <+: st'.key := by
  induction cols with
  | nil =>
    intro iidxseg st st' sk hstep _ h
    cases h
    exact ⟨sk, rfl, hstep, prefix_rfl⟩
  | cons c cols ih =>
    intro iidxseg st st' sk hstep hcols h
    obtain ⟨seg, col⟩ := c
    obtain ⟨st₁, hst, h⟩ := bind_eq_ok h
    obtain ⟨hseg, hsearch⟩ := hcols 0 seg col rfl
    obtain ⟨sk₁, hmake, hstep₁⟩ := hstep.step hseg hsearch hst
    obtain ⟨sk', hmakes, hstep', hgrows⟩ := ih hstep₁ (fun i seg col hi => by
      have hnext := hcols (i + 1) seg col hi
      rwa [← add_assoc, add_right_comm] at hnext) h
    refine ⟨sk', ?_, ?_, (retrieveSegment_grows hstep.full hst).trans hgrows⟩
    · rw [makeKeys, hmake]
      exact hmakes
    · rwa [length_cons, add_comm cols.length, ← add_assoc]

/-- The entry of a row: a value of its column for every key column, and the tuple of a fixed
column the column as a whole. -/
structure EntryOf (idb : Idb) (entry : Entry) : Prop where
  holds : ∀ (i : Nat) (seg : IdxSeg) (col : Column),
    (idb.rgidxseg.zip entry.columns)[i]? = some (seg, col) → seg.Holds col.value
  tuple : ∀ (seg : IdxSeg) (col : Column), idb.fTuples = true → seg.fFixedField = true →
    (idb.rgidxseg.zip entry.columns)[0]? = some (seg, col) →
    ∀ pb ∈ keyData idb idb.cbKeyMost entry.ichOffset 0 seg col, pb.length = seg.cbMaxLen

variable {i : Nat}

theorem EntryOf.searchable (h : EntryOf idb entry)
    (hi : (idb.rgidxseg.zip entry.columns)[i]? = some (seg, col)) :
    Searchable idb entry.ichOffset i seg col := by
  intro pb hpb hfixed
  rw [keyValue] at hpb
  split at hpb
  · rename_i htuple
    rw [Bool.and_eq_true, beq_iff_eq] at htuple
    obtain ⟨htuples, rfl⟩ := htuple
    exact h.tuple seg col htuples hfixed hi pb hpb
  · have hholds := h.holds i seg col hi
    rw [Option.mem_def.mp hpb] at hholds
    exact hholds.1 hfixed

theorem EntryOf.sized (h : EntryOf idb entry)
    (hi : (idb.rgidxseg.zip entry.columns)[i]? = some (seg, col)) : Sized seg col.value := by
  intro pb hpb cb hcb
  have hholds := h.holds i seg col hi
  rw [Option.mem_def.mp hpb] at hholds
  exact hholds.2 cb hcb

theorem recIIRetrieveKey_run (h : recIIRetrieveKey idb entry cbDataMost = .ok st) :
    retrieveSegments idb cbDataMost entry.ichOffset 0 (idb.rgidxseg.zip entry.columns) .start =
      .ok st := by
  rw [recIIRetrieveKey] at h
  split at h
  · cases h
  · obtain ⟨st₁, hrun, h⟩ := bind_eq_ok h
    split at h
    · cases h
    · cases h
      exact hrun

theorem EntryOf.enough (hentry : EntryOf idb entry)
    (h : recIIRetrieveKey idb entry idb.cbKeyMost = .ok st) : st.fNeedMoreData = false := by
  refine retrieveSegments_enough (fun i seg col hi => ?_) rfl (recIIRetrieveKey_run h)
  rw [zero_add]
  exact ⟨(getElem?_zip_eq_some.mp hi).1, hentry.sized hi⟩

theorem EntryOf.recIRetrieveKey_eq (hentry : EntryOf idb entry) (fuel : Nat) :
    recIRetrieveKey idb entry (fuel + 1) =
      some ((recIIRetrieveKey idb entry idb.cbKeyMost).map fun st => (st.warning, st.key)) := by
  rw [recIRetrieveKey, retrieveKeyFrom]
  rcases hkey : recIIRetrieveKey idb entry idb.cbKeyMost with stop | st
  · rfl
  · simp only [hentry.enough hkey, Bool.false_eq_true, if_false]
    rfl

/-- Retrieving the key of an entry always ends, and if it gives a key then one call for each key
column builds the same key for a search. -/
theorem makeKeys_eq_recIRetrieveKey (idb : Idb) (entry : Entry) (hentry : EntryOf idb entry)
    (fuel : Nat) :
    ∃ result, recIRetrieveKey idb entry (fuel + 1) = some result ∧
      ∀ warning key, result = .ok (warning, key) →
        ∃ sk, makeKeys idb entry.ichOffset 0 (idb.rgidxseg.zip entry.columns) SearchKey.reset =
            .ok sk ∧ sk.dataSearchKey = key := by
  refine ⟨_, hentry.recIRetrieveKey_eq fuel, ?_⟩
  intro warning key h
  rcases hkey : recIIRetrieveKey idb entry idb.cbKeyMost with stop | st
  · rw [hkey] at h
    cases h
  · rw [hkey] at h
    cases h
    obtain ⟨sk, hsk, hstep, -⟩ := makeKeys_inStep (InStep.start idb) (fun i seg col hi => by
      rw [zero_add]
      exact ⟨(getElem?_zip_eq_some.mp hi).1, hentry.searchable hi⟩) (recIIRetrieveKey_run hkey)
    exact ⟨sk, hsk, hstep.key⟩

/-- An index on a number and a binary column with room for twelve bytes. -/
def shortIndex : Idb where
  cbKeyMost := 12
  cbVarSegMac := 12
  fSortNullsHigh := false
  fDotNetGuid := false
  hcbVarSegMac := by decide
  hcbVarSegMac_le := by decide
  rgidxseg := [shortDescending, binaryAscending]
  fTuples := false
  cchTuplesLengthMin := 0
  cchTuplesLengthMax := 0
  fNestedTable := false
  fDisallowTruncation := false
  fHasPlaceholderColumn := false
  htuples := nofun

def shortEntry : Entry where
  rgConditional := []
  columns := [⟨false, 1, .inRecord, some [1, 0]⟩,
    ⟨true, 1, .separatedLV, some (replicate 20 0x41)⟩]
  ichOffset := 0

theorem entryOf_shortEntry : EntryOf shortIndex shortEntry := by
  refine ⟨?_, nofun⟩
  intro i seg col hi
  rcases i with _ | _ | i
  · cases hi
    refine ⟨fun _ => rfl, ?_⟩
    intro n hn
    cases hn
    exact Or.inr rfl
  · cases hi
    refine ⟨nofun, ?_⟩
    intro n hn
    cases hn
  · simp [shortIndex, shortEntry] at hi

/-- The second column is cut in its first chunk, in both keys. -/
theorem shortEntry_searched :
    recIRetrieveKey shortIndex shortEntry 1 = some (.ok (.success,
      [0x80, 0x7f, 0xfe, 0x7f, 0x41, 0x41, 0x41, 0x41, 0x41, 0x41, 0x41, 0x41])) ∧
      ∃ sk, makeKeys shortIndex 0 0 (shortIndex.rgidxseg.zip shortEntry.columns) SearchKey.reset =
          .ok sk ∧
        sk.dataSearchKey =
          [0x80, 0x7f, 0xfe, 0x7f, 0x41, 0x41, 0x41, 0x41, 0x41, 0x41, 0x41, 0x41] := by
  have hkey : recIRetrieveKey shortIndex shortEntry 1 = some (.ok (.success,
      [0x80, 0x7f, 0xfe, 0x7f, 0x41, 0x41, 0x41, 0x41, 0x41, 0x41, 0x41, 0x41])) := by decide
  obtain ⟨result, hresult, hsearch⟩ :=
    makeKeys_eq_recIRetrieveKey shortIndex shortEntry entryOf_shortEntry 0
  exact ⟨hkey, hsearch _ _ (Option.some.inj (hresult.symm.trans hkey))⟩

def tupleIndex : Idb where
  toLimits := defaultLimits
  rgidxseg := [binaryAscending]
  fTuples := true
  cchTuplesLengthMin := 2
  cchTuplesLengthMax := 4
  fNestedTable := false
  fDisallowTruncation := false
  fHasPlaceholderColumn := false
  htuples := by simp [fRECBinaryColumn, defaultLimits, binaryAscending]

/-- The tuple at the third of six bytes; the search key of the six bytes is not cut to a tuple. -/
theorem tupleIndex_search_differs :
    recIRetrieveKey tupleIndex ⟨[], [⟨true, 1, .intrinsicLV, some [1, 2, 3, 4, 5, 6]⟩], 2⟩ 1 =
        some (.ok (.success, [0x7f, 3, 4, 5, 6, 0, 0, 0, 0, 4])) ∧
      makeKey tupleIndex (keyGrbit 0 binaryAscending (some [1, 2, 3, 4, 5, 6])) [1, 2, 3, 4, 5, 6]
          SearchKey.reset =
        .ok ⟨[0x7f, 1, 2, 3, 4, 5, 6, 0, 0, 6], 1, true, false, false⟩ := by
  decide

end EseLinux.KeyBuild
