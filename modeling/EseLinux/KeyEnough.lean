import EseLinux.KeyCut

/-!
The key of a record is retrieved from at most as many bytes of each column as the key can hold.
For a column that is not text this is enough, so there is never a second attempt.
-/

namespace EseLinux.KeyBuild

open KeySegment

theorem normalizeFixedSegment_length {coltyp : Coltyp} {cb : Nat} (hsize : coltyp.size = some cb)
    (fDotNetGuid : Bool) (pbField : List UInt8) :
    (normalizeFixedSegment coltyp fDotNetGuid pbField).length = cb + 1 := by
  cases coltyp <;> cases hsize <;> first
    | rfl
    | (rw [normalizeFixedSegment, List.length_cons, bigEndian_length])
    | (rcases fDotNetGuid with _ | _ <;> rfl)

theorem size_of_binary {coltyp : Coltyp} (h : fRECBinaryColumn coltyp = true) :
    coltyp.size = none := by
  cases coltyp <;> first | rfl | cases h

def Sized (seg : IdxSeg) (v : Option (List UInt8)) : Prop :=
  ∀ pb ∈ v, ∀ cb ∈ seg.coltyp.size, pb = [] ∨ pb.length = cb

variable {idb : Idb} {seg : IdxSeg}

theorem segment_limited {cbKeyAvail : Nat} (havail : 0 < cbKeyAvail)
    (hmost : cbKeyAvail ≤ idb.cbKeyMost) {pb : List UInt8}
    (hsized : Sized seg (some pb)) (hlong : idb.cbKeyMost ≤ pb.length) :
    ¬ ((normalizeColumn idb.toLimits cbKeyAvail seg (some pb)).bytes.length < idb.cbKeyMost ∧
      (normalizeColumn idb.toLimits cbKeyAvail seg (some pb)).bytes.length < cbKeyAvail ∧
      (normalizeColumn idb.toLimits cbKeyAvail seg (some pb)).bytes.length < idb.cbVarSegMac) := by
  rintro ⟨hkey, hspace, hvar⟩
  rcases pb with _ | ⟨b, pb⟩
  · rw [List.length_nil] at hlong
    omega
  · rw [normalizeColumn] at hkey hspace hvar
    rcases hbinary : fRECBinaryColumn seg.coltyp with _ | _
    · obtain ⟨cb, hsize⟩ := size_of_not_binary hbinary
      have hlen := (hsized (b :: pb) rfl cb hsize).resolve_left (List.cons_ne_nil b pb)
      rw [hbinary, if_neg Bool.false_ne_true, normalizeFixedSegment_length hsize] at hkey
      omega
    · rw [if_pos hbinary, normalizeBinarySegment_length havail, cbSegWithin] at hspace hvar
      have hgt : cbKeyAvail < (if seg.fFixedField then (b :: pb).length + 1
          else cbChunked (b :: pb).length) := by
        have hchunked := cbChunked_gt (b :: pb).length
        split <;> omega
      generalize (if seg.fFixedField then (b :: pb).length + 1
        else cbChunked (b :: pb).length) = cb at hgt hspace hvar
      rcases eq_or_ne idb.cbKeyMost idb.cbVarSegMac with hunset | hset
      · rw [Limits.cbVarSegMacT, if_pos hunset] at hspace
        split at hspace <;> omega
      · have hle := idb.hcbVarSegMac_le
        rw [Limits.cbVarSegMacT, if_neg hset] at hspace hvar
        rcases lt_or_ge idb.cbVarSegMac cb with hover | hunder
        · rw [if_pos ⟨by omega, hover⟩] at hspace hvar
          omega
        · rw [if_neg (by omega)] at hspace
          omega

theorem appendSegment_enough {v : Option (List UInt8)}
    {st st' : KeyState} (h : appendSegment idb idb.cbKeyMost seg v st = .ok st')
    (hlt : st.key.length < idb.cbKeyMost) (hsized : Sized seg v)
    (hst : st.fNeedMoreData = false) : st'.fNeedMoreData = false := by
  have hmore : (min (v.getD []).length idb.cbKeyMost == idb.cbKeyMost &&
      decide ((normalizeColumn idb.toLimits (idb.cbKeyAvail st) seg v).bytes.length <
        idb.cbKeyMost) &&
      decide ((normalizeColumn idb.toLimits (idb.cbKeyAvail st) seg v).bytes.length <
        idb.cbKeyAvail st) &&
      decide ((normalizeColumn idb.toLimits (idb.cbKeyAvail st) seg v).bytes.length <
        idb.cbVarSegMac) && idb.cbKeyMost != cbKeyMostOld) = false := by
    rw [Bool.eq_false_iff]
    intro hmore
    simp only [Bool.and_eq_true, beq_iff_eq, decide_eq_true_eq] at hmore
    obtain ⟨⟨⟨⟨hdata, hkey⟩, hspace⟩, hvar⟩, -⟩ := hmore
    rcases v with _ | pb
    · rw [Option.getD_none, List.length_nil] at hdata
      omega
    · rw [Option.getD_some] at hdata
      exact segment_limited (Nat.sub_pos_of_lt hlt) (Nat.sub_le _ _) hsized (by omega)
        ⟨hkey, hspace, hvar⟩
  simp only [appendSegment, hmore, hst, Bool.or_false] at h
  split at h
  · cases h
    rfl
  · split at h
    · cases h
    · cases h
      rfl

variable {ichOffset : Nat}

theorem sized_dataField {cbDataMost iidxseg : Nat} {source : Source} {pb : List UInt8}
    (hfirst : iidxseg = 0 → idb.rgidxseg.head? = some seg) (hsized : Sized seg (some pb)) :
    Sized seg (some (dataField idb cbDataMost ichOffset (idb.fTuples && iidxseg == 0) seg source
      pb)) := by
  rcases hbinary : fRECBinaryColumn seg.coltyp with _ | _
  · -- the first column of a tuple index is binary
    have htuple : (idb.fTuples && iidxseg == 0) = false := by
      rw [Bool.eq_false_iff]
      intro htuple
      rw [Bool.and_eq_true, beq_iff_eq] at htuple
      have hhead := (idb.htuples htuple.1).2.2 seg (hfirst htuple.2)
      rw [hbinary] at hhead
      cases hhead
    simp only [dataField, htuple, trim, hbinary, Bool.false_eq_true, if_false]
    exact hsized
  · intro pb' _ cb hcb
    rw [size_of_binary hbinary] at hcb
    cases hcb

theorem retrieveSegment_enough {iidxseg : Nat} {col : Column}
    {st st' : KeyState} (hfirst : iidxseg = 0 → idb.rgidxseg.head? = some seg)
    (hsized : Sized seg col.value) (hst : st.fNeedMoreData = false)
    (h : retrieveSegment idb idb.cbKeyMost ichOffset iidxseg seg col st = .ok st') :
    st'.fNeedMoreData = false := by
  rw [retrieveSegment] at h
  generalize hst₁ : (if col.fTagged then
      { st with fAllMVOutOfValues := st.fAllMVOutOfValues &&
        (col.itag > 1 && (col.value.isNone && col.source != .userDefinedDefault)) }
    else st) = st₁ at h
  have hneed : st₁.fNeedMoreData = false := by
    rw [← hst₁]
    split <;> exact hst
  split at h
  · split at h
    · cases h
    · split at h
      · cases h
      · cases h
        split <;> exact hneed
  · rename_i hpos
    have hlt : st₁.key.length < idb.cbKeyMost := by
      rw [Idb.cbKeyAvail] at hpos
      omega
    split at h
    · cases h
    · rcases hvalue : col.value with _ | pb <;> simp only [hvalue] at h
      · split at h
        · cases h
        · refine appendSegment_enough h hlt ?_ hneed
          intro pb hpb
          cases hpb
      · split at h
        · cases h
        · exact appendSegment_enough h hlt (sized_dataField hfirst (hvalue ▸ hsized)) hneed

theorem bind_eq_ok {ε α β : Type*} {x : Except ε α} {f : α → Except ε β} {b : β}
    (h : x.bind f = .ok b) : ∃ a, x = .ok a ∧ f a = .ok b := by
  cases x with
  | error => cases h
  | ok a => exact ⟨a, rfl, h⟩

theorem retrieveSegments_enough {cols : List (IdxSeg × Column)} :
    ∀ {iidxseg : Nat} {st st' : KeyState}, (∀ i seg col, cols[i]? = some (seg, col) →
        idb.rgidxseg[iidxseg + i]? = some seg ∧ Sized seg col.value) →
      st.fNeedMoreData = false →
      retrieveSegments idb idb.cbKeyMost ichOffset iidxseg cols st = .ok st' →
      st'.fNeedMoreData = false := by
  induction cols with
  | nil =>
    intro iidxseg st st' _ hst h
    cases h
    exact hst
  | cons c cols ih =>
    intro iidxseg st st' hcols hst h
    obtain ⟨seg, col⟩ := c
    obtain ⟨st₁, hst₁, h⟩ := bind_eq_ok h
    obtain ⟨hseg, hsized⟩ := hcols 0 seg col rfl
    have hfirst : iidxseg = 0 → idb.rgidxseg.head? = some seg := by
      rintro rfl
      rw [List.head?_eq_getElem?]
      exact hseg
    refine ih (fun i seg col hi => ?_) (retrieveSegment_enough hfirst hsized hst hst₁) h
    have hnext := hcols (i + 1) seg col hi
    rwa [← add_assoc, add_right_comm] at hnext

end EseLinux.KeyBuild
