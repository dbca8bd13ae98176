import EseLinux.LogDiff

/-!
`ErrLGGetAfterImage` on arbitrary bytes.  A difference is read before it is known to lie inside the
log record, so that bytes behind the record come into play; they have no influence on the outcome.
-/

namespace EseLinux.LogDiff

open EditScript

section Append

variable {diff : List UInt8} (beyond : List UInt8) {fDiff2 : Bool}

theorem byteAt_append_left {ib : Nat} (h : ib < diff.length) :
    byteAt (diff ++ beyond) ib = byteAt diff ib := by
  rw [byteAt, byteAt, List.getD_append _ _ _ _ h]

theorem lengthAt_append_left {fTwoBytes : Bool} {ib : Nat}
    (h : ib + cbLength fTwoBytes ≤ diff.length) :
    lengthAt fTwoBytes (diff ++ beyond) ib = lengthAt fTwoBytes diff ib := by
  cases fTwoBytes
  · exact byteAt_append_left beyond h
  · simp only [cbLength, if_true] at h
    simp only [lengthAt, if_true, wordAt]
    rw [byteAt_append_left beyond (by omega), byteAt_append_left beyond (by omega)]

theorem readHeader_append_left (h : cbDiffHdr fDiff2 ≤ diff.length) :
    readHeader fDiff2 (diff ++ beyond) = readHeader fDiff2 diff := by
  cases fDiff2
  · simp only [cbDiffHdr, Bool.false_eq_true, if_false] at h
    simp only [readHeader, Bool.false_eq_true, if_false, wordAt]
    rw [byteAt_append_left beyond (by omega), byteAt_append_left beyond (by omega)]
  · simp only [cbDiffHdr, if_true] at h
    simp only [readHeader, if_true, wordAt]
    rw [byteAt_append_left beyond (by omega), byteAt_append_left beyond (by omega),
      byteAt_append_left beyond (by omega)]

end Append

theorem cbLength_le_readDiff (fDiff2 : Bool) (diff : List UInt8) :
    cbDiffHdr fDiff2 + cbLength (readHeader fDiff2 diff).fUseTwoBytesForDataLength ≤
      (readDiff fDiff2 diff).2 := by
  simp only [readDiff]
  split
  · omega
  · split
    · omega
    · omega

variable {diff : List UInt8}

theorem readDiff_append {fDiff2 : Bool} {beyond : List UInt8}
    (h : (readDiff fDiff2 diff).2 ≤ diff.length ∨
      (readDiff fDiff2 (diff ++ beyond)).2 ≤ diff.length) :
    readDiff fDiff2 (diff ++ beyond) = readDiff fDiff2 diff := by
  have hsize := cbLength_le_readDiff fDiff2 diff
  have hsize' := cbLength_le_readDiff fDiff2 (diff ++ beyond)
  have hheader : readHeader fDiff2 (diff ++ beyond) = readHeader fDiff2 diff :=
    readHeader_append_left beyond (by omega)
  rw [hheader] at hsize'
  have hlength : lengthAt (readHeader fDiff2 diff).fUseTwoBytesForDataLength (diff ++ beyond)
      (cbDiffHdr fDiff2) =
      lengthAt (readHeader fDiff2 diff).fUseTwoBytesForDataLength diff (cbDiffHdr fDiff2) :=
    lengthAt_append_left beyond (by omega)
  simp only [readDiff, hheader, hlength] at h ⊢
  split at h
  case isTrue hinsert =>
    rw [if_pos hinsert, if_pos hinsert, part_append_left (by omega)]
  case isFalse hinsert =>
    rw [if_neg hinsert, if_neg hinsert]
    split at h
    case isTrue hsame =>
      rw [if_pos hsame, if_pos hsame, part_append_left (by omega)]
    case isFalse hsame =>
      rw [if_neg hsame, if_neg hsame, lengthAt_append_left beyond (by omega),
        part_append_left (by omega)]

/-- The log record is a sequence of differences, each with its header and data inside it. -/
inductive Parsed (fDiff2 : Bool) : List UInt8 → List (Edit UInt8) → Prop
  | nil : Parsed fDiff2 [] []
  | cons {diff : List UInt8} {edits : List (Edit UInt8)} (hne : diff ≠ [])
      (hin : (readDiff fDiff2 diff).2 ≤ diff.length)
      (hrest : Parsed fDiff2 (diff.drop (readDiff fDiff2 diff).2) edits) :
      Parsed fDiff2 diff ((readDiff fDiff2 diff).1 :: edits)

section Loop

variable {fDiff2 : Bool} {cbPage : Nat} {old beyond : List UInt8}

theorem parsed_of_afterImageLoop {st st' : Patch UInt8}
    (h : afterImageLoop fDiff2 cbPage old beyond diff st = some st') :
    ∃ edits, Parsed fDiff2 diff edits ∧ InOrder old.length st.pos edits ∧
      st' = edits.foldl (Patch.step old) st := by
  induction hn : diff.length using Nat.strong_induction_on generalizing diff st with
  | _ n ih =>
    rw [afterImageLoop] at h
    split at h
    case isTrue hempty =>
      cases h
      exact ⟨[], hempty ▸ .nil, trivial, rfl⟩
    case isFalse hne =>
      simp only [Option.ite_none_left_eq_some, not_lt] at h
      obtain ⟨hpos, -, -, hin, hend, hloop⟩ := h
      have hread : readDiff fDiff2 (diff ++ beyond) = readDiff fDiff2 diff :=
        readDiff_append (.inr hin)
      rw [hread] at hpos hin hend hloop
      have hstep := readDiff_pos fDiff2 diff
      obtain ⟨edits, hparsed, horder, heq⟩ := ih _ (by rw [List.length_drop]; omega) hloop rfl
      exact ⟨_, .cons hne hin hparsed, ⟨hpos, hend, horder⟩, heq⟩

theorem afterImageLoop_of_parsed {edits : List (Edit UInt8)}
    (hparsed : Parsed fDiff2 diff edits) {st : Patch UInt8}
    (horder : InOrder old.length st.pos edits)
    (hpage : (st.out ++ substitute old st.pos edits).length ≤ cbPage) :
    afterImageLoop fDiff2 cbPage old beyond diff st = some (edits.foldl (Patch.step old) st) := by
  induction hparsed generalizing st with
  | nil => rw [afterImageLoop, if_pos rfl, List.foldl_nil]
  | @cons diff edits hne hin hrest ih =>
    obtain ⟨hpos, hend, horder⟩ := horder
    have hread : readDiff fDiff2 (diff ++ beyond) = readDiff fDiff2 diff :=
      readDiff_append (.inl hin)
    have hskip : (part old st.pos ((readDiff fDiff2 diff).1.ib - st.pos)).length =
        (readDiff fDiff2 diff).1.ib - st.pos := part_length (by omega)
    have hlen := hpage
    simp only [substitute, List.length_append, hskip] at hlen
    rw [afterImageLoop, if_neg hne, hread]
    rw [if_neg (by omega), if_neg (by omega), if_neg (by omega), if_neg (by omega),
      if_neg (by omega), List.foldl_cons]
    apply ih horder
    simpa only [Patch.step, substitute, List.append_assoc] using hpage

end Loop

theorem errLGGetAfterImageIn_eq_some_iff (fDiff2 : Bool) (cbPage : Nat)
    (beyond diff old new : List UInt8) :
    errLGGetAfterImageIn fDiff2 cbPage beyond diff old = some new ↔
      ∃ edits, Parsed fDiff2 diff edits ∧ InOrder old.length 0 edits ∧
        new = substitute old 0 edits ∧ new.length ≤ cbPage := by
  constructor
  · intro h
    rw [errLGGetAfterImageIn] at h
    split at h
    · cases h
    · rename_i st hloop
      rw [Option.ite_none_left_eq_some, Option.some.injEq] at h
      obtain ⟨hpage, rfl⟩ := h
      obtain ⟨edits, hparsed, horder, rfl⟩ := parsed_of_afterImageLoop hloop
      exact ⟨edits, hparsed, horder, Patch.finish_foldl old edits .start, not_lt.mp hpage⟩
  · rintro ⟨edits, hparsed, horder, rfl, hpage⟩
    have hloop : afterImageLoop fDiff2 cbPage old beyond diff .start =
        some (edits.foldl (Patch.step old) .start) :=
      afterImageLoop_of_parsed hparsed horder hpage
    have hfinish := Patch.finish_foldl old edits .start
    rw [errLGGetAfterImageIn, hloop]
    simp only
    rw [hfinish]
    exact if_neg (not_lt.mpr hpage)

/-- `ErrLGGetAfterImage` returns an image exactly if the log record is a sequence of differences
that lie inside it, whose ranges lie inside the old image one behind the other, and the old image
with these ranges replaced is not longer than a page.  It returns that image; for every other log
record the outcome is `JET_errLogFileCorrupt`. -/
theorem errLGGetAfterImageIn_spec (fDiff2 : Bool) (cbPage : Nat) (beyond diff old : List UInt8) :
    (∀ new, errLGGetAfterImageIn fDiff2 cbPage beyond diff old = some new ↔
      ∃ edits, Parsed fDiff2 diff edits ∧ InOrder old.length 0 edits ∧
        new = substitute old 0 edits ∧ new.length ≤ cbPage) ∧
    (errLGGetAfterImageIn fDiff2 cbPage beyond diff old = none ↔
      ¬ ∃ edits, Parsed fDiff2 diff edits ∧ InOrder old.length 0 edits ∧
        (substitute old 0 edits).length ≤ cbPage) := by
  refine ⟨errLGGetAfterImageIn_eq_some_iff fDiff2 cbPage beyond diff old, ?_⟩
  rw [Option.eq_none_iff_forall_ne_some]
  constructor
  · rintro h ⟨edits, hparsed, horder, hpage⟩
    apply h (substitute old 0 edits)
    rw [errLGGetAfterImageIn_eq_some_iff]
    exact ⟨edits, hparsed, horder, rfl, hpage⟩
  · intro h new hnew
    rw [errLGGetAfterImageIn_eq_some_iff] at hnew
    obtain ⟨edits, hparsed, horder, rfl, hpage⟩ := hnew
    exact h ⟨edits, hparsed, horder, hpage⟩

end EseLinux.LogDiff
