import EseLinux.RecordDiff

/-!
How far the buffer for the differences is written.  Every difference but those of the `TAGFLD` array
has to fit into the size of the new record; these have to fit into the size of the new array,
wherever they are written.
-/

namespace EseLinux.RecordDiff

open ByteMemory EditScript LogDiff OffsetTable RecordFormat List
open EseLinux.TaggedColumns hiding Rec

variable {buf : Buf}

section Append

variable {fDiff2 : Bool} {cbMax : Nat}

def cbEdit (fDiff2 : Bool) (e : Edit UInt8) : Nat := (diffBytes fDiff2 e.ib e.cbOld e.data).length

def cbEdits (fDiff2 : Bool) (edits : List (Edit UInt8)) : Nat := (edits.map (cbEdit fDiff2)).sum

theorem cbEdits_cons (e : Edit UInt8) (edits : List (Edit UInt8)) :
    cbEdits fDiff2 (e :: edits) = cbEdit fDiff2 e + cbEdits fDiff2 edits := by
  rw [cbEdits, map_cons, sum_cons, cbEdits]

theorem cbEdits_append (edits edits' : List (Edit UInt8)) :
    cbEdits fDiff2 (edits ++ edits') = cbEdits fDiff2 edits + cbEdits fDiff2 edits' := by
  rw [cbEdits, map_append, sum_append, cbEdits, cbEdits]

theorem cbEdit_eq (fDiff2 : Bool) (e : Edit UInt8) :
    cbEdit fDiff2 e =
      cbDiffHdr fDiff2 +
      cbLength (DiffHdr.fTwoBytes (DiffHdr.bitField e.ib e.cbOld e.data.length)) *
        (if DiffHdr.fReplaceWithDiffLength (DiffHdr.bitField e.ib e.cbOld e.data.length) then 2
          else 1) + e.data.length := by
  simp only [cbEdit, diffBytes, length_append, headerBytes_length, lengthBytes_length]
  split
  · rw [lengthBytes_length]
    omega
  · rw [length_nil]
    omega

theorem flgAppendDiff_eq_ite (diff : List UInt8) (e : Edit UInt8) :
    flgAppendDiff fDiff2 diff cbMax e.ib e.cbOld e.data =
      if cbMax < diff.length + cbEdit fDiff2 e then none
      else some (diff ++ diffBytes fDiff2 e.ib e.cbOld e.data) := by
  have hcb := cbEdit_eq fDiff2 e
  simp only [flgAppendDiff]
  rw [hcb, add_assoc, add_assoc, ← add_assoc (cbDiffHdr fDiff2)]

theorem flgAppendDiff_le {diff diff' data : List UInt8} {ib cbOld : Nat}
    (h : flgAppendDiff fDiff2 diff cbMax ib cbOld data = some diff') : diff'.length ≤ cbMax := by
  rw [flgAppendDiff_eq_ite diff ⟨ib, cbOld, data⟩, Option.ite_none_left_eq_some,
    Option.some.injEq] at h
  obtain ⟨hfit, rfl⟩ := h
  rw [length_append]
  exact not_lt.mp hfit

theorem append_of_lt {e : Edit UInt8} (h : cbMax < buf.diff.length + cbEdit fDiff2 e) :
    append fDiff2 cbMax buf e = .error buf.cbTouched := by
  rw [append, flgAppendDiff_eq_ite, if_pos h]

theorem append_of_le {e : Edit UInt8} (h : buf.diff.length + cbEdit fDiff2 e ≤ cbMax) :
    ∃ buf', append fDiff2 cbMax buf e = .ok buf' ∧
      buf'.diff.length = buf.diff.length + cbEdit fDiff2 e ∧
      buf'.cbTouched = max buf.cbTouched (buf.diff.length + cbEdit fDiff2 e) := by
  rw [append, flgAppendDiff_eq_ite, if_neg (not_lt.mpr h)]
  exact ⟨_, rfl, length_append, congrArg (max buf.cbTouched) length_append⟩

def touched : Except Nat Buf → Nat
  | .error cbTouched => cbTouched
  | .ok buf => buf.cbTouched

theorem appendAll_cons (buf : Buf) (e : Edit UInt8) (edits : List (Edit UInt8)) :
    appendAll fDiff2 cbMax buf (e :: edits) =
      (append fDiff2 cbMax buf e).bind fun buf' => appendAll fDiff2 cbMax buf' edits :=
  foldlM_cons

theorem touched_bind_le {result : Except Nat Buf} {next : Buf → Except Nat Buf} {cb : Nat}
    (h : touched result ≤ cb)
    (hnext : ∀ buf, result = .ok buf → buf.cbTouched ≤ cb → touched (next buf) ≤ cb) :
    touched (result.bind next) ≤ cb := by
  cases result with
  | error cbTouched => exact h
  | ok buf => exact hnext buf rfl h

theorem touched_append_le (fDiff2 : Bool) (e : Edit UInt8) {cb : Nat} (hbuf : buf.cbTouched ≤ cb)
    (hmax : cbMax ≤ cb) : touched (append fDiff2 cbMax buf e) ≤ cb := by
  by_cases hfit : cbMax < buf.diff.length + cbEdit fDiff2 e
  · rw [append_of_lt hfit]
    exact hbuf
  · obtain ⟨buf', hok, -, htouched⟩ := append_of_le (not_lt.mp hfit)
    rw [hok]
    change buf'.cbTouched ≤ cb
    omega

theorem touched_appendAll_le (fDiff2 : Bool) (edits : List (Edit UInt8)) {cb : Nat}
    (hbuf : buf.cbTouched ≤ cb) (hmax : cbMax ≤ cb) :
    touched (appendAll fDiff2 cbMax buf edits) ≤ cb := by
  induction edits generalizing buf with
  | nil => exact hbuf
  | cons e edits ih =>
    rw [appendAll_cons]
    exact touched_bind_le (touched_append_le fDiff2 e hbuf hmax) fun _ _ hnext => ih hnext

theorem appendAll_length {edits : List (Edit UInt8)} {buf' : Buf}
    (h : appendAll fDiff2 cbMax buf edits = .ok buf') :
    buf'.diff.length = buf.diff.length + cbEdits fDiff2 edits := by
  induction edits generalizing buf with
  | nil =>
    cases h
    rfl
  | cons e edits ih =>
    rw [appendAll_cons] at h
    by_cases hfit : cbMax < buf.diff.length + cbEdit fDiff2 e
    · rw [append_of_lt hfit] at h
      cases h
    · obtain ⟨buf₁, hok, hlen, -⟩ := append_of_le (not_lt.mp hfit)
      rw [hok] at h
      rw [ih h, hlen, cbEdits_cons, add_assoc]

theorem touched_flgSetArrayDiff_le (a : Arrays) (hbuf : buf.cbTouched ≤ cbMax)
    (hroom : buf.diff.length + a.cbNew ≤ cbMax) :
    touched (flgSetArrayDiff a fDiff2 cbMax buf) ≤ cbMax := by
  have harray := touched_appendAll_le fDiff2 a.diffs hbuf hroom
  rw [flgSetArrayDiff]
  cases happend : appendAll fDiff2 (buf.diff.length + a.cbNew) buf a.diffs with
  | ok buf' => rwa [happend] at harray
  | error cbTouched =>
    rw [happend] at harray
    exact touched_append_le _ _ (Nat.max_le.mpr ⟨harray, buf.le_touched.trans hbuf⟩) le_rfl

end Append

/-- The buffer is written no further than `cb`, and an overflow leaves no differences. -/
structure Bounded (cb : Nat) (o : Outcome) : Prop where
  touched_le : o.cbTouched ≤ cb
  diff_le : o.diff.length ≤ cb
  overflow : o.fOverflow = true → o.diff = []

/-- The most a difference of `cb` bytes takes, if there is one. -/
def cbDiffMost (fDiff : Bool) (cb : Nat) : Nat := if fDiff then cb + 7 else 0

/-- The most that is logged of the header, the fixed and the variable columns. -/
def cbColumnsMost (fucb : Fucb) (u : Update) : Nat :=
  cbDiffMost (slice u.old.buf 0 Rec.cbRecordHeader != slice u.new.buf 0 Rec.cbRecordHeader)
      Rec.cbRecordHeader +
    ((fidsFixed u.old).map fun fid =>
      cbDiffMost (fucb.fColumnSet fid) (u.tdb.pfieldFixed fid).cbMaxLen).sum +
    cbDiffMost (decide (u.old.fidFixedLastInRec < u.new.fidFixedLastInRec))
      (u.new.ibFixedNullBitMap - u.old.ibFixedNullBitMap) +
    cbDiffMost ((fidsFixed u.old).any fucb.fColumnSet ||
      decide (u.old.fidFixedLastInRec < u.new.fidFixedLastInRec))
      ((u.new.fidFixedLastInRec + 7) / 8) +
    cbDiffMost (decide (0 < u.new.cVarColumns)) (u.new.cVarColumns * Rec.cbVarOffset) +
    ((fidsVar u.old).map fun fid => cbDiffMost (fucb.fColumnSet fid)
      (u.new.ibVarOffsetEnd fid - u.new.ibVarOffsetStart fid)).sum +
    cbDiffMost (decide (u.old.fidVarLastInRec < u.new.fidVarLastInRec)) u.new.ibEndOfVarData

/-- Where the tagged columns are logged one by one, the new `TAGFLD` array fits behind the most that
is logged of the other columns. -/
def Room (fucb : Fucb) (u : Update) : Prop :=
  fucb.fTagImplicitOp = false → fucb.fTaggedColumnSet = true →
    cbColumnsMost fucb u + (u.new.tagFields u.fSmallPage).cTaggedColumns * cbTagfld ≤ u.new.cb

section Most

variable (fDiff2 : Bool)

theorem cbEdits_singleton_le {e : Edit UInt8} {fDiff : Bool} {cb : Nat} (hdiff : fDiff = true)
    (hcb : e.data.length ≤ cb) : cbEdits fDiff2 [e] ≤ cbDiffMost fDiff cb := by
  have hhdr : cbDiffHdr fDiff2 ≤ 3 := by cases fDiff2 <;> decide
  have hlength (f : Bool) : cbLength f ≤ 2 := by cases f <;> decide
  have hlength' := hlength (DiffHdr.fTwoBytes (DiffHdr.bitField e.ib e.cbOld e.data.length))
  rw [cbEdits, map_singleton, sum_singleton, cbEdit_eq, cbDiffMost, if_pos hdiff]
  split <;> omega

theorem cbEdits_ite_le {c : Prop} [Decidable c] {e : Edit UInt8} {fDiff : Bool} {cb : Nat}
    (hdiff : c → fDiff = true) (hcb : c → e.data.length ≤ cb) :
    cbEdits fDiff2 (if c then [e] else []) ≤ cbDiffMost fDiff cb := by
  split
  case isTrue hc => exact cbEdits_singleton_le fDiff2 (hdiff hc) (hcb hc)
  case isFalse => exact Nat.zero_le _

theorem cbEdits_filterMap_le {g : Nat → Option (Edit UInt8)} {fDiff : Nat → Bool} {cb : Nat → Nat}
    (h : ∀ fid e, g fid = some e → fDiff fid = true ∧ e.data.length ≤ cb fid) (fids : List Nat) :
    cbEdits fDiff2 (fids.filterMap g) ≤
      (fids.map fun fid => cbDiffMost (fDiff fid) (cb fid)).sum := by
  induction fids with
  | nil => exact Nat.le_refl 0
  | cons fid fids ih =>
    rw [map_cons, sum_cons]
    cases hg : g fid with
    | none =>
      rw [filterMap_cons_none hg]
      omega
    | some e =>
      obtain ⟨hdiff, hcb⟩ := h fid e hg
      have hone : cbEdits fDiff2 [e] ≤ _ := cbEdits_singleton_le fDiff2 hdiff hcb
      rw [filterMap_cons_some hg, ← singleton_append, cbEdits_append]
      omega

theorem fidVarFirstDiff_ge (u : Update) : fidVarLeast ≤ fidVarFirstDiff u.old u.new := by
  rw [fidVarFirstDiff]
  cases hfind : (fidsVar u.old).find? _ with
  | none => exact Nat.succ_le_succ u.old_valid.fidVar_ge
  | some fid => exact (mem_range'_1.mp (mem_of_find?_eq_some hfind)).1

theorem cbEdits_columnDiffs_le (fucb : Fucb) (u : Update) :
    cbEdits fDiff2 (columnDiffs fucb u.tdb u.old u.new) ≤ cbColumnsMost fucb u := by
  simp only [columnDiffs, cbEdits_append, cbColumnsMost]
  refine Nat.add_le_add (Nat.add_le_add (Nat.add_le_add (Nat.add_le_add (Nat.add_le_add
    (Nat.add_le_add ?_ ?_) ?_) ?_) ?_) ?_) ?_
  · rw [headerDiffs, ← ite_not]
    exact cbEdits_ite_le fDiff2 bne_iff_ne.mpr fun _ => (slice_length _ _ _).le
  · refine cbEdits_filterMap_le fDiff2 (fun fid e h => ?_) _
    simp only [fixedDiff, Option.ite_none_right_eq_some, Bool.and_eq_true, Option.some.injEq] at h
    obtain ⟨⟨⟨hset, -⟩, -⟩, rfl⟩ := h
    exact ⟨hset, (slice_length _ _ _).le⟩
  · exact cbEdits_ite_le fDiff2 decide_eq_true fun _ => (slice_length _ _ _).le
  · refine cbEdits_ite_le fDiff2 (fun hlog => ?_) fun _ => (slice_length _ _ _).le
    rw [fLogFixedNullBitMap, Bool.or_eq_true, any_eq_true] at hlog
    rw [Bool.or_eq_true, any_eq_true]
    refine hlog.imp_left ?_
    rintro ⟨fid, hfid, hchanged⟩
    exact ⟨fid, hfid, (Bool.and_eq_true_iff.mp hchanged).1⟩
  · have hge := fidVarFirstDiff_ge u
    rw [varOffsDiffs]
    refine cbEdits_ite_le fDiff2 (fun hfid => decide_eq_true ?_) fun hfid => ?_
    · rw [Rec.cVarColumns]
      omega
    · rw [slice_length, Rec.cVarColumns]
      exact Nat.mul_le_mul_right _ (by omega)
  · refine cbEdits_filterMap_le fDiff2 (fun fid e h => ?_) _
    simp only [varDiff, Option.ite_none_right_eq_some, Option.some.injEq] at h
    obtain ⟨hset, rfl⟩ := h
    exact ⟨hset, (slice_length _ _ _).le⟩
  · exact cbEdits_ite_le fDiff2 decide_eq_true fun _ => by
      rw [slice_length]
      exact Nat.sub_le _ _

end Most

section Whole

variable (fucb : Fucb) (u : Update)

def columnResult : Except Nat Buf :=
  (appendAll (!u.fSmallPage) u.new.cb .start (columnDiffs fucb u.tdb u.old u.new)).bind
    (taggedDiffs u.fSmallPage fucb u.old u.new (!u.fSmallPage) u.new.cb)

theorem lgSetColumnDiffs_eq :
    lgSetColumnDiffs fucb u = match columnResult fucb u with
      | .error cbTouched => ⟨true, [], cbTouched⟩
      | .ok buf => ⟨false, buf.diff, buf.cbTouched⟩ := rfl

theorem bounded_of_touched (h : touched (columnResult fucb u) ≤ u.new.cb) :
    Bounded u.new.cb (lgSetColumnDiffs fucb u) := by
  rw [lgSetColumnDiffs_eq]
  cases hresult : columnResult fucb u with
  | error cbTouched =>
    rw [hresult] at h
    exact ⟨h, Nat.zero_le _, fun _ => rfl⟩
  | ok buf =>
    rw [hresult] at h
    exact ⟨h, buf.le_touched.trans h, fun hover => by cases hover⟩

theorem touched_columnResult (h : Room fucb u) : touched (columnResult fucb u) ≤ u.new.cb := by
  refine touched_bind_le (touched_appendAll_le _ _ (Nat.zero_le _) le_rfl)
    fun buf hbuf hcolumns => ?_
  rw [taggedDiffs]
  split
  case isTrue himplicit => exact touched_append_le _ _ hcolumns le_rfl
  case isFalse himplicit =>
    split
    case isTrue htagged =>
      have hlen : buf.diff.length = 0 + _ := appendAll_length hbuf
      have hmost := cbEdits_columnDiffs_le (!u.fSmallPage) fucb u
      have hroom := h (Bool.eq_false_of_not_eq_true himplicit) htagged
      have harray : buf.diff.length + (tagArrays u.fSmallPage u.old u.new).cbNew ≤ u.new.cb := by
        rw [hlen, tagArrays]
        dsimp only
        omega
      exact touched_bind_le (touched_flgSetArrayDiff_le _ hcolumns harray)
        fun _ _ hnext => touched_appendAll_le _ _ hnext le_rfl
    case isFalse htagged => exact hcolumns

end Whole

section Chunks

variable {old new diff : List UInt8} {fDiff2 : Bool}

theorem lvDiffLoop_le (rounds : Nat) {ib : Nat} {fEnd : Bool} (h : diff.length ≤ new.length)
    {out : List UInt8 × Nat × Bool}
    (hloop : lvDiffLoop old new fDiff2 rounds ib diff fEnd = some out) :
    out.1.length ≤ new.length := by
  induction rounds generalizing ib diff fEnd with
  | zero =>
    obtain rfl := Option.some.inj hloop
    exact h
  | succ rounds ih =>
    rw [lvDiffLoop] at hloop
    split at hloop
    · split at hloop
      · exact ih h hloop
      · dsimp only at hloop
        split at hloop
        · cases hloop
        case h_2 happend => exact ih (flgAppendDiff_le happend) hloop
    · obtain rfl := Option.some.inj hloop
      exact h

theorem lgSetLVDiffs_le (h : lgSetLVDiffs old new fDiff2 = some diff) :
    diff.length ≤ new.length := by
  simp only [lgSetLVDiffs] at h
  split at h
  · cases h
  case h_2 hloop =>
    have hle := lvDiffLoop_le _ (Nat.zero_le _) hloop
    split at h
    · split at h
      · obtain rfl := Option.some.inj h
        exact Nat.zero_le _
      · exact flgAppendDiff_le h
    · obtain rfl := Option.some.inj h
      exact hle

end Chunks

def byteColumns : Tdb where
  pfieldFixed fid := ⟨3 + fid, 1, false⟩

def memoryOf (bytes : List UInt8) : Memory := fun i => bytes.getD i 0

/-- Six columns of a byte, and two tagged columns: five bytes, and one without data that is null or
not. -/
def byteRecord (fNull : Bool) : Rec where
  buf := memoryOf [6, 127, 11, 0, 1, 2, 3, 4, 5, 6, 0, 0, 1, 8, 0, 1, 1, 13,
    if fNull then 32 else 0, 9, 9, 9, 9, 9]
  cb := 24

theorem byteRecord_valid (fNull : Bool) : Valid true byteColumns (byteRecord fNull) where
  cb_lt := by cases fNull <;> decide
  fidFixed_le := by cases fNull <;> decide
  fidVar_ge := by cases fNull <;> decide
  bitMap := by cases fNull <;> decide
  fixed := by
    have hmap : (byteRecord fNull).ibFixedNullBitMap = 10 := by cases fNull <;> decide
    intro fid hge (hle : fid ≤ 6)
    rw [hmap]
    rw [fidFixedLeast] at hge
    change 4 ≤ 3 + fid ∧ 3 + fid + 1 ≤ 10
    omega
  var := by
    intro fid (hge : 128 ≤ fid) (hle : fid ≤ 127)
    omega
  tagged_le := by cases fNull <;> decide
  tagged := by
    refine ⟨[⟨[0, 1], 0, [9, 9, 9, 9, 9]⟩, ⟨[1, 1], fNull.toNat, []⟩], ⟨⟨?_, ?_, ?_⟩, ?_⟩⟩
    · exact ⟨by cases fNull <;> decide, by cases fNull <;> decide, by cases fNull <;> decide,
        by cases fNull <;> decide, by cases fNull <;> decide, rfl, trivial⟩
    · cases fNull <;> decide
    · cases fNull <;> decide
    · cases fNull <;> decide

/-- The fixed columns are set, and the column without data becomes null. -/
def byteUpdate : Update where
  fSmallPage := true
  tdb := byteColumns
  old := byteRecord false
  new := byteRecord true
  old_valid := byteRecord_valid false
  new_valid := byteRecord_valid true
  fixed_le := by decide
  var_le := by decide
  bitMap_le := by decide

def byteFucb : Fucb where
  rgbitSet := memoryOf [63, 0, 0, 0, 0, 0, 0, 0, 2]
  fTagImplicitOp := false

def taggedFucb : Fucb where
  rgbitSet := memoryOf [0, 0, 0, 0, 0, 0, 0, 0, 2]
  fTagImplicitOp := false

end EseLinux.RecordDiff
