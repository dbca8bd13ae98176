import EseLinux.LogRecordRead

/-!
How records stand in a log, and that reading returns them.  The log is described by relations
between positions, after the headers that `FLGIAddLogRec` puts before a record and its fragments;
`ErrLGLocateFirstRedoLogRecFF` and `ErrLGGetNextRecFF` read one.
-/

namespace EseLinux.LogRecord

open ByteMemory List LogFile

inductive LaidRest (log : Memory) : Nat → List UInt8 → Nat → Prop
  | last {pos : Nat} {data : List UInt8} (hlen : data.length ≤ 4053)
      (hheader : slice log (pos + 40) 3 = fragment data.length)
      (hdata : slice log (pos + 43) data.length = data) :
      LaidRest log pos data (pos + 43 + data.length)
  | more {pos pos' : Nat} {data rest : List UInt8} (hlen : data.length = 4053)
      (hheader : slice log (pos + 40) 3 = fragment 4053)
      (hdata : slice log (pos + 43) 4053 = data) (hrest : rest ≠ [])
      (h : LaidRest log (pos + 4096) rest pos') : LaidRest log pos (data ++ rest) pos'

/-- A record at a position, up to another: whole, in fragments, or behind a filled rest. -/
inductive Laid (log : Memory) : Nat → List UInt8 → Nat → Prop
  | whole {pos : Nat} {record : List UInt8}
      (hlen : pbRecord pos + record.length ≤ pbSegmentEnd pos)
      (hdata : slice log (pbRecord pos) record.length = record) :
      Laid log pos record (pbRecord pos + record.length)
  | fragmented {pos pos' : Nat} {data rest : List UInt8}
      (hroom : pbRecord pos + cbMinFragment ≤ pbSegmentEnd pos)
      (hlen : pbRecord pos + 7 + data.length = pbSegmentEnd pos)
      (hlong : pbSegmentEnd pos < pbRecord pos + (data.length + rest.length))
      (hheader : slice log (pbRecord pos) 7 = fragmentBegin (data.length + rest.length) data.length)
      (hdata : slice log (pbRecord pos + 7) data.length = data)
      (h : LaidRest log (pbSegmentEnd pos) rest pos') : Laid log pos (data ++ rest) pos'
  | padded {pos pos' : Nat} {record : List UInt8}
      (hroom : pbSegmentEnd pos < pbRecord pos + cbMinFragment)
      (hlong : pbSegmentEnd pos < pbRecord pos + record.length)
      (hnops : ∀ i, pbRecord pos ≤ i → i < pbSegmentEnd pos → log i = lrtypNOP)
      (h : Laid log (pbSegmentEnd pos) record pos') : Laid log pos record pos'

def LaidAll (log : Memory) : Nat → List (List UInt8 × Nat) → Nat → Prop
  | pos, [], pos' => pos' = pos
  | pos, (record, lgpos) :: recs, pos' =>
    lgpos = pos ∧ ∃ mid, Laid log pos record mid ∧ LaidAll log mid recs pos'

/-- Whole fragments up to the start of a segment, with bytes of the record missing behind it. -/
inductive TornRest (log : Memory) : Nat → Nat → Nat → Prop
  | here {pos cb : Nat} (hcb : 0 < cb) : TornRest log pos cb pos
  | more {pos pos' cb : Nat} (hheader : slice log (pos + 40) 3 = fragment 4053)
      (h : TornRest log (pos + 4096) cb pos') : TornRest log pos (4053 + cb) pos'

inductive Torn (log : Memory) : Nat → Nat → Prop
  | begun {pos pos' cbData cb : Nat}
      (hroom : pbRecord pos + cbMinFragment ≤ pbSegmentEnd pos)
      (hlen : pbRecord pos + 7 + cbData = pbSegmentEnd pos)
      (hcb : cbData + cb < 2 ^ 32)
      (hheader : slice log (pbRecord pos) 7 = fragmentBegin (cbData + cb) cbData)
      (h : TornRest log (pbSegmentEnd pos) cb pos') : Torn log pos pos'
  | padded {pos pos' : Nat}
      (hnops : ∀ i, pbRecord pos ≤ i → i < pbSegmentEnd pos → log i = lrtypNOP)
      (h : Torn log (pbSegmentEnd pos) pos') : Torn log pos pos'

inductive Read where
  | record (lr : List UInt8) (pbNext pbNextNext : Nat)
  | noMoreRecords
  | failed (out : Outcome)

namespace LogFile

variable (f : LogFile)

def toRead : Outcome → Read
  | .record rgpiece pbNext pbNextNext => .record (assembled f.log rgpiece) pbNext pbNextNext
  | .noMoreRecords _ _ => .noMoreRecords
  | out => .failed out

/-- `ErrLGGetNextRecFF`; each record takes fewer rounds than there are bytes. -/
def errLGGetNextRecFF (pbNext pbNextNext : Nat) : Option Read :=
  if f.pbLast ≤ pbNextNext then some .noMoreRecords
  else if pbNextNext < pbNext then some (.failed .logFileCorrupt)
  else (f.errLGIGetRecordAtPbNext pbNextNext false (f.pbLast + 1)).map f.toRead

def skipTo (pbRedo : Nat) : Nat → Nat → Option Nat
  | 0, _ => none
  | rounds + 1, pbNext =>
    if pbNext < pbRedo then
      skipTo pbRedo rounds (pbRecord pbNext + f.cbSizeOfRec fun i => f.log (pbRecord pbNext + i))
    else some pbNext

/-- `ErrLGLocateFirstRedoLogRecFF`; a NOP stands for the records of an empty log. -/
def errLGLocateFirstRedoLogRecFF (csecHeader isecRedo ibRedo rounds : Nat) : Option Read :=
  let csecRedo := min (max isecRedo csecHeader) (f.pbLast / cbSec)
  let pbSegment := csecRedo * cbSec
  if f.fRead pbSegment = false then some (.failed .readError)
  else
    let pbNext :=
      if csecRedo = isecRedo ∧ csecRedo < f.pbLast / cbSec then
        f.skipTo (pbSegment + ibRedo) rounds pbSegment
      else some pbSegment
    match pbNext with
    | none => none
    | some pbNext =>
      match f.errLGIGetRecordAtPbNext pbNext (decide (csecRedo = isecRedo)) (f.pbLast + 1) with
      | some (.noMoreRecords pbNext pbNextNext) => some (.record [lrtypNOP] pbNext pbNextNext)
      | out => out.map f.toRead

/-- The records from a cursor on, if reading them ends without an error. -/
def readOn : Nat → Nat → Nat → Option (List (List UInt8 × Nat))
  | 0, _, _ => none
  | records + 1, pbNext, pbNextNext =>
    match f.errLGGetNextRecFF pbNext pbNextNext with
    | some (.record lr pbNext pbNextNext) =>
      (readOn records pbNext pbNextNext).map fun rest => (lr, pbNext) :: rest
    | some .noMoreRecords => some []
    | _ => none

def readLog (csecHeader isec records : Nat) : Option (List (List UInt8 × Nat)) :=
  match f.errLGLocateFirstRedoLogRecFF csecHeader isec 0 1 with
  | some (.record lr pbNext pbNextNext) =>
    (f.readOn records pbNext pbNextNext).map fun rest => (lr, pbNext) :: rest
  | _ => none

/-- A record that can be read: of a type that is not for the log's own use, and with a size that its
own bytes determine. -/
structure IsRecord (record : List UInt8) : Prop where
  lrtyp : ∃ lrtyp data, record = lrtyp :: data ∧ lrtyp ≠ lrtypNOP ∧ lrtyp ≠ lrtypFragmentBegin ∧
    lrtyp ≠ lrtypFragment ∧ lrtyp < lrtypMax
  length_lt : record.length < 2 ^ 32
  fixedSize : ∀ lr : Memory, slice lr 0 record.length = record →
    f.cbFixedSizeOfRec lr ≤ record.length
  size : ∀ lr : Memory, slice lr 0 record.length = record → f.cbSizeOfRec lr = record.length

structure Readable : Prop where
  read : ∀ pb, pb < f.pbLast → f.fRead (pbSegmentOf pb) = true
  memory : ∀ cb, f.fMemory cb = true

def EndsAt (pos : Nat) : Prop :=
  f.pbLast = pos ∨ (f.pbLast = pbSegmentEnd pos ∧
    ∀ i, pbRecord pos ≤ i → i < f.pbLast → f.log i = lrtypNOP)

def Reads (rd : Reader) (out : Outcome) : Prop := ∃ rounds, f.run rounds rd = some out

end LogFile

variable {f : LogFile} {rd rd' : Reader} {out : Outcome} {log : Memory} {pos pos' cb : Nat}

theorem LogFile.Reads.of_next (h : f.step rd = .next rd') (hreads : f.Reads rd' out) :
    f.Reads rd out := by
  obtain ⟨rounds, hrun⟩ := hreads
  refine ⟨rounds + 1, ?_⟩
  rw [run, h]
  exact hrun

theorem LogFile.Reads.of_done (h : f.step rd = .done out) : f.Reads rd out := by
  refine ⟨1, ?_⟩
  rw [run, h]

theorem run_mono {rounds rounds' : Nat} (h : f.run rounds rd = some out) (hle : rounds ≤ rounds') :
    f.run rounds' rd = some out := by
  induction rounds generalizing rd rounds' with
  | zero => cases h
  | succ rounds ih =>
    obtain ⟨n, rfl⟩ := Nat.exists_eq_add_of_le' (le_trans (Nat.le_add_left 1 rounds) hle)
    unfold run at h ⊢
    cases hstep : f.step rd with
    | next rd' =>
      rw [hstep] at h
      exact ih h (Nat.le_of_succ_le_succ hle)
    | done out' =>
      rw [hstep] at h
      exact h

theorem LogFile.Reads.run_eq (h : f.Reads rd out) : f.run (f.pbLast + 1) rd = some out := by
  obtain ⟨rounds, hrun⟩ := h
  obtain ⟨out', hout⟩ := run_ends_of_le f rd (Nat.sub_le f.pbLast rd.pbCurrent)
  have hboth := run_mono hout (le_max_left (f.pbLast + 1) rounds)
  rw [run_mono hrun (le_max_right (f.pbLast + 1) rounds)] at hboth
  rwa [hboth]

theorem pbRecord_of_dvd (h : 4096 ∣ pos) : pbRecord pos = pos + 40 ∧ pbSegmentOf pos = pos ∧
    pbSegmentEnd pos = pos + 4096 := by
  unfold pbSegmentEnd pbRecord pbSegmentOf cbSec cbSegHdr
  have hmod : pos % 4096 = 0 := Nat.mod_eq_zero_of_dvd h
  rw [hmod]
  exact ⟨if_pos rfl, rfl, rfl⟩

theorem pbRecord_lt (pos : Nat) : pbRecord pos < pbSegmentEnd pos := by
  unfold pbSegmentEnd pbRecord pbSegmentOf cbSec cbSegHdr
  split <;> omega

theorem pbSegmentOf_pbRecord (pos : Nat) : pbSegmentOf (pbRecord pos) = pbSegmentOf pos := by
  unfold pbRecord pbSegmentOf cbSec cbSegHdr
  split <;> omega

theorem pbSegmentEnd_pbRecord (pos : Nat) : pbSegmentEnd (pbRecord pos) = pbSegmentEnd pos :=
  congrArg (· + cbSec) (pbSegmentOf_pbRecord pos)

theorem dvd_pbSegmentEnd (pos : Nat) : 4096 ∣ pbSegmentEnd pos := by
  unfold pbSegmentEnd pbSegmentOf cbSec
  omega

theorem fragment_of_slice (h : slice log pos 3 = fragment cb) (hcb : cb < 65536) :
    log pos = lrtypFragment ∧ word log (pos + 1) = cb := by
  simp only [slice, fragment, le16, range_succ, range_zero, nil_append,
    cons_append, map_cons, map_nil, cons.injEq, and_true, add_zero] at h
  obtain ⟨hlrtyp, hlow, hhigh⟩ := h
  refine ⟨hlrtyp, ?_⟩
  unfold word
  rw [hlow, hhigh, UInt8.toNat_ofNat', UInt8.toNat_ofNat']
  omega

theorem fragmentBegin_of_slice {cbTotal : Nat} (h : slice log pos 7 = fragmentBegin cbTotal cb)
    (hcb : cb < 65536) (hcbTotal : cbTotal < 2 ^ 32) :
    log pos = lrtypFragmentBegin ∧ dword log (pos + 1) = cbTotal ∧ word log (pos + 5) = cb := by
  simp only [slice, fragmentBegin, le32, le16, range_succ, range_zero, nil_append,
    cons_append, map_cons, map_nil, cons.injEq, and_true, add_zero] at h
  obtain ⟨hlrtyp, h1, h2, h3, h4, h5, h6⟩ := h
  refine ⟨hlrtyp, ?_, ?_⟩
  · unfold dword word
    rw [h1, h2, h3, h4, UInt8.toNat_ofNat', UInt8.toNat_ofNat', UInt8.toNat_ofNat',
      UInt8.toNat_ofNat']
    omega
  · unfold word
    rw [h5, h6, UInt8.toNat_ofNat', UInt8.toNat_ofNat']
    omega

theorem skipNops_eq {n pb : Nat} (h : ∀ i, pb ≤ i → i < pb + n → log i = lrtypNOP) :
    skipNops log n pb = pb + n := by
  induction n generalizing pb with
  | zero => rfl
  | succ n ih =>
    rw [skipNops, if_pos (h pb (le_rfl) (by omega)), ih fun i hlo hhi => h i (by omega)
      (by omega)]
    omega

theorem length_assembled (log : Memory) (rgpiece : List Piece) :
    (assembled log rgpiece).length = (rgpiece.map Piece.cb).sum := by
  simp only [assembled, length_flatMap, slice_length]

theorem assembled_append (log : Memory) (rgpiece : List Piece) (piece : Piece) :
    assembled log (rgpiece ++ [piece]) = assembled log rgpiece ++ slice log piece.pb piece.cb := by
  simp only [assembled, flatMap_append, flatMap_singleton]

structure Reader.At (rd : Reader) (f : LogFile) (pos : Nat) : Prop where
  pbCurrent : rd.pbCurrent = pos
  lt_pbLast : pos < f.pbLast

theorem Reader.At.step_eq (h : rd.At f pos) (hf : f.Readable) : f.step rd =
    if f.log (pbRecord pos) = lrtypFragmentBegin then f.beginFragment rd (pbRecord pos)
    else if f.log (pbRecord pos) = lrtypFragment then f.continueFragment rd (pbRecord pos)
    else if f.log (pbRecord pos) = lrtypNOP then
      .next { rd with
        pbCurrent := skipNops f.log (pbSegmentEnd pos - pbRecord pos) (pbRecord pos) }
    else f.regularRecord rd (pbRecord pos) := by
  unfold step
  have hlast := h.lt_pbLast
  have hread := hf.read pos hlast
  rw [h.pbCurrent, if_neg (not_le.mpr hlast), hread, if_neg (by decide)]
  dsimp only
  rw [pbSegmentEnd_pbRecord]

theorem Reader.At.step_nops (h : rd.At f pos) (hf : f.Readable)
    (hnops : ∀ i, pbRecord pos ≤ i → i < pbSegmentEnd pos → f.log i = lrtypNOP) :
    f.step rd = .next { rd with pbCurrent := pbSegmentEnd pos } := by
  have hlt := pbRecord_lt pos
  have hnop := hnops (pbRecord pos) (Nat.le_refl _) hlt
  rw [h.step_eq hf, hnop, if_neg (by decide), if_neg (by decide), if_pos rfl,
    skipNops_eq fun i hlo hhi => hnops i hlo (by omega), Nat.add_sub_cancel' (Nat.le_of_lt hlt)]

theorem Reader.At.step_begin (h : rd.At f pos) (hf : f.Readable) {cbData : Nat}
    (hroom : pbRecord pos + cbMinFragment ≤ pbSegmentEnd pos)
    (hlen : pbRecord pos + 7 + cbData = pbSegmentEnd pos) (hcb : 0 < cb)
    (hlt : cbData + cb < 2 ^ 32)
    (hheader : slice f.log (pbRecord pos) 7 = fragmentBegin (cbData + cb) cbData)
    (hstart : rd.fInFragment = false ∨ (4096 ∣ pos ∧ f.log (pbRecord pos + 7) = lrtypUndoInfo)) :
    f.step rd = .next ⟨rd.pbNext, pbSegmentEnd pos, true, false, cbData + cb,
      [⟨pbRecord pos, pbRecord pos + 7, cbData⟩]⟩ := by
  have hsmall : cbData < 65536 := by
    unfold pbSegmentEnd pbSegmentOf cbSec at hlen
    have hle := le_pbRecord pos
    omega
  obtain ⟨hlrtyp, htotal, hfragment⟩ := fragmentBegin_of_slice hheader hsmall hlt
  have hnot : ¬ (rd.fInFragment = true ∧ (pbRecord pos ≠ pbSegmentOf pos + cbSegHdr ∨
      f.log (pbRecord pos + 7) ≠ lrtypUndoInfo)) := by
    rintro ⟨hin, hbad⟩
    rcases hstart with hout | ⟨hdvd, hundo⟩
    · rw [hout] at hin
      cases hin
    · obtain ⟨hpb, hseg, -⟩ := pbRecord_of_dvd hdvd
      rw [hpb, hseg] at hbad
      rw [hpb] at hundo
      exact hbad.elim (fun hne => hne rfl) fun hne => hne hundo
  rw [h.step_eq hf, if_pos hlrtyp]
  unfold beginFragment
  rw [pbSegmentEnd_pbRecord, pbSegmentOf_pbRecord]
  unfold cbMinFragment at hroom
  rw [if_neg (by omega), if_neg hnot]
  dsimp only
  rw [htotal, hfragment, hf.memory, if_neg (by decide), if_neg (by omega), hlen]

theorem Reader.At.step_fragment (h : rd.At f pos) (hf : f.Readable) (hdvd : 4096 ∣ pos)
    (hin : rd.fInFragment = true) (hskip : rd.fSkipPartialLR = false) (hcb : cb ≤ 4053)
    (hheader : slice f.log (pos + 40) 3 = fragment cb)
    (hleft : (rd.rgpiece.map Piece.cb).sum + cb ≤ rd.cbTotalFragment) :
    f.step rd = if rd.cbTotalFragment = (rd.rgpiece.map Piece.cb).sum + cb then
        if f.verifies (rd.rgpiece ++ [⟨pos + 40, pos + 43, cb⟩]) rd.cbTotalFragment then
          .done (.record (rd.rgpiece ++ [⟨pos + 40, pos + 43, cb⟩]) rd.pbNext (pos + 43 + cb))
        else .done .logFileCorrupt
      else .next { rd with
        pbCurrent := pos + 43 + cb, rgpiece := rd.rgpiece ++ [⟨pos + 40, pos + 43, cb⟩] } := by
  obtain ⟨hpb, -, hend⟩ := pbRecord_of_dvd hdvd
  have hend' : pbSegmentEnd (pos + 40) = pos + 4096 := by rw [← hpb, pbSegmentEnd_pbRecord, hend]
  obtain ⟨hlrtyp, hfragment⟩ := fragment_of_slice hheader (by omega)
  rw [h.step_eq hf, hpb, hlrtyp, if_neg (by decide), if_pos rfl]
  unfold continueFragment
  dsimp only
  rw [hfragment, hskip, hin, hend', if_neg (by decide), if_neg (by simp), if_neg (by omega)]

variable {record : List UInt8}

theorem LogFile.IsRecord.ne_nil (h : f.IsRecord record) : record ≠ [] := by
  obtain ⟨lrtyp, data, rfl, -⟩ := h.lrtyp
  exact cons_ne_nil _ _

variable {rgpiece : List Piece}

theorem LogFile.IsRecord.verifies
    (h : f.IsRecord record) (hrecord : assembled f.log rgpiece = record) :
    f.verifies rgpiece record.length = true := by
  have hslice := slice_ofBytes record
  obtain ⟨lrtyp, data, rfl, -, -, -, hmax⟩ := h.lrtyp
  unfold verifies
  rw [hrecord]
  change (decide (lrtyp < lrtypMax) && _ && _) = true
  rw [decide_eq_true hmax, Bool.true_and, Bool.and_eq_true]
  exact ⟨decide_eq_true (h.fixedSize _ hslice), decide_eq_true (h.size _ hslice)⟩

def IsUndo (record : List UInt8) : Prop :=
  record.head? = some lrtypRecoveryUndo ∨ record.head? = some lrtypRecoveryUndo2 ∨
    record.head? = some lrtypUndoInfo

theorem Reader.At.step_regular (h : rd.At f pos) (hf : f.Readable)
    (hrec : f.IsRecord record) (hlen : pbRecord pos + record.length ≤ pbSegmentEnd pos)
    (hdata : slice f.log (pbRecord pos) record.length = record)
    (hstart : rd.fInFragment = false ∨ (4096 ∣ pos ∧ IsUndo record)) :
    f.step rd = .done (.record [⟨pbRecord pos, pbRecord pos, record.length⟩]
      (if rd.fInFragment then pbSegmentOf pos else rd.pbNext) (pbRecord pos + record.length)) := by
  have hlr : slice (fun i => f.log (pbRecord pos + i)) 0 record.length = record := by
    conv_rhs => rw [← hdata]
    simp only [slice, zero_add]
  have hfixed := hrec.fixedSize _ hlr
  have hsize := hrec.size _ hlr
  obtain ⟨lrtyp, data, rfl, hnop, hbegin, hfragment, hmax⟩ := hrec.lrtyp
  have hlrtyp : f.log (pbRecord pos) = lrtyp := by
    rw [slice, length_cons, range_succ_eq_map, map_cons] at hdata
    exact (cons.inj hdata).1
  have hmax' : ¬ lrtypMax ≤ f.log (pbRecord pos + 0) := by
    rw [add_zero, hlrtyp]
    exact UInt8.not_le.mpr hmax
  have hnot : ¬ (rd.fInFragment = true ∧ ¬ (pbRecord pos = pbSegmentOf pos + cbSegHdr ∧
      (f.log (pbRecord pos + 0) = lrtypRecoveryUndo ∨
        f.log (pbRecord pos + 0) = lrtypRecoveryUndo2 ∨
        f.log (pbRecord pos + 0) = lrtypUndoInfo))) := by
    rintro ⟨hin, hbad⟩
    rcases hstart with hout | ⟨hdvd, hundo⟩
    · rw [hout] at hin
      cases hin
    · obtain ⟨hpb, hseg, -⟩ := pbRecord_of_dvd hdvd
      unfold IsUndo at hundo
      simp only [head?_cons, Option.some.injEq] at hundo
      refine hbad ⟨by rw [hpb, hseg]; rfl, ?_⟩
      rwa [add_zero, hlrtyp]
  rw [h.step_eq hf, hlrtyp, if_neg hbegin, if_neg hfragment, if_neg hnop]
  unfold regularRecord
  dsimp only
  rw [pbSegmentEnd_pbRecord, pbSegmentOf_pbRecord, hsize, if_neg hnot, if_neg hmax',
    if_neg (by omega)]

theorem LaidRest.lt {rest : List UInt8} (h : LaidRest log pos rest pos') : pos < pos' := by
  induction h with
  | last => omega
  | more _ _ _ _ _ ih => omega

theorem Laid.le (h : Laid log pos record pos') :
    pos ≤ pos' ∧ (record ≠ [] → pos < pos') := by
  induction h with
  | @whole pos record =>
    have hle := le_pbRecord pos
    refine ⟨by omega, fun hne => ?_⟩
    have hlen := length_pos_of_ne_nil hne
    omega
  | @fragmented pos pos' data rest _ _ _ _ _ hrest =>
    have hlt := hrest.lt
    have hend := lt_pbSegmentEnd pos
    exact ⟨by omega, fun _ => by omega⟩
  | @padded pos pos' record _ _ _ _ ih =>
    have hend := lt_pbSegmentEnd pos
    exact ⟨by omega, fun _ => by omega⟩

theorem LaidRest.reads {rest : List UInt8} (h : LaidRest f.log pos rest pos') (hf : f.Readable)
    (hlast : pos' ≤ f.pbLast) (hdvd : 4096 ∣ pos) (hpos : rd.pbCurrent = pos)
    (hin : rd.fInFragment = true) (hskip : rd.fSkipPartialLR = false)
    (htotal : rd.cbTotalFragment = (assembled f.log rd.rgpiece ++ rest).length)
    (hrec : f.IsRecord (assembled f.log rd.rgpiece ++ rest)) :
    ∃ rgpiece, f.Reads rd (.record rgpiece rd.pbNext pos') ∧
      assembled f.log rgpiece = assembled f.log rd.rgpiece ++ rest := by
  have hlt := h.lt
  induction h generalizing rd with
  | @last pos data hlen hheader hdata =>
    have hat : rd.At f pos := ⟨hpos, by omega⟩
    rw [length_append, length_assembled] at htotal
    have hrecord : assembled f.log (rd.rgpiece ++ [⟨pos + 40, pos + 43, data.length⟩]) =
        assembled f.log rd.rgpiece ++ data := by rw [assembled_append, hdata]
    have hverifies := hrec.verifies hrecord
    rw [length_append, length_assembled, ← htotal] at hverifies
    refine ⟨_, .of_done ?_, hrecord⟩
    rw [hat.step_fragment hf hdvd hin hskip hlen hheader (by omega), if_pos htotal,
      if_pos hverifies]
  | @more pos pos' data rest hlen hheader hdata hrest h ih =>
    have hat : rd.At f pos := ⟨hpos, by omega⟩
    have hne := length_pos_of_ne_nil hrest
    have hassembled : assembled f.log (rd.rgpiece ++ [⟨pos + 40, pos + 43, 4053⟩]) ++ rest =
        assembled f.log rd.rgpiece ++ (data ++ rest) := by
      rw [assembled_append, hdata, append_assoc]
    have htotal' := htotal
    rw [length_append, length_append, length_assembled] at htotal'
    have hstep := hat.step_fragment hf hdvd hin hskip (le_rfl) hheader (by omega)
    rw [if_neg (by omega)] at hstep
    rw [← hassembled] at htotal hrec ⊢
    obtain ⟨rgpiece, hreads, heq⟩ := @ih { rd with
        pbCurrent := pos + 43 + 4053
        rgpiece := rd.rgpiece ++ [⟨pos + 40, pos + 43, 4053⟩] } hlast (by omega) rfl hin hskip
      htotal hrec h.lt
    exact ⟨rgpiece, hreads.of_next hstep, heq⟩

theorem Laid.reads (h : Laid f.log pos record pos') (hf : f.Readable)
    (hlast : pos' ≤ f.pbLast) (hrec : f.IsRecord record) (hpos : rd.pbCurrent = pos)
    (hstart : rd.fInFragment = false ∨ (4096 ∣ pos ∧ IsUndo record ∧
      (4056 < record.length → record.head? = some lrtypUndoInfo))) :
    ∃ rgpiece, f.Reads rd (.record rgpiece
        (if rd.fInFragment = true ∧ record.length ≤ 4056 then pos else rd.pbNext) pos') ∧
      assembled f.log rgpiece = record := by
  have hne := hrec.ne_nil
  have hlt := h.le.2 hne
  induction h generalizing rd with
  | @whole pos record hlen hdata =>
    have hat : rd.At f pos := ⟨hpos, by omega⟩
    refine ⟨[⟨pbRecord pos, pbRecord pos, record.length⟩], .of_done ?_, ?_⟩
    · rw [hat.step_regular hf hrec hlen hdata (hstart.imp_right fun h => ⟨h.1, h.2.1⟩)]
      rcases hstart with hout | ⟨hdvd, -⟩
      · rw [hout]
        rfl
      · obtain ⟨hpb, hseg, hend⟩ := pbRecord_of_dvd hdvd
        have hshort : record.length ≤ 4056 := by omega
        simp only [hseg, hshort, and_true]
    · simp only [assembled, flatMap_singleton, hdata]
  | @fragmented pos pos' data rest hroom hlen hlong hheader hdata hrest =>
    have hat : rd.At f pos := ⟨hpos, by omega⟩
    have hlength := hrec.length_lt
    rw [length_append] at hlength
    have hstep := hat.step_begin hf hroom hlen (by omega) hlength hheader (by
      refine hstart.imp_right fun hundo => ⟨hundo.1, ?_⟩
      obtain ⟨hpb, -, hend⟩ := pbRecord_of_dvd hundo.1
      have hhead := hundo.2.2 (by rw [length_append]; omega)
      cases data with
      | nil => rw [length_nil] at hlen; omega
      | cons lrtyp data =>
        rw [slice, length_cons, range_succ_eq_map, map_cons] at hdata
        rw [cons_append, head?_cons, Option.some.injEq] at hhead
        rw [← hhead]
        exact (cons.inj hdata).1)
    have hassembled : assembled f.log [⟨pbRecord pos, pbRecord pos + 7, data.length⟩] = data := by
      simp only [assembled, flatMap_singleton, hdata]
    obtain ⟨rgpiece, hreads, heq⟩ := @LaidRest.reads f
      ⟨rd.pbNext, pbSegmentEnd pos, true, false, data.length + rest.length,
        [⟨pbRecord pos, pbRecord pos + 7, data.length⟩]⟩ _ _ _ hrest hf hlast
      (dvd_pbSegmentEnd pos) rfl rfl rfl (by rw [hassembled, length_append])
      (by rwa [hassembled])
    rw [hassembled] at heq
    refine ⟨rgpiece, ?_, heq⟩
    rw [if_neg]
    · exact hreads.of_next hstep
    · rintro ⟨hin, hshort⟩
      rcases hstart with hout | ⟨hdvd, -⟩
      · rw [hout] at hin
        cases hin
      · obtain ⟨hpb, -, hend⟩ := pbRecord_of_dvd hdvd
        rw [length_append] at hshort
        omega
  | @padded pos pos' record hroom hlong hnops h ih =>
    have hat : rd.At f pos := ⟨hpos, by omega⟩
    rcases hstart with hout | ⟨hdvd, -⟩
    · obtain ⟨rgpiece, hreads, heq⟩ := @ih { rd with pbCurrent := pbSegmentEnd pos } hlast hrec rfl
        (.inl hout) hne (h.le.2 hne)
      rw [if_neg (by rw [hout]; simp)] at hreads ⊢
      exact ⟨rgpiece, hreads.of_next (hat.step_nops hf hnops), heq⟩
    · obtain ⟨hpb, -, hend⟩ := pbRecord_of_dvd hdvd
      unfold cbMinFragment at hroom
      omega

theorem TornRest.le (h : TornRest log pos cb pos') :
    pos ≤ pos' ∧ 0 < cb ∧ (4096 ∣ pos → 4096 ∣ pos') := by
  induction h with
  | here hcb => exact ⟨le_rfl, hcb, id⟩
  | more _ _ ih => exact ⟨by omega, by omega, fun h => ih.2.2 (by omega)⟩

theorem Torn.lt (h : Torn log pos pos') : pos < pos' ∧ 4096 ∣ pos' := by
  induction h with
  | @begun pos pos' _ _ _ _ _ _ h =>
    have hend := lt_pbSegmentEnd pos
    have hle := h.le.1
    exact ⟨by omega, h.le.2.2 (dvd_pbSegmentEnd pos)⟩
  | @padded pos pos' _ _ ih =>
    have hend := lt_pbSegmentEnd pos
    exact ⟨by omega, ih.2⟩

/-- The state in which a torn record leaves the reader at the start of a segment. -/
structure Reader.LeftTorn (rd' rd : Reader) (f : LogFile) (pos : Nat) : Prop where
  pbNext : rd'.pbNext = rd.pbNext
  pbCurrent : rd'.pbCurrent = pos
  fInFragment : rd'.fInFragment = true
  reads : ∀ out, f.Reads rd' out → f.Reads rd out

theorem Reader.LeftTorn.of_next {rd' rd₁ : Reader} (h : rd'.LeftTorn rd₁ f pos)
    (hstep : f.step rd = .next rd₁) (hnext : rd₁.pbNext = rd.pbNext) : rd'.LeftTorn rd f pos :=
  ⟨h.pbNext.trans hnext, h.pbCurrent, h.fInFragment,
    fun out hout => (h.reads out hout).of_next hstep⟩

theorem TornRest.leads (h : TornRest f.log pos cb pos') (hf : f.Readable) (hlast : pos' < f.pbLast)
    (hdvd : 4096 ∣ pos) (hpos : rd.pbCurrent = pos) (hin : rd.fInFragment = true)
    (hskip : rd.fSkipPartialLR = false)
    (htotal : rd.cbTotalFragment = (rd.rgpiece.map Piece.cb).sum + cb) :
    ∃ rd' : Reader, rd'.LeftTorn rd f pos' := by
  induction h generalizing rd with
  | here => exact ⟨rd, rfl, hpos, hin, fun _ => id⟩
  | @more pos pos' cb hheader h ih =>
    obtain ⟨hle, hcb, -⟩ := h.le
    have hat : rd.At f pos := ⟨hpos, by omega⟩
    have hstep := hat.step_fragment hf hdvd hin hskip (le_rfl) hheader (by omega)
    rw [if_neg (by omega)] at hstep
    obtain ⟨rd', hleft⟩ := @ih { rd with
        pbCurrent := pos + 43 + 4053
        rgpiece := rd.rgpiece ++ [⟨pos + 40, pos + 43, 4053⟩] } hlast (by omega) rfl hin hskip (by
      rw [map_append, sum_append, map_singleton, sum_singleton]
      dsimp only
      omega)
    exact ⟨rd', hleft.of_next hstep rfl⟩

theorem Torn.leads (h : Torn f.log pos pos') (hf : f.Readable) (hlast : pos' < f.pbLast)
    (hpos : rd.pbCurrent = pos) (hout : rd.fInFragment = false) :
    ∃ rd' : Reader, rd'.LeftTorn rd f pos' := by
  have hlt := h.lt.1
  induction h generalizing rd with
  | @begun pos pos' cbData cb hroom hlen hcb hheader h =>
    have hat : rd.At f pos := ⟨hpos, by omega⟩
    have hstep := hat.step_begin hf hroom hlen h.le.2.1 hcb hheader (.inl hout)
    obtain ⟨rd', hleft⟩ := @TornRest.leads f
      ⟨rd.pbNext, pbSegmentEnd pos, true, false, cbData + cb,
        [⟨pbRecord pos, pbRecord pos + 7, cbData⟩]⟩ _ _ _ h hf hlast (dvd_pbSegmentEnd pos) rfl rfl
      rfl rfl
    exact ⟨rd', hleft.of_next hstep rfl⟩
  | @padded pos pos' hnops h ih =>
    have hat : rd.At f pos := ⟨hpos, by omega⟩
    obtain ⟨rd', hleft⟩ := @ih { rd with pbCurrent := pbSegmentEnd pos } hlast rfl hout h.lt.1
    exact ⟨rd', hleft.of_next (hat.step_nops hf hnops) rfl⟩

theorem LaidAll.le {recs : List (List UInt8 × Nat)} (h : LaidAll log pos recs pos') :
    pos ≤ pos' := by
  induction recs generalizing pos with
  | nil => exact le_of_eq h.symm
  | cons r recs ih =>
    obtain ⟨-, mid, hlaid, hall⟩ := h
    exact le_trans hlaid.le.1 (ih hall)

theorem LogFile.EndsAt.le (h : f.EndsAt pos) : pos ≤ f.pbLast := by
  have hend := lt_pbSegmentEnd pos
  rcases h with heq | ⟨heq, -⟩ <;> omega

variable {pbNext : Nat}

theorem LogFile.EndsAt.getNext (h : f.EndsAt pos) (hf : f.Readable)
    (hle : pbNext ≤ pos) : f.errLGGetNextRecFF pbNext pos = some .noMoreRecords := by
  unfold errLGGetNextRecFF
  by_cases hlast : f.pbLast ≤ pos
  · rw [if_pos hlast]
  · rw [if_neg hlast, if_neg (Nat.not_lt.mpr hle)]
    rcases h with heq | ⟨heq, hnops⟩
    · exact absurd (Nat.le_of_eq heq) hlast
    · have hat : Reader.At ⟨pos, pos, false, false, 0, []⟩ f pos := ⟨rfl, Nat.lt_of_not_le hlast⟩
      have hstep := hat.step_nops hf fun i hlo hhi => hnops i hlo (by omega)
      have hdone : f.step ⟨pos, pbSegmentEnd pos, false, false, 0, []⟩ =
          .done (.noMoreRecords pos (pbSegmentEnd pos)) := by
        unfold step
        rw [if_pos (Nat.le_of_eq heq)]
      unfold errLGIGetRecordAtPbNext
      rw [((Reads.of_done hdone).of_next hstep).run_eq]
      rfl

theorem getNext_of_reads {pbNext' : Nat} (hle : pbNext ≤ pos) (hlast : pos < f.pbLast)
    (h : f.Reads ⟨pos, pos, false, false, 0, []⟩ (.record rgpiece pbNext' pos')) :
    f.errLGGetNextRecFF pbNext pos = some (.record (assembled f.log rgpiece) pbNext' pos') := by
  unfold errLGGetNextRecFF errLGIGetRecordAtPbNext
  rw [if_neg (not_le.mpr hlast), if_neg (not_lt.mpr hle), h.run_eq]
  rfl

theorem locate_of_reads {csecHeader isec : Nat}
    (hf : f.Readable) (hheader : csecHeader ≤ isec) (hlast : isec * 4096 < f.pbLast)
    (h : f.Reads ⟨isec * 4096, isec * 4096, false, true, 0, []⟩ (.record rgpiece pbNext pos')) :
    f.errLGLocateFirstRedoLogRecFF csecHeader isec 0 1 =
      some (.record (assembled f.log rgpiece) pbNext pos') := by
  have hcsec : min (max isec csecHeader) (f.pbLast / cbSec) = isec := by
    unfold cbSec
    omega
  have hread := hf.read _ hlast
  rw [(pbRecord_of_dvd ⟨isec, mul_comm _ _⟩).2.1] at hread
  have hskip : f.skipTo (isec * cbSec + 0) 1 (isec * cbSec) = some (isec * cbSec) := by
    rw [add_zero, skipTo, if_neg (lt_irrefl _)]
  unfold errLGLocateFirstRedoLogRecFF errLGIGetRecordAtPbNext
  dsimp only
  rw [hcsec, hskip, ite_self]
  simp only [cbSec, hread, Bool.true_eq_false, if_false, decide_true, h.run_eq]
  rfl

theorem LaidAll.readOn_append {recs after : List (List UInt8 × Nat)} {n : Nat}
    (h : LaidAll f.log pos recs pos') (hf : f.Readable) (hlast : pos' ≤ f.pbLast)
    (hrecs : ∀ r ∈ recs, f.IsRecord r.1)
    (hafter : ∀ pbNext, pbNext ≤ pos' → f.readOn n pbNext pos' = some after)
    (hle : pbNext ≤ pos) : f.readOn (recs.length + n) pbNext pos = some (recs ++ after) := by
  induction recs generalizing pos pbNext with
  | nil =>
    obtain rfl : pos' = pos := h
    rw [length_nil, zero_add]
    exact hafter pbNext hle
  | cons r recs ih =>
    obtain ⟨hlgpos, mid, hlaid, hall⟩ := h
    have hrec := hrecs r mem_cons_self
    have hmid := le_trans hall.le hlast
    have hlt := hlaid.le.2 hrec.ne_nil
    obtain ⟨rgpiece, hreads, heq⟩ := @Laid.reads f ⟨pos, pos, false, false, 0, []⟩ _ _ _ hlaid hf
      hmid hrec rfl (.inl rfl)
    rw [length_cons, Nat.succ_add, readOn, getNext_of_reads hle (by omega) hreads]
    dsimp only
    rw [if_neg (by simp), ih hall (fun s hs => hrecs s (mem_cons_of_mem r hs))
      (hlt.le), heq, ← hlgpos]
    rfl

end EseLinux.LogRecord
