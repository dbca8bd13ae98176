import EseLinux.LogRecordWrite

/-!
Reading a log record at a cursor (`LOG_READ_BUFFER::ErrLGIGetRecordAtPbNext`).  The whole file is in
the read buffer, so that pointers are offsets in the file; the time a segment was started and the
dump of its header are left out.
-/

namespace EseLinux.LogRecord

open ByteMemory List

def lrtypRecoveryUndo : UInt8 := 17
def lrtypUndoInfo : UInt8 := 36
def lrtypRecoveryUndo2 : UInt8 := 51
def lrtypMax : UInt8 := 102

structure LogFile where
  log : Memory
  /-- `m_lgposLastRec` -/
  pbLast : Nat
  /-- `ErrReaderEnsureSector` has the segment. -/
  fRead : Nat → Bool
  /-- A buffer of this size is there or can be allocated. -/
  fMemory : Nat → Bool
  /-- `CbLGFixedSizeOfRec` and `CbLGSizeOfRec`, of the bytes from a record's first one on. -/
  cbFixedSizeOfRec : Memory → Nat
  cbSizeOfRec : Memory → Nat

structure Piece where
  pbHeader : Nat
  pb : Nat
  cb : Nat
  deriving DecidableEq, Repr

/-- The variables of the loop, with `m_pbNext` and the pieces in `m_pvAssembledLR`. -/
structure Reader where
  pbNext : Nat
  pbCurrent : Nat
  fInFragment : Bool
  fSkipPartialLR : Bool
  cbTotalFragment : Nat
  rgpiece : List Piece

inductive Outcome where
  | readError
  | outOfMemory
  | logFileCorrupt
  | noMoreRecords (pbNext pbNextNext : Nat)
  | record (rgpiece : List Piece) (pbNext pbNextNext : Nat)
  deriving DecidableEq, Repr

inductive Step where
  | next (rd : Reader)
  | done (out : Outcome)

def pbSegmentOf (pb : Nat) : Nat := pb - pb % cbSec

def pbSegmentEnd (pb : Nat) : Nat := pbSegmentOf pb + cbSec

def assembled (log : Memory) (rgpiece : List Piece) : List UInt8 :=
  rgpiece.flatMap fun piece => slice log piece.pb piece.cb

def skipNops (log : Memory) : Nat → Nat → Nat
  | 0, pb => pb
  | cb + 1, pb => if log pb = lrtypNOP then skipNops log cb (pb + 1) else pb

namespace LogFile

variable (f : LogFile)

def beginFragment (rd : Reader) (pb : Nat) : Step :=
  if pbSegmentEnd pb < pb + 7 then .done .logFileCorrupt
  else if rd.fInFragment ∧ (pb ≠ pbSegmentOf pb + cbSegHdr ∨ f.log (pb + 7) ≠ lrtypUndoInfo) then
    .done .logFileCorrupt
  else
    let cbTotalFragment := dword f.log (pb + 1)
    let cbFragment := word f.log (pb + 5)
    if f.fMemory cbTotalFragment = false then .done .outOfMemory
    else if cbTotalFragment ≤ cbFragment ∨ pbSegmentEnd pb - pb < cbFragment then
      .done .logFileCorrupt
    else
      .next ⟨rd.pbNext, pb + 7 + cbFragment, true, false, cbTotalFragment,
        [⟨pb, pb + 7, cbFragment⟩]⟩

def verifies (rgpiece : List Piece) (cbTotalFragment : Nat) : Bool :=
  let lr : Memory := fun i => (assembled f.log rgpiece).getD i 0
  lr 0 < lrtypMax && f.cbFixedSizeOfRec lr ≤ cbTotalFragment && f.cbSizeOfRec lr = cbTotalFragment

def continueFragment (rd : Reader) (pb : Nat) : Step :=
  let cbFragment := word f.log (pb + 1)
  let cbFragmentSeen := (rd.rgpiece.map Piece.cb).sum
  if rd.fSkipPartialLR then
    .next { rd with pbCurrent := pb + 3 + cbFragment, pbNext := pb + 3 + cbFragment }
  else if rd.fInFragment = false ∨ pbSegmentEnd pb < pb + 3 then .done .logFileCorrupt
  else if rd.cbTotalFragment - cbFragmentSeen < cbFragment ∨ pbSegmentEnd pb - pb < cbFragment then
    .done .logFileCorrupt
  else
    let rgpiece := rd.rgpiece ++ [⟨pb, pb + 3, cbFragment⟩]
    if rd.cbTotalFragment = cbFragmentSeen + cbFragment then
      if f.verifies rgpiece rd.cbTotalFragment then
        .done (.record rgpiece rd.pbNext (pb + 3 + cbFragment))
      else .done .logFileCorrupt
    else .next { rd with pbCurrent := pb + 3 + cbFragment, rgpiece }

def regularRecord (rd : Reader) (pb : Nat) : Step :=
  let lr : Memory := fun i => f.log (pb + i)
  if rd.fInFragment ∧ ¬ (pb = pbSegmentOf pb + cbSegHdr ∧
      (lr 0 = lrtypRecoveryUndo ∨ lr 0 = lrtypRecoveryUndo2 ∨ lr 0 = lrtypUndoInfo)) then
    .done .logFileCorrupt
  else if lrtypMax ≤ lr 0 then .done .logFileCorrupt
  else if pbSegmentEnd pb - pb < f.cbFixedSizeOfRec lr ∨
      pbSegmentEnd pb - pb < f.cbSizeOfRec lr then
    .done .logFileCorrupt
  else
    -- behind a torn record the position is the one it had when it was logged
    .done (.record [⟨pb, pb, f.cbSizeOfRec lr⟩]
      (if rd.fInFragment then pbSegmentOf pb else rd.pbNext)
      (pb + f.cbSizeOfRec lr))

def pbRecord (pbCurrent : Nat) : Nat :=
  if pbCurrent = pbSegmentOf pbCurrent then pbCurrent + cbSegHdr else pbCurrent

def step (rd : Reader) : Step :=
  if f.pbLast ≤ rd.pbCurrent then .done (.noMoreRecords rd.pbNext rd.pbCurrent)
  else if f.fRead (pbSegmentOf rd.pbCurrent) = false then .done .readError
  else
    let pb := pbRecord rd.pbCurrent
    if f.log pb = lrtypFragmentBegin then f.beginFragment rd pb
    else if f.log pb = lrtypFragment then f.continueFragment rd pb
    else if f.log pb = lrtypNOP then
      .next { rd with pbCurrent := skipNops f.log (pbSegmentEnd pb - pb) pb }
    else f.regularRecord rd pb

def run : Nat → Reader → Option Outcome
  | 0, _ => none
  | rounds + 1, rd =>
    match f.step rd with
    | .next rd => run rounds rd
    | .done out => some out

def errLGIGetRecordAtPbNext (pbNext : Nat) (fSkipPartialLR : Bool) (rounds : Nat) :
    Option Outcome :=
  f.run rounds ⟨pbNext, pbNext, false, fSkipPartialLR, 0, []⟩

end LogFile

def Piece.Inside (piece : Piece) : Prop := piece.pb + piece.cb ≤ pbSegmentEnd piece.pbHeader

/-- The pieces of a record are inside their segments, and the cursor is not behind the last of
these. -/
def Outcome.Sound : Outcome → Prop
  | .record rgpiece _ pbNextNext => (∀ piece ∈ rgpiece, piece.Inside) ∧
      ∃ piece, rgpiece.getLast? = some piece ∧ pbNextNext ≤ pbSegmentEnd piece.pbHeader
  | _ => True

def Reader.Sound (rd : Reader) : Prop := ∀ piece ∈ rd.rgpiece, piece.Inside

def Step.Sound : Step → Prop
  | .next rd => rd.Sound
  | .done out => out.Sound

namespace LogFile

variable (f : LogFile) (rd : Reader) (pb : Nat)

/-- A first fragment that is taken, of a size between what remains of the segment behind its header
and what remains from its header on. -/
structure BeginOverruns : Prop where
  header : pb + 7 ≤ pbSegmentEnd pb
  torn : rd.fInFragment = true → pb = pbSegmentOf pb + cbSegHdr ∧ f.log (pb + 7) = lrtypUndoInfo
  memory : f.fMemory (dword f.log (pb + 1)) = true
  total : word f.log (pb + 5) < dword f.log (pb + 1)
  size : word f.log (pb + 5) ≤ pbSegmentEnd pb - pb
  overrun : pbSegmentEnd pb < pb + 7 + word f.log (pb + 5)

/-- The same of a later one, which with the last one is taken if the record verifies. -/
structure FragmentOverruns : Prop where
  skip : rd.fSkipPartialLR = false
  fragment : rd.fInFragment = true
  header : pb + 3 ≤ pbSegmentEnd pb
  total : word f.log (pb + 1) ≤ rd.cbTotalFragment - (rd.rgpiece.map Piece.cb).sum
  last : rd.cbTotalFragment = (rd.rgpiece.map Piece.cb).sum + word f.log (pb + 1) →
    f.verifies (rd.rgpiece ++ [⟨pb, pb + 3, word f.log (pb + 1)⟩]) rd.cbTotalFragment = true
  size : word f.log (pb + 1) ≤ pbSegmentEnd pb - pb
  overrun : pbSegmentEnd pb < pb + 3 + word f.log (pb + 1)

def Overruns : Prop :=
  rd.pbCurrent < f.pbLast ∧ f.fRead (pbSegmentOf rd.pbCurrent) = true ∧
    (f.log (pbRecord rd.pbCurrent) = lrtypFragmentBegin ∧
        f.BeginOverruns rd (pbRecord rd.pbCurrent) ∨
      f.log (pbRecord rd.pbCurrent) = lrtypFragment ∧
        f.FragmentOverruns rd (pbRecord rd.pbCurrent))

/-- If a fragment starts here, it ends inside the segment. -/
def Fits : Prop :=
  (f.log pb = lrtypFragmentBegin → pb + 7 + word f.log (pb + 5) ≤ pbSegmentEnd pb) ∧
    (f.log pb = lrtypFragment → pb + 3 + word f.log (pb + 1) ≤ pbSegmentEnd pb)

/-- The fragments of the record, if there is one, all fit. -/
def FitsAll (out : Outcome) : Prop :=
  ∀ rgpiece pbNext pbNextNext, out = .record rgpiece pbNext pbNextNext →
    ∀ piece ∈ rgpiece, f.Fits piece.pbHeader

def IsFragment (piece : Piece) : Prop :=
  f.log piece.pbHeader = lrtypFragmentBegin ∧ piece.pb = piece.pbHeader + 7 ∧
      piece.cb = word f.log (piece.pbHeader + 5) ∨
    f.log piece.pbHeader = lrtypFragment ∧ piece.pb = piece.pbHeader + 3 ∧
      piece.cb = word f.log (piece.pbHeader + 1)

/-- What is left to the next round are fragments, and a record is sound just if its fragments
fit. -/
def StepOk : Step → Prop
  | .next rd => ∀ piece ∈ rd.rgpiece, f.IsFragment piece
  | .done out => out.Sound ↔ f.FitsAll out

end LogFile

variable {f : LogFile} {rd rd' : Reader} {pb : Nat}

theorem lt_pbSegmentEnd (pb : Nat) : pb < pbSegmentEnd pb := by
  unfold pbSegmentEnd pbSegmentOf cbSec
  omega

theorem LogFile.IsFragment.inside_iff {piece : Piece} (h : f.IsFragment piece) :
    piece.Inside ↔ f.Fits piece.pbHeader := by
  have hne : lrtypFragmentBegin ≠ lrtypFragment := by decide
  unfold Piece.Inside LogFile.Fits
  rcases h with ⟨hlog, hpb, hcb⟩ | ⟨hlog, hpb, hcb⟩
  · simp only [hlog, hpb, hcb, hne, true_implies, false_implies, and_true]
  · simp only [hlog, hpb, hcb, hne.symm, true_implies, false_implies, true_and]

theorem beginFragment_sound_iff :
    (f.beginFragment rd pb).Sound ↔ ¬ f.BeginOverruns rd pb := by
  unfold LogFile.beginFragment
  dsimp only
  split_ifs with hheader htorn hmemory hsize
  · exact iff_of_true trivial fun h => absurd h.header (Nat.not_le.mpr hheader)
  · refine iff_of_true trivial fun h => ?_
    obtain ⟨hfirst, hundo⟩ := h.torn htorn.1
    exact htorn.2.elim (· hfirst) (· hundo)
  · exact iff_of_true trivial fun h => Bool.false_ne_true (hmemory.symm.trans h.memory)
  · exact iff_of_true trivial fun h => hsize.elim (Nat.not_le.mpr h.total) (Nat.not_lt.mpr h.size)
  · have hiff : (Step.next ⟨rd.pbNext, pb + 7 + word f.log (pb + 5), true, false,
        dword f.log (pb + 1), [⟨pb, pb + 7, word f.log (pb + 5)⟩]⟩).Sound ↔
          pb + 7 + word f.log (pb + 5) ≤ pbSegmentEnd pb := by
      simp [Step.Sound, Reader.Sound, Piece.Inside]
    rw [hiff]
    constructor
    · exact fun hle h => Nat.not_lt.mpr hle h.overrun
    · intro hno
      by_contra hlt
      refine hno ⟨by omega, fun hin => ?_, by simpa using hmemory, by omega, by omega, by omega⟩
      by_contra hnot
      exact htorn ⟨hin, by tauto⟩

theorem sound_append {rgpiece : List Piece} {piece : Piece}
    (h : ∀ piece ∈ rgpiece, piece.Inside) :
    (∀ other ∈ rgpiece ++ [piece], other.Inside) ↔ piece.Inside := by
  constructor
  · intro hall
    exact hall piece (by simp)
  · intro hpiece other hother
    rcases mem_append.mp hother with hold | hnew
    · exact h other hold
    · rwa [mem_singleton.mp hnew]

theorem Reader.Sound.continueFragment_sound_iff (h : rd.Sound) :
    (f.continueFragment rd pb).Sound ↔ ¬ f.FragmentOverruns rd pb := by
  unfold LogFile.continueFragment
  dsimp only
  have hinside : Piece.Inside ⟨pb, pb + 3, word f.log (pb + 1)⟩ ↔
      pb + 3 + word f.log (pb + 1) ≤ pbSegmentEnd pb := Iff.rfl
  split_ifs with hskip hheader hsize hlast hverifies
  · exact iff_of_true h fun hover => Bool.false_ne_true (hover.skip.symm.trans hskip)
  · refine iff_of_true trivial fun hover => ?_
    have hheader' := hover.header
    exact hheader.elim (fun hout => Bool.false_ne_true (hout.symm.trans hover.fragment)) (by omega)
  · exact iff_of_true trivial fun hover =>
      hsize.elim (Nat.not_lt.mpr hover.total) (Nat.not_lt.mpr hover.size)
  · simp only [Step.Sound, Outcome.Sound, sound_append h, hinside, getLast?_concat,
      Option.some.injEq, exists_eq_left', and_self]
    exact ⟨fun hle hover => Nat.not_lt.mpr hle hover.overrun, fun hno => by
      by_contra hlt
      exact hno ⟨by simpa using hskip, by simp_all, by omega, by omega, fun _ => hverifies,
        by omega, by omega⟩⟩
  · exact iff_of_true trivial fun hover => hverifies (hover.last hlast)
  · simp only [Step.Sound, Reader.Sound, sound_append h, hinside]
    exact ⟨fun hle hover => Nat.not_lt.mpr hle hover.overrun, fun hno => by
      by_contra hlt
      exact hno ⟨by simpa using hskip, by simp_all, by omega, by omega, fun h => absurd h hlast,
        by omega, by omega⟩⟩

theorem regularRecord_sound : (f.regularRecord rd pb).Sound := by
  unfold LogFile.regularRecord
  dsimp only
  split
  · trivial
  split
  · trivial
  split
  · trivial
  · have hlt := lt_pbSegmentEnd pb
    refine ⟨fun piece hpiece => ?_, _, rfl, ?_⟩
    · obtain rfl := mem_singleton.mp hpiece
      unfold Piece.Inside
      dsimp only
      omega
    · rw [getLast_singleton]
      dsimp only
      omega

theorem Reader.Sound.step_sound_iff (h : rd.Sound) :
    (f.step rd).Sound ↔ ¬ f.Overruns rd := by
  unfold LogFile.Overruns
  by_cases hlast : f.pbLast ≤ rd.pbCurrent
  · have hnot := Nat.not_lt.mpr hlast
    simp only [LogFile.step, if_pos hlast, hnot, false_and, not_false_eq_true, iff_true]
    trivial
  by_cases hread : f.fRead (pbSegmentOf rd.pbCurrent) = false
  · simp only [LogFile.step, if_neg hlast, hread, Bool.false_eq_true, false_and,
      and_false, not_false_eq_true, iff_true]
    trivial
  have hlt := Nat.lt_of_not_le hlast
  simp only [LogFile.step, if_neg hlast, hread, Bool.true_eq_false, if_false, hlt, true_and]
  generalize LogFile.pbRecord rd.pbCurrent = pb
  by_cases hbegin : f.log pb = lrtypFragmentBegin
  · have hne : lrtypFragmentBegin ≠ lrtypFragment := by decide
    simp only [hbegin, if_true, beginFragment_sound_iff, hne, false_and, or_false, true_and]
  by_cases hfrag : f.log pb = lrtypFragment
  · have hne : lrtypFragment ≠ lrtypFragmentBegin := by decide
    simp only [hfrag, hne, if_false, if_true, h.continueFragment_sound_iff, false_and, false_or,
      true_and]
  · simp only [hbegin, hfrag, if_false, false_and, or_false, not_false_eq_true, iff_true]
    split_ifs
    · exact h
    · exact regularRecord_sound

theorem le_skipNops (log : Memory) (cb pb : Nat) : pb ≤ skipNops log cb pb := by
  induction cb generalizing pb with
  | zero => exact Nat.le_refl pb
  | succ cb ih =>
    unfold skipNops
    split
    · exact Nat.le_of_succ_le (ih (pb + 1))
    · exact Nat.le_refl pb

theorem lt_skipNops {log : Memory} {cb : Nat} (hcb : 0 < cb) (hpb : log pb = lrtypNOP) :
    pb < skipNops log cb pb := by
  obtain ⟨n, rfl⟩ := Nat.exists_eq_succ_of_ne_zero (ne_of_gt hcb)
  unfold skipNops
  rw [if_pos hpb]
  exact le_skipNops log n (pb + 1)

theorem le_pbRecord (pb : Nat) : pb ≤ LogFile.pbRecord pb := by
  unfold LogFile.pbRecord
  split
  · exact Nat.le_add_right _ _
  · exact le_rfl

theorem step_next_lt (h : f.step rd = .next rd') :
    rd.pbCurrent < f.pbLast ∧ rd.pbCurrent < rd'.pbCurrent := by
  have hle := le_pbRecord rd.pbCurrent
  unfold LogFile.step at h
  dsimp only at h
  split_ifs at h with hlast hread hbegin hfrag hnop
  · refine ⟨Nat.lt_of_not_le hlast, ?_⟩
    unfold LogFile.beginFragment at h
    dsimp only at h
    split_ifs at h
    cases h
    dsimp only
    omega
  · refine ⟨Nat.lt_of_not_le hlast, ?_⟩
    unfold LogFile.continueFragment at h
    dsimp only at h
    split_ifs at h <;> cases h <;> dsimp only <;> omega
  · refine ⟨Nat.lt_of_not_le hlast, ?_⟩
    cases h
    have hend := lt_pbSegmentEnd (LogFile.pbRecord rd.pbCurrent)
    exact Nat.lt_of_le_of_lt hle (lt_skipNops (by omega) hnop)
  · unfold LogFile.regularRecord at h
    dsimp only at h
    split_ifs at h

theorem run_ends_of_le (f : LogFile) {n : Nat} (rd : Reader) (hn : f.pbLast - rd.pbCurrent ≤ n) :
    ∃ out, f.run (n + 1) rd = some out := by
  induction n generalizing rd with
  | zero =>
    refine ⟨.noMoreRecords rd.pbNext rd.pbCurrent, ?_⟩
    have hstep : f.step rd = .done (.noMoreRecords rd.pbNext rd.pbCurrent) := by
      unfold LogFile.step
      rw [if_pos (by omega)]
    simp only [LogFile.run, hstep]
  | succ n ih =>
    cases hstep : f.step rd with
    | next rd' =>
      obtain ⟨hlast, hlt⟩ := step_next_lt hstep
      obtain ⟨out, hout⟩ := ih rd' (by omega)
      refine ⟨out, ?_⟩
      rw [LogFile.run, hstep]
      exact hout
    | done out => exact ⟨out, by simp only [LogFile.run, hstep]⟩

theorem fitsAll_record {rgpiece : List Piece} {pbNext pbNextNext : Nat} :
    f.FitsAll (.record rgpiece pbNext pbNextNext) ↔ ∀ piece ∈ rgpiece, f.Fits piece.pbHeader :=
  ⟨fun h => h _ _ _ rfl, fun h _ _ _ heq => by cases heq; exact h⟩

theorem stepOk_of_not_record {out : Outcome}
    (h : ∀ rgpiece pbNext pbNextNext, out ≠ .record rgpiece pbNext pbNextNext) :
    f.StepOk (.done out) := by
  refine iff_of_true ?_ fun _ _ _ heq => absurd heq (h _ _ _)
  cases out with
  | record rgpiece pbNext pbNextNext => exact absurd rfl (h _ _ _)
  | _ => trivial

theorem regularRecord_ok (hbegin : f.log pb ≠ lrtypFragmentBegin)
    (hfrag : f.log pb ≠ lrtypFragment) : f.StepOk (f.regularRecord rd pb) := by
  have hsound : (f.regularRecord rd pb).Sound := regularRecord_sound
  unfold LogFile.regularRecord at hsound ⊢
  dsimp only at hsound ⊢
  split_ifs at hsound ⊢
  · exact stepOk_of_not_record nofun
  · exact stepOk_of_not_record nofun
  · exact stepOk_of_not_record nofun
  all_goals
    refine iff_of_true hsound (fitsAll_record.mpr fun piece hmem => ?_)
    obtain rfl := mem_singleton.mp hmem
    exact ⟨fun h => absurd h hbegin, fun h => absurd h hfrag⟩

section StepOk

variable (hrd : ∀ piece ∈ rd.rgpiece, f.IsFragment piece)
include hrd

theorem continueFragment_ok (hlog : f.log pb = lrtypFragment) :
    f.StepOk (f.continueFragment rd pb) := by
  have hall : ∀ piece ∈ rd.rgpiece ++ [⟨pb, pb + 3, word f.log (pb + 1)⟩],
      f.IsFragment piece := by
    intro piece hmem
    rcases mem_append.mp hmem with hold | hnew
    · exact hrd piece hold
    · obtain rfl := mem_singleton.mp hnew
      exact .inr ⟨hlog, rfl, rfl⟩
  unfold LogFile.continueFragment
  dsimp only
  split_ifs
  · exact hrd
  · exact stepOk_of_not_record nofun
  · exact stepOk_of_not_record nofun
  · refine Iff.trans ?_ fitsAll_record.symm
    simp only [Outcome.Sound, getLast?_concat, Option.some.injEq, exists_eq_left']
    have hlast : (⟨pb, pb + 3, word f.log (pb + 1)⟩ : Piece) ∈ rd.rgpiece ++ [_] :=
      mem_append_right _ (mem_singleton_self _)
    rw [and_iff_left_of_imp fun h => h _ hlast]
    exact forall₂_congr fun piece hmem => (hall piece hmem).inside_iff
  · exact stepOk_of_not_record nofun
  · exact hall

theorem step_ok : f.StepOk (f.step rd) := by
  unfold LogFile.step
  dsimp only
  split_ifs with hlast hread hbegin hfrag hnop
  · exact stepOk_of_not_record nofun
  · exact stepOk_of_not_record nofun
  · unfold LogFile.beginFragment
    dsimp only
    split_ifs
    iterate 4 exact stepOk_of_not_record nofun
    intro piece hmem
    obtain rfl := mem_singleton.mp hmem
    exact .inl ⟨hbegin, rfl, rfl⟩
  · exact continueFragment_ok hrd hfrag
  · exact hrd
  · exact regularRecord_ok hbegin hfrag

end StepOk

theorem run_sound_iff {rounds : Nat} {out : Outcome} (hrun : f.run rounds rd = some out)
    (hrd : ∀ piece ∈ rd.rgpiece, f.IsFragment piece) : out.Sound ↔ f.FitsAll out := by
  induction rounds generalizing rd with
  | zero => cases hrun
  | succ rounds ih =>
    have hok := step_ok hrd
    unfold LogFile.run at hrun
    cases hstep : f.step rd with
    | next rd' =>
      rw [hstep] at hrun hok
      exact ih hrun hok
    | done out' =>
      rw [hstep] at hrun hok
      cases hrun
      exact hok

/-- An `LRTRACE` record in two fragments, the first of which claims the whole rest of its segment
behind the place of its header: it takes the first seven bytes of the next segment. -/
def traceLog : LogFile where
  log := fun
    | 4136 => lrtypFragmentBegin | 4137 => 0xd9 | 4138 => 0x0f | 4141 => 0xd8 | 4142 => 0x0f
    | 4143 => 22 | 4146 => 0xd4 | 4147 => 0x0f
    | 8199 => lrtypFragment | 8200 => 1
    | _ => 0
  pbLast := 16384
  fRead := fun _ => true
  fMemory := fun _ => true
  cbFixedSizeOfRec := fun _ => 5
  cbSizeOfRec := fun lr => 5 + word lr 3

end EseLinux.LogRecord
