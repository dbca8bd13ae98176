import EseLinux.LogLayout

/-!
Reading over a record that a dirty shutdown left torn.  Behind the segments that reached the disk
the log goes on with the records of the undo phase.
-/

namespace EseLinux.LogRecord

open ByteMemory List

/-- Complete records, a torn one, and the records written behind it at the next segment. -/
structure TornLog (f : LogFile) where
  pos : Nat
  posTorn : Nat
  posSegment : Nat
  posEnd : Nat
  before : List (List UInt8 × Nat)
  undo : List UInt8
  after : List (List UInt8 × Nat)
  laid_before : LaidAll f.log pos before posTorn
  torn : Torn f.log posTorn posSegment
  laid_after : LaidAll f.log posSegment ((undo, posSegment) :: after) posEnd
  ends : f.EndsAt posEnd
  isRecord_before : ∀ r ∈ before, f.IsRecord r.1
  isRecord_after : ∀ r ∈ (undo, posSegment) :: after, f.IsRecord r.1
  isUndo : IsUndo undo
  /-- Of the three types only this one can be fragmented. -/
  undoInfo : 4056 < undo.length → undo.head? = some lrtypUndoInfo

variable {f : LogFile} {pbNext : Nat}

theorem readOn_mono {n m pbNextNext : Nat} {recs : List (List UInt8 × Nat)}
    (h : f.readOn n pbNext pbNextNext = some recs) (hle : n ≤ m) :
    f.readOn m pbNext pbNextNext = some recs := by
  induction n generalizing m pbNext pbNextNext recs with
  | zero => cases h
  | succ n ih =>
    obtain ⟨k, rfl⟩ := Nat.exists_eq_add_of_le' (le_trans (Nat.le_add_left 1 n) hle)
    unfold LogFile.readOn at h ⊢
    split at h
    case h_1 lr pbNext' pbNextNext' hnext =>
      obtain ⟨rest, hrest, rfl⟩ := Option.map_eq_some_iff.mp h
      rw [ih hrest (Nat.le_of_succ_le_succ hle)]
      rfl
    · exact h
    · cases h

theorem readLog_unique {csecHeader isec n m : Nat} {recs recs' : List (List UInt8 × Nat)}
    (h : f.readLog csecHeader isec n = some recs) (h' : f.readLog csecHeader isec m = some recs') :
    recs = recs' := by
  unfold LogFile.readLog at h h'
  split at h
  case h_1 lr pbNext pbNextNext hlocate =>
    rw [hlocate] at h'
    obtain ⟨rest, hrest, rfl⟩ := Option.map_eq_some_iff.mp h
    obtain ⟨rest', hrest', rfl⟩ := Option.map_eq_some_iff.mp h'
    have hmax := readOn_mono hrest (le_max_left n m)
    rw [readOn_mono hrest' (le_max_right n m)] at hmax
    rw [Option.some.inj hmax]
  · cases h

theorem readOn_end (hf : f.Readable) {pos : Nat} (h : f.EndsAt pos) (hle : pbNext ≤ pos) :
    f.readOn 1 pbNext pos = some [] := by
  rw [LogFile.readOn, h.getNext hf hle]

namespace TornLog

variable (t : TornLog f)

def posReported : Nat := if t.undo.length ≤ 4056 then t.posSegment else t.posTorn

theorem reads (hf : f.Readable) (fSkipPartialLR : Bool) : ∃ rgpiece mid,
    f.Reads ⟨t.posTorn, t.posTorn, false, fSkipPartialLR, 0, []⟩
      (.record rgpiece t.posReported mid) ∧
    assembled f.log rgpiece = t.undo ∧ LaidAll f.log mid t.after t.posEnd ∧
    t.posReported ≤ mid ∧ t.posTorn < f.pbLast := by
  obtain ⟨-, mid, hlaid, hall⟩ := t.laid_after
  have hrec := t.isRecord_after _ mem_cons_self
  have hmid := le_trans hall.le t.ends.le
  have hlt := hlaid.le.2 hrec.ne_nil
  obtain ⟨htorn, hdvd⟩ := t.torn.lt
  obtain ⟨rd, hleft⟩ :=
    @Torn.leads f ⟨t.posTorn, t.posTorn, false, fSkipPartialLR, 0, []⟩ _ _ t.torn
    hf (by omega) rfl rfl
  obtain ⟨rgpiece, hreads, heq⟩ := hlaid.reads hf hmid hrec hleft.pbCurrent
    (.inr ⟨hdvd, t.isUndo, t.undoInfo⟩)
  refine ⟨rgpiece, mid, ?_, heq, hall, ?_, by omega⟩
  · have hposition := hleft.reads _ hreads
    simp only [hleft.fInFragment, hleft.pbNext, true_and] at hposition
    exact hposition
  · unfold posReported
    split <;> omega

theorem readOn_after (hf : f.Readable) {mid : Nat} (h : LaidAll f.log mid t.after t.posEnd)
    (hle : pbNext ≤ mid) : f.readOn (t.after.length + 1) pbNext mid = some t.after := by
  have hread := h.readOn_append hf t.ends.le
    (fun r hr => t.isRecord_after r (mem_cons_of_mem _ hr))
    (fun _ hend => readOn_end hf t.ends hend) hle
  rwa [append_nil] at hread

theorem readLog_eq (hf : f.Readable) {csecHeader isec : Nat} (hheader : csecHeader ≤ isec)
    (hpos : t.pos = isec * 4096) : ∃ records,
    f.readLog csecHeader isec records = some (t.before ++ (t.undo, t.posReported) :: t.after) := by
  have hbefore := t.laid_before
  have hrecs := t.isRecord_before
  cases hcases : t.before with
  | nil =>
    rw [hcases] at hbefore
    obtain ⟨rgpiece, mid, hreads, heq, hall, hle, hlast⟩ := t.reads hf true
    have hstart : t.posTorn = isec * 4096 := hbefore.trans hpos
    rw [hstart] at hreads hlast
    refine ⟨t.after.length + 1, ?_⟩
    unfold LogFile.readLog
    rw [locate_of_reads hf hheader hlast hreads]
    dsimp only
    rw [t.readOn_after hf hall hle, heq]
    rfl
  | cons r before =>
    rw [hcases] at hbefore hrecs
    obtain ⟨hlgpos, mid, hlaid, hall⟩ := hbefore
    have hrec := hrecs r mem_cons_self
    have hlast : t.posTorn ≤ f.pbLast := by
      obtain ⟨-, -, -, -, -, -, hlt⟩ := t.reads hf true
      exact hlt.le
    have hlt := hlaid.le.2 hrec.ne_nil
    have hmid := hall.le
    obtain ⟨rgpiece, hreads, heq⟩ := @Laid.reads f ⟨t.pos, t.pos, false, true, 0, []⟩ _ _ _ hlaid hf
      (hmid.trans hlast) hrec rfl (.inl rfl)
    rw [if_neg (by simp)] at hreads
    have htorn : ∀ pbNext, pbNext ≤ t.posTorn → f.readOn (t.after.length + 1 + 1) pbNext t.posTorn =
          some ((t.undo, t.posReported) :: t.after) := by
      intro pbNext hle
      obtain ⟨rgpiece', mid', hreads', heq', hall', hle', hlast'⟩ := t.reads hf false
      rw [LogFile.readOn, getNext_of_reads hle hlast' hreads']
      dsimp only
      rw [t.readOn_after hf hall' hle', heq']
      rfl
    have hrest := hall.readOn_append hf hlast (fun s hs => hrecs s (mem_cons_of_mem r hs))
      htorn (hlt.le)
    refine ⟨before.length + (t.after.length + 1 + 1), ?_⟩
    unfold LogFile.readLog
    rw [hpos] at hreads hrest hlgpos
    rw [locate_of_reads hf hheader (by omega) hreads]
    dsimp only
    rw [hrest, heq, ← hlgpos]
    rfl

end TornLog

/-- Reading returns the complete records and those behind the torn one; these are all at the
positions they were logged at just if the first of them is not fragmented. -/
theorem torn_read_iff (f : LogFile) (hf : f.Readable) (t : TornLog f) (csecHeader isec : Nat)
    (hheader : csecHeader ≤ isec) (hpos : t.pos = isec * 4096) :
    (∃ records lgpos, f.readLog csecHeader isec records =
        some (t.before ++ (t.undo, lgpos) :: t.after)) ∧
      ((∃ records, f.readLog csecHeader isec records =
          some (t.before ++ (t.undo, t.posSegment) :: t.after)) ↔ t.undo.length ≤ 4056) := by
  obtain ⟨records, hread⟩ := t.readLog_eq hf hheader hpos
  refine ⟨⟨records, _, hread⟩, ?_, ?_⟩
  · rintro ⟨records', hread'⟩
    have heq := append_cancel_left (readLog_unique hread hread')
    simp only [cons.injEq, Prod.mk.injEq, true_and, and_true] at heq
    by_contra hlong
    unfold TornLog.posReported at heq
    rw [if_neg hlong] at heq
    exact ne_of_lt t.torn.lt.1 heq
  · intro hshort
    refine ⟨records, ?_⟩
    rw [hread]
    unfold TornLog.posReported
    rw [if_pos hshort]

/-- A torn record in the first segment, and an `LRUNDOINFO` in two fragments behind it. -/
def undoInfoLog : LogFile where
  log := fun
    | 4136 => lrtypFragmentBegin | 4137 => 0x88 | 4138 => 0x13 | 4141 => 0xd1 | 4142 => 0x0f
    | 8232 => lrtypFragmentBegin | 8233 => 0xd9 | 8234 => 0x0f | 8237 => 0xd1 | 8238 => 0x0f
    | 8239 => lrtypUndoInfo | 8293 => 0xa1 | 8294 => 0x0f
    | 12328 => lrtypFragment | 12329 => 8
    | _ => 0
  pbLast := 16384
  fRead := fun _ => true
  fMemory := fun _ => true
  cbFixedSizeOfRec := fun _ => 56
  cbSizeOfRec := fun lr => 56 + word lr 54 + word lr 44 + word lr 46

def undoInfo : List UInt8 := slice undoInfoLog.log 8239 4049 ++ slice undoInfoLog.log 12331 8

theorem undoInfo_eq : undoInfo =
    lrtypUndoInfo :: (slice undoInfoLog.log 8240 4048 ++ slice undoInfoLog.log 12331 8) := by
  have hsplit := slice_append undoInfoLog.log 8239 1 4048
  rw [show slice undoInfoLog.log 8239 1 = [lrtypUndoInfo] by decide, singleton_append] at hsplit
  rw [undoInfo, ← hsplit, cons_append]

theorem length_undoInfo : undoInfo.length = 4057 := by
  rw [undoInfo, length_append, slice_length, slice_length]

theorem undoInfo_isRecord : undoInfoLog.IsRecord undoInfo where
  lrtyp := ⟨_, _, undoInfo_eq, by decide, by decide, by decide, by decide⟩
  length_lt := by
    rw [length_undoInfo]
    decide
  fixedSize := by
    intro lr _
    rw [length_undoInfo]
    exact show 56 ≤ 4057 by decide
  size := by
    intro lr hlr
    have hbyte k (hk : k < 4049) : lr k = undoInfoLog.log (8239 + k) := by
      have hget := congrArg (fun l => l.getD k 0) hlr
      simp only [getD_eq_getElem?_getD, undoInfo] at hget
      rw [getElem?_append_left (by rw [slice_length]; exact hk),
        getElem?_eq_getElem (by rw [slice_length, length_append, slice_length]; omega),
        getElem?_eq_getElem (by rw [slice_length]; exact hk), slice_getElem, slice_getElem,
        zero_add] at hget
      exact hget
    rw [length_undoInfo]
    show 56 + word lr 54 + word lr 44 + word lr 46 = 4057
    unfold word
    rw [hbyte 54 (by decide), hbyte 55 (by decide), hbyte 44 (by decide), hbyte 45 (by decide),
      hbyte 46 (by decide), hbyte 47 (by decide)]
    rfl

def undoInfoTorn : TornLog undoInfoLog where
  pos := 4096
  posTorn := 4096
  posSegment := 8192
  posEnd := 12339
  before := []
  undo := undoInfo
  after := []
  laid_before := rfl
  torn := @Torn.begun undoInfoLog.log 4096 8192 4049 951 (by decide) (by decide) (by decide)
    (by decide) (.here (by decide))
  laid_after := ⟨rfl, 12339, @Laid.fragmented undoInfoLog.log 8192 12339
    (slice undoInfoLog.log 8239 4049) (slice undoInfoLog.log 12331 8) (by decide)
    (by rw [slice_length]; decide) (by rw [slice_length, slice_length]; decide)
    (by rw [slice_length, slice_length]; decide) (by rw [slice_length]; rfl)
    (@LaidRest.last undoInfoLog.log 12288 (slice undoInfoLog.log 12331 8) (by decide) (by decide)
      (by rw [slice_length])), rfl⟩
  ends := by
    refine .inr ⟨by decide, fun i hlo hhi => ?_⟩
    have hlo' : 12339 ≤ i := hlo
    show undoInfoLog.log i = 0
    unfold undoInfoLog
    dsimp only
    split <;> first | omega | rfl
  isRecord_before := nofun
  isRecord_after := by
    intro r hr
    rw [mem_singleton] at hr
    rw [hr]
    exact undoInfo_isRecord
  isUndo := .inr (.inr (by rw [undoInfo_eq]; rfl))
  undoInfo := fun _ => by rw [undoInfo_eq]; rfl

theorem undoInfoLog_readable : undoInfoLog.Readable := ⟨fun _ _ => rfl, fun _ => rfl⟩

/-- The record of the undo phase is reported at the position of the torn one. -/
theorem undoInfo_read_at_torn :
    (∃ records, undoInfoLog.readLog 1 1 records = some [(undoInfo, 4096)]) ∧
    ¬ ∃ records, undoInfoLog.readLog 1 1 records = some [(undoInfo, 8192)] := by
  have hposition : undoInfoTorn.posReported = 4096 := by
    unfold TornLog.posReported
    exact if_neg (by show ¬ undoInfo.length ≤ 4056; rw [length_undoInfo]; decide)
  obtain ⟨records, hread⟩ := undoInfoTorn.readLog_eq undoInfoLog_readable (Nat.le_refl 1) rfl
  rw [hposition] at hread
  refine ⟨⟨records, hread⟩, ?_⟩
  rintro ⟨records', hread'⟩
  have heq := readLog_unique hread hread'
  simp [undoInfoTorn] at heq

theorem undoInfo_torn_read_iff :
    (∃ records lgpos, undoInfoLog.readLog 1 1 records = some [(undoInfo, lgpos)]) ∧
      ((∃ records, undoInfoLog.readLog 1 1 records = some [(undoInfo, 8192)]) ↔
        undoInfo.length ≤ 4056) :=
  torn_read_iff undoInfoLog undoInfoLog_readable undoInfoTorn 1 1 (le_rfl) rfl

end EseLinux.LogRecord
