import EseLinux.CountedArray

/-!
The delete states of root pages that a revert to a snapshot saves before it applies the snapshot's
root page records, and reads back after a crash (`revertsnapshot.cxx`).

The states go through a counted array into a file with a count and a checksum. They are read back
into another array by a bulk load, and every entry that this array counts is given to the page
cache.
-/

namespace EseLinux.RevertDeleteState

open CountedArray DigitList List

structure RootPageRecord where
  fDeleteOperation : Bool
  pgnoSrc : UInt32
  pgnoDest : UInt32
  deriving DecidableEq, Repr

structure PageFDPDeleteState where
  pgno : UInt32
  fPageFDPDelete : Bool
  deriving DecidableEq, Repr, Inhabited

/-- A page number and a `BOOL`, of four bytes each. -/
def stateBytes (state : PageFDPDeleteState) : List UInt8 :=
  leBytes 4 state.pgno.toNat ++ leBytes 4 state.fPageFDPDelete.toNat

def stateOfBytes (bytes : List UInt8) : PageFDPDeleteState :=
  { pgno := UInt32.ofNat (leNat (bytes.take 4))
    fPageFDPDelete := leNat ((bytes.drop 4).take 4) ≠ 0 }

theorem stateOfBytes_stateBytes (state : PageFDPDeleteState) :
    stateOfBytes (stateBytes state) = state := by
  have hpgno : state.pgno.toNat < 256 ^ 4 := state.pgno.toNat_lt
  have hdelete : leNat (leBytes 4 state.fPageFDPDelete.toNat) = state.fPageFDPDelete.toNat :=
    leNat_leBytes_of_lt (by cases state.fPageFDPDelete <;> decide)
  unfold stateOfBytes stateBytes
  rw [take_left' (leBytes_length 4 _), drop_left' (leBytes_length 4 _),
    take_of_length_le (leBytes_length 4 _).le, leNat_leBytes_of_lt hpgno, hdelete,
    UInt32.ofNat_toNat]
  cases state with
  | mk pgno fPageFDPDelete => cases fPageFDPDelete <;> rfl

def stateCodec : Codec PageFDPDeleteState where
  cb := 8
  bytes := stateBytes
  ofBytes := stateOfBytes
  cb_pos := by decide
  bytes_length := by simp [stateBytes]
  ofBytes_bytes := stateOfBytes_stateBytes

inductive Err where
  | diskRead
  | pageFDPDeleteFileCorrupt
  /-- A read past the end of a buffer. -/
  | accessViolation
  /-- A loop that has not ended. -/
  | running
  deriving DecidableEq, Repr

def cbRBSIOSize : Nat := 512 * 1024

def cbHeader : Nat := 8

def writeAt (image : List UInt8) (ib : Nat) (bytes : List UInt8) : List UInt8 :=
  image.take ib ++ bytes ++ image.drop (ib + bytes.length)

/-- The loop that writes the states behind the header, with its 32-bit offset. -/
def writeStates (data : List UInt8) (cb : Nat) : Nat → Nat → List UInt8 → Except Err (List UInt8)
  | 0, _, _ => .error .running
  | rounds + 1, ibOffset, image =>
    if ibOffset < cb then
      writeStates data cb rounds ((ibOffset + cbRBSIOSize) % 2 ^ 32)
        (writeAt image (cbHeader + ibOffset)
          ((data.drop ibOffset).take (min (cb - ibOffset) cbRBSIOSize)))
    else .ok image

/-- The loop that reads the file; the number of bytes to read is a 32-bit number. -/
def readFile (image : List UInt8) : Nat → Nat → Nat → List UInt8 → Except Err (List UInt8)
  | 0, _, _, _ => .error .running
  | rounds + 1, cbOffset, cbRemaining, pbread =>
    if 0 < cbRemaining then
      let cb := min (cbRemaining % 2 ^ 32) cbRBSIOSize
      readFile image rounds (cbOffset + cb) (cbRemaining - min cbRemaining cbRBSIOSize)
        (writeAt pbread cbOffset ((image.drop cbOffset).take cb))
    else .ok pbread

section Capture

-- `Crc32Checksum`; nothing below depends on which checksum it is
variable (crc32Checksum : List UInt8 → UInt32)

-- whether the page is marked for deletion on disk (`ErrDBDiskPageFDPRootDelete`)
variable (diskPageFDPRootDelete : UInt32 → Except Err Bool)

/-- The loop over the root page records: the destination of every move is looked up. -/
def captureStates : List RootPageRecord → CArray PageFDPDeleteState →
    Except Err (CArray PageFDPDeleteState)
  | [], rgstate => .ok rgstate
  | rec :: recs, rgstate =>
    if rec.fDeleteOperation then captureStates recs rgstate
    else do
      let fDelete ← diskPageFDPRootDelete rec.pgnoDest
      captureStates recs (rgstate.setEntry rgstate.centry ⟨rec.pgnoDest, fDelete⟩)

def rootMoves (recs : List RootPageRecord) : List RootPageRecord :=
  recs.filter fun rec => !rec.fDeleteOperation

/-- `ErrCapturePageFDPDeleteState`: the file after it. An old file is deleted first; without a
root page move nothing is written. -/
def capturePageFDPDeleteState (recs : List RootPageRecord) (file : Option (List UInt8)) :
    Except Err (Option (List UInt8)) :=
  if (rootMoves recs).length = 0 then .ok file
  else do
    let rgstate ← captureStates diskPageFDPRootDelete recs
      (CArray.empty.setCapacity (rootMoves recs).length)
    let data := stateCodec.bytesAll rgstate.entries
    let cb := stateCodec.cb * rgstate.centry % 2 ^ 32
    let image := replicate (cbHeader + cb) 0
    let image := writeAt image 0
      (leBytes 4 rgstate.centry ++ leBytes 4 (crc32Checksum (data.take cb)).toNat)
    let image ← writeStates data cb (cb / cbRBSIOSize + 2) 0 image
    .ok (some image)

/-- The array that `ErrRBSInitRootPageDeleteState` loads from the bytes it has read. -/
def loadStates (pbread : List UInt8) : Except Err (CArray PageFDPDeleteState) :=
  let cPagesCaptured := leNat (pbread.take 4)
  let ulChecksum := leNat ((pbread.drop 4).take 4)
  let rgb := pbread.drop cbHeader
  -- the checksum takes the number of bytes as a 32-bit number, the load as a 64-bit one
  let cbChecksum := cPagesCaptured * stateCodec.cb % 2 ^ 32
  if rgb.length < cbChecksum then .error .accessViolation
  else if ulChecksum ≠ (crc32Checksum (rgb.take cbChecksum)).toNat then
    .error .pageFDPDeleteFileCorrupt
  else if rgb.length < cPagesCaptured * stateCodec.cb then .error .accessViolation
  else
    match CArray.empty.loadEntries stateCodec (rgb.take (cPagesCaptured * stateCodec.cb)) with
    | .error _ => .error .pageFDPDeleteFileCorrupt
    | .ok rgstate => .ok rgstate

/-- `ErrRBSInitRootPageDeleteState`: the states it hands to `ErrAddPage`. -/
def initRootPageDeleteState (file : Option (List UInt8)) :
    Except Err (List PageFDPDeleteState) :=
  match file with
  | none => .ok []
  | some image =>
    if image.length < cbHeader then .error .pageFDPDeleteFileCorrupt
    else do
      let pbread ← readFile image (image.length / cbRBSIOSize + 2) 0 image.length
        (replicate image.length 0)
      let rgstate ← loadStates crc32Checksum pbread
      .ok rgstate.entries

end Capture

section File

theorem writeAt_padding (front bytes : List UInt8) (n : Nat) :
    writeAt (front ++ replicate n 0) front.length bytes =
      front ++ bytes ++ replicate (n - bytes.length) 0 := by
  rw [writeAt, take_left, ← drop_drop, drop_left, drop_replicate]

theorem writeAt_piece (header data : List UInt8) (ib cb : Nat) (hib : ib ≤ data.length) :
    writeAt (header ++ data.take ib ++ replicate (data.length - ib) 0) (header.length + ib)
        ((data.drop ib).take cb) =
      header ++ data.take (ib + cb) ++ replicate (data.length - (ib + cb)) 0 := by
  have hfront : header.length + ib = (header ++ data.take ib).length := by
    rw [length_append, length_take, min_eq_left hib]
  have hpad : data.length - ib - ((data.drop ib).take cb).length = data.length - (ib + cb) := by
    rw [length_take, length_drop]
    omega
  rw [hfront, writeAt_padding, hpad, append_assoc header, ← take_add]

theorem take_min (data : List UInt8) (ib : Nat) :
    (data.drop ib).take (min (data.length - ib) cbRBSIOSize) = (data.drop ib).take cbRBSIOSize := by
  rw [min_comm, ← length_drop, ← take_take, take_length]

theorem writeStates_eq {data header : List UInt8} (hheader : header.length = cbHeader)
    (hcb : data.length + cbRBSIOSize ≤ 2 ^ 32) {rounds ibOffset : Nat}
    (hib : ibOffset < data.length + cbRBSIOSize)
    (hrounds : data.length + cbRBSIOSize ≤ ibOffset + rounds * cbRBSIOSize) :
    writeStates data data.length rounds ibOffset
        (header ++ data.take ibOffset ++ replicate (data.length - ibOffset) 0) =
      .ok (header ++ data) := by
  induction rounds generalizing ibOffset with
  | zero => omega
  | succ rounds ih =>
    rw [writeStates]
    split
    · rename_i hlt
      have hmod : (ibOffset + cbRBSIOSize) % 2 ^ 32 = ibOffset + cbRBSIOSize :=
        Nat.mod_eq_of_lt (by omega)
      rw [← hheader, take_min, writeAt_piece header data ibOffset _ hlt.le, hmod]
      apply ih
      · omega
      · rw [Nat.succ_mul] at hrounds
        omega
    · rename_i hge
      rw [take_of_length_le (by omega), Nat.sub_eq_zero_of_le (by omega),
        replicate_zero, append_nil]

theorem readFile_eq {image : List UInt8} (hlen : image.length < 2 ^ 32) (rounds : Nat)
    {cbOffset : Nat}
    (hoffset : cbOffset ≤ image.length)
    (hrounds : image.length + cbRBSIOSize ≤ cbOffset + rounds * cbRBSIOSize) :
    readFile image rounds cbOffset (image.length - cbOffset)
        (image.take cbOffset ++ replicate (image.length - cbOffset) 0) = .ok image := by
  induction rounds generalizing cbOffset with
  | zero =>
    simp only [cbRBSIOSize] at hrounds
    omega
  | succ rounds ih =>
    rw [readFile]
    split
    · rename_i hlt
      have hmod : (image.length - cbOffset) % 2 ^ 32 = image.length - cbOffset :=
        Nat.mod_eq_of_lt (by omega)
      have hpiece := writeAt_piece [] image cbOffset
        (min (image.length - cbOffset) cbRBSIOSize) hoffset
      simp only [nil_append, length_nil, zero_add] at hpiece
      simp only [hmod, hpiece, Nat.sub_sub]
      rw [Nat.succ_mul] at hrounds
      have hone : cbRBSIOSize ≤ rounds * cbRBSIOSize := by
        apply Nat.le_mul_of_pos_left
        rcases Nat.eq_zero_or_pos rounds with rfl | hpos
        · omega
        · exact hpos
      apply ih
      · omega
      · omega
    · rename_i hge
      rw [take_of_length_le (by omega), Nat.sub_eq_zero_of_le (by omega),
        replicate_zero, append_nil]

end File

section RoundTrip

variable (crc32Checksum : List UInt8 → UInt32)
  {diskPageFDPRootDelete : UInt32 → Except Err Bool}

/-- The states that the records call for: the destination of each move with its mark on disk. -/
def stateOf (diskPageFDPRootDelete : UInt32 → Except Err Bool) (rec : RootPageRecord) :
    Except Err PageFDPDeleteState := do
  let fDelete ← diskPageFDPRootDelete rec.pgnoDest
  return ⟨rec.pgnoDest, fDelete⟩

variable {states : List PageFDPDeleteState} {recs : List RootPageRecord}

theorem mapM_cons_ok {rec : RootPageRecord}
    (h : (rec :: recs).mapM (stateOf diskPageFDPRootDelete) = .ok states) :
    ∃ fDelete rest, diskPageFDPRootDelete rec.pgnoDest = .ok fDelete ∧
      recs.mapM (stateOf diskPageFDPRootDelete) = .ok rest ∧
      states = ⟨rec.pgnoDest, fDelete⟩ :: rest := by
  rw [mapM_cons] at h
  rcases hdisk : diskPageFDPRootDelete rec.pgnoDest with err | fDelete
  · simp [stateOf, hdisk, bind, Except.bind] at h
  · rcases hrest : recs.mapM (stateOf diskPageFDPRootDelete) with err | rest
    · simp [stateOf, hdisk, hrest, bind, Except.bind, pure, Except.pure] at h
    · simp only [stateOf, hdisk, hrest, bind, Except.bind, pure, Except.pure, Except.ok.injEq] at h
      exact ⟨fDelete, rest, rfl, rfl, h.symm⟩

theorem captureStates_entries
    (hstates : (rootMoves recs).mapM (stateOf diskPageFDPRootDelete) = .ok states)
    {rgstate : CArray PageFDPDeleteState} (hgrowth : 0 < rgstate.centryGrowth) :
    ∃ rgstate', captureStates diskPageFDPRootDelete recs rgstate = .ok rgstate' ∧
      rgstate'.entries = rgstate.entries ++ states := by
  induction recs generalizing rgstate states with
  | nil =>
    cases hstates
    exact ⟨rgstate, rfl, by simp⟩
  | cons rec recs ih =>
    by_cases hdelete : rec.fDeleteOperation = true
    · rw [rootMoves, filter_cons_of_neg (by simp [hdelete])] at hstates
      obtain ⟨rgstate', hcapture, hentries⟩ := ih hstates hgrowth
      exact ⟨rgstate', by rw [captureStates, if_pos hdelete, hcapture], hentries⟩
    · rw [rootMoves, filter_cons_of_pos (by simp [hdelete])] at hstates
      obtain ⟨fDelete, rest, hdisk, hrest, rfl⟩ := mapM_cons_ok hstates
      have hgrowth' :
          0 < (rgstate.setEntry rgstate.centry ⟨rec.pgnoDest, fDelete⟩).centryGrowth := by
        rw [CArray.setEntry_growth]
        exact hgrowth
      obtain ⟨rgstate', hcapture, hentries⟩ := ih hrest hgrowth'
      refine ⟨rgstate', ?_, ?_⟩
      · rw [captureStates, if_neg hdelete, hdisk]
        exact hcapture
      · rw [hentries, CArray.entries_setEntry_size _ hgrowth, append_assoc,
          singleton_append]

/-- A load into an empty array counts nothing, so that nothing is restored from any file. -/
theorem loadStates_entries {pbread : List UInt8} {rgstate : CArray PageFDPDeleteState}
    (h : loadStates crc32Checksum pbread = .ok rgstate) : rgstate.entries = [] := by
  simp only [loadStates] at h
  split at h
  · cases h
  · split at h
    · cases h
    · split at h
      · cases h
      · split at h
        · cases h
        · rename_i hload
          cases h
          rw [CArray.entries, (CArray.loadEntries_spec hload).1]
          rfl

theorem initRootPageDeleteState_nil {file : Option (List UInt8)}
    {restored : List PageFDPDeleteState}
    (h : initRootPageDeleteState crc32Checksum file = .ok restored) : restored = [] := by
  cases file with
  | none =>
    cases h
    rfl
  | some image =>
    simp only [initRootPageDeleteState] at h
    split at h
    · cases h
    · simp only [bind, Except.bind] at h
      split at h
      · cases h
      · split at h
        · cases h
        · rename_i hload
          cases h
          exact loadStates_entries crc32Checksum hload

/-- The bytes of the file: the number of states, their checksum, and the states. -/
def fileBytes (states : List PageFDPDeleteState) : List UInt8 :=
  leBytes 4 states.length ++
    leBytes 4 (crc32Checksum (stateCodec.bytesAll states)).toNat ++ stateCodec.bytesAll states

theorem mapM_length (h : recs.mapM (stateOf diskPageFDPRootDelete) = .ok states) :
    states.length = recs.length := by
  induction recs generalizing states with
  | nil =>
    cases h
    rfl
  | cons rec recs ih =>
    obtain ⟨fDelete, rest, -, hrest, rfl⟩ := mapM_cons_ok h
    rw [length_cons, length_cons, ih hrest]

theorem capture_eq (hstates : (rootMoves recs).mapM (stateOf diskPageFDPRootDelete) = .ok states)
    (hne : states ≠ []) (hcb : states.length * 8 + cbRBSIOSize ≤ 2 ^ 32)
    (file : Option (List UInt8)) :
    capturePageFDPDeleteState crc32Checksum diskPageFDPRootDelete recs file =
      .ok (some (fileBytes crc32Checksum states)) := by
  have hmoves : ¬ (rootMoves recs).length = 0 := by
    rw [← mapM_length hstates, length_eq_zero_iff]
    exact hne
  have hgrowth : 0 < ((CArray.empty : CArray PageFDPDeleteState).setCapacity
      (rootMoves recs).length).centryGrowth := by
    rw [CArray.setCapacity_growth]
    decide
  obtain ⟨rgstate, hcapture, hentries⟩ := captureStates_entries hstates hgrowth
  have hempty : ((CArray.empty : CArray PageFDPDeleteState).setCapacity
      (rootMoves recs).length).entries = [] := CArray.setCapacity_entries _ (Nat.zero_le _)
  rw [hempty, nil_append] at hentries
  have hcentry : rgstate.centry = states.length := by
    rw [← rgstate.entries_length, hentries]
  have hdata : (stateCodec.bytesAll states).length = states.length * 8 :=
    stateCodec.bytesAll_length states
  have hmod : stateCodec.cb * rgstate.centry % 2 ^ 32 = (stateCodec.bytesAll states).length := by
    rw [hdata, hcentry, show stateCodec.cb = 8 from rfl, Nat.mul_comm, Nat.mod_eq_of_lt]
    have : 0 < cbRBSIOSize := by decide
    omega
  have hwrite (data header : List UInt8) (hheader : header.length = cbHeader)
      (hmax : data.length + cbRBSIOSize ≤ 2 ^ 32) :
      writeStates data data.length (data.length / cbRBSIOSize + 2) 0
        (writeAt (replicate (cbHeader + data.length) 0) 0 header) = .ok (header ++ data) := by
    have hstart : writeAt (replicate (cbHeader + data.length) 0) 0 header =
        header ++ data.take 0 ++ replicate (data.length - 0) 0 := by
      have h := writeAt_padding [] header (cbHeader + data.length)
      simp only [nil_append, length_nil, hheader, Nat.add_sub_cancel_left] at h
      rw [h, take_zero, append_nil, Nat.sub_zero]
    rw [hstart]
    apply writeStates_eq hheader
    · omega
    · have : 0 < cbRBSIOSize := by decide
      omega
    · have := Nat.lt_div_mul_add (a := data.length) (show 0 < cbRBSIOSize by decide)
      rw [Nat.add_mul]
      omega
  rw [capturePageFDPDeleteState, if_neg hmoves, hcapture]
  simp only [bind, Except.bind, hentries, hmod, take_length]
  rw [hwrite _ _ (by simp [cbHeader]) (by omega), hcentry]
  rfl

theorem loadStates_fileBytes (states : List PageFDPDeleteState)
    (hcb : states.length * 8 < 2 ^ 32) :
    ∃ rgstate, loadStates crc32Checksum (fileBytes crc32Checksum states) = .ok rgstate ∧
      rgstate.rgentry = states ∧ rgstate.centry = 0 := by
  have hdata : (stateCodec.bytesAll states).length = states.length * 8 :=
    stateCodec.bytesAll_length states
  have hcount : leNat ((fileBytes crc32Checksum states).take 4) = states.length := by
    rw [fileBytes, append_assoc, take_left' (leBytes_length 4 _),
      leNat_leBytes_of_lt (by omega)]
  have hsum : leNat (((fileBytes crc32Checksum states).drop 4).take 4) =
      (crc32Checksum (stateCodec.bytesAll states)).toNat := by
    rw [fileBytes, append_assoc, drop_left' (leBytes_length 4 _),
      take_left' (leBytes_length 4 _), leNat_leBytes_of_lt (UInt32.toNat_lt _)]
  have hrgb : (fileBytes crc32Checksum states).drop cbHeader = stateCodec.bytesAll states := by
    rw [fileBytes, drop_left' (by simp [cbHeader])]
  have hload : (CArray.empty : CArray PageFDPDeleteState).loadEntries stateCodec
      (stateCodec.bytesAll states) ≠ .error .invalidData := by
    unfold CArray.loadEntries
    rw [if_neg (by rw [hdata]; simp [stateCodec])]
    intro h
    cases h
  simp only [loadStates, hcount, hsum, hrgb]
  rw [show states.length * stateCodec.cb = states.length * 8 from rfl, Nat.mod_eq_of_lt hcb,
    ← hdata,
    if_neg (lt_irrefl _), take_length, if_neg (not_not_intro rfl), if_neg (lt_irrefl _)]
  rcases hrun : (CArray.empty : CArray PageFDPDeleteState).loadEntries stateCodec
      (stateCodec.bytesAll states) with err | rgstate
  · cases err
    exact absurd hrun hload
  · obtain ⟨hcentry, hentries⟩ := CArray.loadEntries_spec hrun
    refine ⟨rgstate, rfl, ?_, hcentry⟩
    rw [hentries, stateCodec.ofBytesAll_bytesAll]
    rfl

theorem initRootPageDeleteState_fileBytes (hcb : states.length * 8 + cbRBSIOSize ≤ 2 ^ 32) :
    initRootPageDeleteState crc32Checksum (some (fileBytes crc32Checksum states)) = .ok [] := by
  have hio : cbRBSIOSize = 524288 := rfl
  have hlen : (fileBytes crc32Checksum states).length = 8 + states.length * 8 := by
    simp only [fileBytes, length_append, leBytes_length, stateCodec.bytesAll_length]
    rfl
  obtain ⟨rgstate, hload, -, hcentry⟩ := loadStates_fileBytes crc32Checksum states (by omega)
  have hread := readFile_eq (show (fileBytes crc32Checksum states).length < 2 ^ 32 by omega)
    ((fileBytes crc32Checksum states).length / cbRBSIOSize + 2) (Nat.zero_le _)
    (by rw [hio]; omega)
  simp only [take_zero, nil_append, Nat.sub_zero] at hread
  rw [initRootPageDeleteState, if_neg (by rw [hlen, cbHeader]; omega), hread]
  simp only [bind, Except.bind, hload]
  rw [CArray.entries, hcentry, take_zero]

/-- A capture followed by a restart restores the states that were captured, and no others. -/
def Restores (diskPageFDPRootDelete : UInt32 → Except Err Bool) (recs : List RootPageRecord) :
    Prop :=
  ∃ states file restored, (rootMoves recs).mapM (stateOf diskPageFDPRootDelete) = .ok states ∧
    capturePageFDPDeleteState crc32Checksum diskPageFDPRootDelete recs none = .ok file ∧
    initRootPageDeleteState crc32Checksum file = .ok restored ∧
    ∀ state, state ∈ restored ↔ state ∈ states

/-- The states survive a restart only if there is none: when every root page record is a
deletion. -/
theorem restores_iff (diskPageFDPRootDelete : UInt32 → Except Err Bool)
    (recs : List RootPageRecord) :
    Restores crc32Checksum diskPageFDPRootDelete recs ↔
      ∀ rec ∈ recs, rec.fDeleteOperation = true := by
  have hmoves : (∀ rec ∈ recs, rec.fDeleteOperation = true) ↔ rootMoves recs = [] := by
    simp [rootMoves]
  rw [hmoves]
  constructor
  · rintro ⟨states, file, restored, hstates, -, hinit, hmem⟩
    have hnil : restored = [] := initRootPageDeleteState_nil crc32Checksum hinit
    have hnone : states = [] := by
      apply eq_nil_iff_forall_not_mem.mpr
      intro state hstate
      rw [← hmem, hnil] at hstate
      exact not_mem_nil hstate
    have hlen := mapM_length hstates
    rw [hnone, length_nil] at hlen
    exact length_eq_zero_iff.mp hlen.symm
  · intro hnil
    refine ⟨[], none, [], ?_, ?_, rfl, fun state => Iff.rfl⟩
    · rw [hnil]
      rfl
    · rw [capturePageFDPDeleteState, hnil, if_pos length_nil]

end RoundTrip

theorem deletion_restores : Restores (fun _ => 0) (fun _ => .ok true) [⟨true, 5, 7⟩] :=
  (restores_iff _ _ _).mpr (by simp)

/-- One root page that is moved to page 7, which is marked for deletion: its state is captured and
saved, and the restart accepts the file and restores nothing. -/
theorem oneMove_lost :
    (rootMoves [⟨false, 5, 7⟩]).mapM (stateOf fun _ => .ok true) = .ok [⟨7, true⟩] ∧
      ∀ crc32Checksum : List UInt8 → UInt32,
        capturePageFDPDeleteState crc32Checksum (fun _ => .ok true) [⟨false, 5, 7⟩] none =
            .ok (some (fileBytes crc32Checksum [⟨7, true⟩])) ∧
          initRootPageDeleteState crc32Checksum
            (some (fileBytes crc32Checksum [⟨7, true⟩])) = .ok [] := by
  refine ⟨rfl, fun crc32Checksum => ⟨?_, ?_⟩⟩
  · exact capture_eq crc32Checksum rfl (by simp) (by decide) none
  · exact initRootPageDeleteState_fileBytes crc32Checksum (by decide)

end EseLinux.RevertDeleteState
