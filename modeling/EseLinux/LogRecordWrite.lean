import EseLinux.ByteMemory

/-!
Copying log records into the log buffer (`LOG_WRITE_BUFFER::FLGIAddLogRec`).  The buffer is a ring
of segments; a record that does not fit into the rest of a segment is cut into fragments, or the
rest of the segment is filled if it is too small for one.  Pointers are offsets from `m_pbLGBufMin`.
-/

namespace EseLinux.LogRecord

open ByteMemory List

/-- `LOG_SEGMENT_SIZE` -/
def cbSec : Nat := 4096

/-- `sizeof( LGSEGHDR )`; the time stands behind the checksum and the position. -/
def cbSegHdr : Nat := 40

def ibLogtime : Nat := 16

/-- `LOG_MIN_FRAGMENT_SIZE` -/
def cbMinFragment : Nat := 32

def lrtypNOP : UInt8 := 0
def lrtypFragmentBegin : UInt8 := 76
def lrtypFragment : UInt8 := 77

def le16 (n : Nat) : List UInt8 := [UInt8.ofNat n, UInt8.ofNat (n / 256)]

def le32 (n : Nat) : List UInt8 := le16 n ++ le16 (n / 65536)

/-- `LRFRAGMENTBEGIN` -/
def fragmentBegin (cbTotal cbFragment : Nat) : List UInt8 :=
  lrtypFragmentBegin :: (le32 cbTotal ++ le16 cbFragment)

/-- `LRFRAGMENT` -/
def fragment (cbFragment : Nat) : List UInt8 := lrtypFragment :: le16 cbFragment

structure Ring where
  cbLGBuf : Nat
  pos : 0 < cbLGBuf
  dvd : cbSec ∣ cbLGBuf

/-- The variables while a record is copied; of its pieces those that are left. -/
structure Copy where
  pbET : Nat
  pbWrapWrite : Nat
  buf : Memory
  rgdata : List (List UInt8)
  cbNeeded : Nat
  fFragmented : Bool

/-- What the passes are given: where the write pointer is, and the time at each segment. -/
structure Pass where
  fAllocOnly : Bool
  pbWrite : Nat
  logtime : Nat → Fin 8 → UInt8

variable (r : Ring) (p : Pass)

namespace Copy

/-- Bytes are stored unless there is only allocation; the pointer moves in either case. -/
def put (c : Copy) (ib : Nat) (bs : List UInt8) (cb : Nat) : Copy :=
  { c with
    pbET := c.pbET + cb
    buf := if p.fAllocOnly then c.buf else store c.buf (c.pbET + ib) bs }

def segmentHeader (c : Copy) : Copy :=
  c.put p ibLogtime (ofFn (p.logtime c.pbET)) cbSegHdr

def wrap (c : Copy) : Copy :=
  if r.cbLGBuf ≤ c.pbET then
    { c with pbET := c.pbET - r.cbLGBuf, pbWrapWrite := p.pbWrite }
  else c

def enter (c : Copy) : Copy × Nat :=
  if cbSec - c.pbET % cbSec = cbSec then (c.segmentHeader p, cbSec - cbSegHdr)
  else (c, cbSec - c.pbET % cbSec)

def fill (c : Copy) (cbSegRemain : Nat) : Option (Copy × Nat) :=
  if cbSegRemain < c.cbNeeded ∧ cbSegRemain < cbMinFragment then
    let c := c.put p 0 (replicate cbSegRemain lrtypNOP) cbSegRemain
    if c.pbWrapWrite ≤ c.pbET then none
    else some ((c.wrap r p).segmentHeader p, cbSec - cbSegHdr)
  else some (c, cbSegRemain)

def firstFragment (c : Copy) (cbSegRemain : Nat) : Copy × Nat :=
  if cbSegRemain < c.cbNeeded then
    ({ c.put p 0 (fragmentBegin c.cbNeeded (cbSegRemain - 7)) 7 with fFragmented := true },
      cbSegRemain - 7)
  else (c, cbSegRemain)

def nextFragment (c : Copy) (cbSegRemain : Nat) : Copy × Nat :=
  (c.put p 0 (fragment (min c.cbNeeded (cbSegRemain - 3))) 3, cbSegRemain - 3)

def copyData : List (List UInt8) → Nat → Copy → Copy
  | [], _, c => { c with rgdata := [] }
  | data :: rgdata, cbSegRemain, c =>
    if c.cbNeeded = 0 ∨ cbSegRemain = 0 then { c with rgdata := data :: rgdata }
    else
      let cbToCopy := min data.length cbSegRemain
      let c := { c.put p 0 (data.take cbToCopy) cbToCopy with cbNeeded := c.cbNeeded - cbToCopy }
      if cbToCopy = data.length then copyData rgdata (cbSegRemain - cbToCopy) c
      else { c with rgdata := data.drop cbToCopy :: rgdata }

def round (c : Copy) : Option Copy :=
  if c.pbWrapWrite ≤ c.pbET + c.cbNeeded then none
  else
    let (c, cbSegRemain) := c.enter p
    let head :=
      if c.fFragmented then some (c.nextFragment p cbSegRemain)
      else (c.fill r p cbSegRemain).map fun (c, cbSegRemain) => c.firstFragment p cbSegRemain
    head.map fun (c, cbSegRemain) => (copyData p c.rgdata cbSegRemain c).wrap r p

/-- A record, for at most so many rounds; the inner result is none if there is no room. -/
def copyRecord : Nat → Copy → Option (Option Copy)
  | 0, _ => none
  | rounds + 1, c =>
    if c.cbNeeded = 0 then some (some c)
    else
      match c.round r p with
      | none => some none
      | some c => copyRecord rounds c

end Copy

/-- The pieces of the next record, whose size `CbLGSizeOfRec` finds in its first bytes. -/
def takeRecord (cbSizeOfRec : List UInt8 → Int) :
    Int → List (List UInt8) → List (List UInt8) × List (List UInt8)
  | _, [] => ([], [])
  | cbRecordLeft, data :: rgdata =>
    let cbRecordLeft := (if cbRecordLeft = 0 ∧ data.length ≠ 0 then cbSizeOfRec data
      else cbRecordLeft) - data.length
    match rgdata with
    | [] => ([data], [])
    | next :: _ =>
      if 0 < cbRecordLeft ∨ next.length = 0 then
        let (record, rest) := takeRecord cbSizeOfRec cbRecordLeft rgdata
        (data :: record, rest)
      else ([data], rgdata)

def addRecords (cbSizeOfRec : List UInt8 → Int) (rounds : Nat) :
    Nat → List (List UInt8) → Copy → Option (Option Copy)
  | 0, _, _ => none
  | records + 1, rgdata, c =>
    if rgdata = [] then some (some c)
    else
      let (record, rest) := takeRecord cbSizeOfRec 0 rgdata
      let cbNeeded := (record.map length).sum
      if r.cbLGBuf ≤ cbNeeded then some none
      else
        match ({ c with rgdata := record, cbNeeded, fFragmented := false } : Copy).copyRecord r p
            rounds with
        | none => none
        | some none => some none
        | some (some c) => addRecords cbSizeOfRec rounds records rest c

/-- `FLGIAddLogRec` from an entry point: the end point and the buffer, or none for no room. -/
def fLGIAddLogRec (cbSizeOfRec : List UInt8 → Int) (rounds records : Nat)
    (rgdata : List (List UInt8)) (buf : Memory) (pbET : Nat) : Option (Option (Nat × Memory)) :=
  let pbWrapWrite := if p.pbWrite ≤ pbET then p.pbWrite + r.cbLGBuf else p.pbWrite
  match addRecords r p cbSizeOfRec rounds records rgdata ⟨pbET, pbWrapWrite, buf, [], 0, false⟩ with
  | none => none
  | some none => some none
  | some (some c) =>
    if c.pbET = c.pbWrapWrite then some none else some (some (c.pbET, c.buf))

/-- The bytes of the ring from one point up to another, both counted on over the end. -/
def Between (r : Ring) (start x i : Nat) : Prop :=
  (start ≤ i ∧ i < x ∧ i < r.cbLGBuf) ∨ i + r.cbLGBuf < x

/-- Two passes from one start, up to their limits: the write pointer of the second is not before
that of the first. -/
structure Passes (r : Ring) where
  start : Nat
  first : Pass
  second : Pass
  buf : Memory
  buf' : Memory
  limit : Nat
  limit' : Nat
  first_alloc : first.fAllocOnly = true
  second_copies : second.fAllocOnly = false
  start_lt : start < r.cbLGBuf
  dvd : cbSec ∣ limit
  le : limit ≤ limit'
  limit_le : limit ≤ start + r.cbLGBuf
  /-- If the first pass gets to the end of the buffer, both go on up to their write pointers. -/
  wraps : limit < r.cbLGBuf ∨
    (first.pbWrite + r.cbLGBuf = limit ∧ second.pbWrite + r.cbLGBuf = limit')

variable {r} {s : Passes r} {x cb cbSegRemain : Nat} {c c₁ c₂ : Copy}

/-- The two passes at a point `x`, counted on over the end of the buffer. -/
structure Alike (s : Passes r) (x : Nat) (c c₁ : Copy) : Prop where
  pbET : c₁.pbET = c.pbET
  rgdata : c₁.rgdata = c.rgdata
  cbNeeded : c₁.cbNeeded = c.cbNeeded
  fFragmented : c₁.fFragmented = c.fFragmented
  here : (c.pbET = x ∧ c.pbWrapWrite = s.limit ∧ c₁.pbWrapWrite = s.limit') ∨
    (c.pbET + r.cbLGBuf = x ∧ c.pbWrapWrite + r.cbLGBuf = s.limit ∧
      c₁.pbWrapWrite + r.cbLGBuf = s.limit')
  start_le : s.start ≤ x
  le_limit : x ≤ s.limit
  le_cbLGBuf : c.pbET ≤ r.cbLGBuf
  buf : c.buf = s.buf
  frame : Frame (Between r s.start x) s.buf' c₁.buf

section

variable (h : Alike s x c c₁)
include h

theorem Alike.put {ib : Nat} {bs : List UInt8} {bs' : List UInt8}
    (hin : ib + bs.length ≤ cb) (hlimit : x + cb ≤ s.limit) (hend : c.pbET + cb ≤ r.cbLGBuf) :
    Alike s (x + cb) (c.put s.first ib bs' cb) (c₁.put s.second ib bs cb) := by
  obtain ⟨hpb, hdata, hneeded, hfrag, hhere, hstart, hle, hN, hbuf, hframe⟩ := h
  refine ⟨congrArg (· + cb) hpb, hdata, hneeded, hfrag, ?_, by omega, hlimit, hend, ?_, ?_⟩
  · unfold Copy.put
    dsimp only
    omega
  · unfold Copy.put
    rw [s.first_alloc]
    exact hbuf
  · unfold Copy.put
    rw [s.second_copies]
    refine (hframe.mono fun i hi => ?_).trans (frame_store _ _ _ fun i hlo hhi => ?_)
    · unfold Between at hi ⊢
      omega
    · unfold Between
      omega

theorem Alike.with_cbNeeded {n n₁ : Nat} (heq : n₁ = n) :
    Alike s x { c with cbNeeded := n } { c₁ with cbNeeded := n₁ } :=
  ⟨h.pbET, h.rgdata, heq, h.fFragmented, h.here, h.start_le, h.le_limit, h.le_cbLGBuf, h.buf,
    h.frame⟩

theorem Alike.with_rgdata (rgdata : List (List UInt8)) :
    Alike s x { c with rgdata } { c₁ with rgdata } :=
  ⟨h.pbET, rfl, h.cbNeeded, h.fFragmented, h.here, h.start_le, h.le_limit, h.le_cbLGBuf, h.buf,
    h.frame⟩

theorem Alike.with_fFragmented (fFragmented : Bool) :
    Alike s x { c with fFragmented } { c₁ with fFragmented } :=
  ⟨h.pbET, h.rgdata, h.cbNeeded, rfl, h.here, h.start_le, h.le_limit, h.le_cbLGBuf, h.buf, h.frame⟩

theorem Alike.wrap : Alike s x (c.wrap r s.first) (c₁.wrap r s.second) ∧
      (c.wrap r s.first).pbET < r.cbLGBuf := by
  have hlim := s.limit_le
  have hstart := s.start_lt
  have hwraps := s.wraps
  have hpb := h.pbET
  have hle := h.le_limit
  have hhere := h.here
  unfold Copy.wrap
  rw [hpb]
  by_cases hend : r.cbLGBuf ≤ c.pbET
  · rw [if_pos hend, if_pos hend]
    refine ⟨⟨rfl, h.rgdata, h.cbNeeded, h.fFragmented, ?_, h.start_le,
      hle, ?_, h.buf, h.frame⟩, ?_⟩ <;> dsimp only <;> omega
  · rw [if_neg hend, if_neg hend]
    exact ⟨h, by omega⟩

end

structure Room (s : Passes r) (x cbSegRemain : Nat) (c c₁ : Copy) : Prop
    extends Alike s x c c₁ where
  limit : x + cbSegRemain ≤ s.limit
  segment : c.pbET + cbSegRemain ≤ r.cbLGBuf
  aligned : 4096 ∣ c.pbET + cbSegRemain

theorem Room.put (h : Room s x cbSegRemain c c₁) {ib : Nat} {bs bs' : List UInt8}
    (hin : ib + bs.length ≤ cb) (hle : cb ≤ cbSegRemain) :
    Room s (x + cb) (cbSegRemain - cb) (c.put s.first ib bs' cb) (c₁.put s.second ib bs cb) := by
  have hlimit := h.limit
  have hsegment := h.segment
  have haligned := h.aligned
  refine ⟨h.toAlike.put hin (by omega) (by omega), by omega, ?_, ?_⟩
  · unfold Copy.put
    dsimp only
    omega
  · unfold Copy.put
    dsimp only
    omega

theorem Alike.enter (h : Alike s x c c₁) (hlt : c.pbET < r.cbLGBuf) (hlimit : x < s.limit) :
    ∃ x', (c₁.enter s.second).2 = (c.enter s.first).2 ∧
      Room s x' (c.enter s.first).2 (c.enter s.first).1 (c₁.enter s.second).1 := by
  have hdvd : 4096 ∣ s.limit := s.dvd
  have hdvd' : 4096 ∣ r.cbLGBuf := r.dvd
  have hhere := h.here
  unfold Copy.enter cbSec
  rw [h.pbET]
  by_cases hstart : 4096 - c.pbET % 4096 = 4096
  · rw [if_pos hstart, if_pos hstart]
    have hroom : Room s x 4096 c c₁ := ⟨h, by omega, by omega, by omega⟩
    refine ⟨x + cbSegHdr, rfl, hroom.put (by simp [ibLogtime, cbSegHdr]) (by decide)⟩
  · rw [if_neg hstart, if_neg hstart]
    exact ⟨x, rfl, h, by dsimp only; omega, by dsimp only; omega, by dsimp only; omega⟩

/-- The passes between two rounds; a fragment goes on at the start of a segment. -/
structure Paired (s : Passes r) (x : Nat) (c c₁ : Copy) : Prop extends Alike s x c c₁ where
  lt_cbLGBuf : c.pbET < r.cbLGBuf
  sum : c.cbNeeded = (c.rgdata.map length).sum
  atSegment : c.fFragmented = true → c.cbNeeded = 0 ∨ 4096 ∣ c.pbET

namespace Room

variable (h : Room s x cbSegRemain c c₁)
include h

theorem fill {rest : Copy × Nat}
    (heq : c.fill r s.first cbSegRemain = some rest) :
    ∃ x' c₂, c₁.fill r s.second cbSegRemain = some (c₂, rest.2) ∧ Room s x' rest.2 rest.1 c₂ ∧
      (32 ≤ rest.2 ∨ rest.1.cbNeeded ≤ rest.2) := by
  unfold Copy.fill cbMinFragment at heq ⊢
  rw [h.cbNeeded]
  by_cases hsmall : cbSegRemain < c.cbNeeded ∧ cbSegRemain < 32
  · rw [if_pos hsmall] at heq ⊢
    have hput := @Room.put r s x cbSegRemain cbSegRemain c c₁ h 0
      (replicate cbSegRemain lrtypNOP) (replicate cbSegRemain lrtypNOP)
      (by simp) (le_rfl)
    have hhere := hput.here
    have hpb := hput.pbET
    have hle := s.le
    dsimp only at heq ⊢
    split at heq
    · cases heq
    case isFalse hroom =>
      cases heq
      rw [if_neg (by omega)]
      obtain ⟨hwrap, hlt⟩ := hput.toAlike.wrap
      have hdvd : 4096 ∣ s.limit := s.dvd
      have hdvd' : 4096 ∣ r.cbLGBuf := r.dvd
      have haligned := hput.aligned
      have hhere' := hwrap.here
      have hroom' : Room s (x + cbSegRemain) 4096 _ _ := ⟨hwrap, by omega, by omega, by omega⟩
      exact ⟨_, _, rfl, hroom'.put (by simp [ibLogtime, cbSegHdr]) (by decide),
        .inl (show 32 ≤ cbSec - cbSegHdr by decide)⟩
  · rw [if_neg hsmall] at heq ⊢
    cases heq
    exact ⟨x, c₁, rfl, h, by dsimp only; omega⟩

theorem firstFragment (hsize : 32 ≤ cbSegRemain ∨ c.cbNeeded ≤ cbSegRemain) :
    ∃ x', (c₁.firstFragment s.second cbSegRemain).2 = (c.firstFragment s.first cbSegRemain).2 ∧
      Room s x' (c.firstFragment s.first cbSegRemain).2 (c.firstFragment s.first cbSegRemain).1
        (c₁.firstFragment s.second cbSegRemain).1 := by
  unfold Copy.firstFragment
  rw [h.cbNeeded]
  by_cases hlt : cbSegRemain < c.cbNeeded
  · rw [if_pos hlt, if_pos hlt]
    have hput := @Room.put r s x 7 cbSegRemain c c₁ h 0
      (fragmentBegin c.cbNeeded (cbSegRemain - 7)) (fragmentBegin c.cbNeeded (cbSegRemain - 7))
      (le_rfl) (by omega)
    exact ⟨x + 7, rfl, hput.toAlike.with_fFragmented true, hput.limit, hput.segment, hput.aligned⟩
  · rw [if_neg hlt, if_neg hlt]
    exact ⟨x, rfl, h⟩

theorem nextFragment (hsize : 3 ≤ cbSegRemain) :
    Room s (x + 3) (c.nextFragment s.first cbSegRemain).2 (c.nextFragment s.first cbSegRemain).1
      (c₁.nextFragment s.second cbSegRemain).1 :=
  h.put (le_rfl) hsize

theorem copyData {rgdata : List (List UInt8)} (hsum : c.cbNeeded = (rgdata.map length).sum) :
    ∃ x', Alike s x' (Copy.copyData s.first rgdata cbSegRemain c)
        (Copy.copyData s.second rgdata cbSegRemain c₁) ∧
      (Copy.copyData s.first rgdata cbSegRemain c).cbNeeded =
        ((Copy.copyData s.first rgdata cbSegRemain c).rgdata.map length).sum ∧
      ((Copy.copyData s.first rgdata cbSegRemain c).cbNeeded = 0 ∨
        4096 ∣ (Copy.copyData s.first rgdata cbSegRemain c).pbET) := by
  induction rgdata generalizing x cbSegRemain c c₁ with
  | nil => exact ⟨x, h.with_rgdata [], hsum, .inl hsum⟩
  | cons data rgdata ih =>
    unfold Copy.copyData
    have hiff : c₁.cbNeeded = 0 ∨ cbSegRemain = 0 ↔ c.cbNeeded = 0 ∨ cbSegRemain = 0 := by
      rw [h.cbNeeded]
    by_cases hdone : c.cbNeeded = 0 ∨ cbSegRemain = 0
    · rw [if_pos hdone, if_pos (hiff.mpr hdone)]
      refine ⟨x, h.with_rgdata _, hsum, hdone.imp_right fun hzero => ?_⟩
      have haligned := h.aligned
      rwa [hzero, add_zero] at haligned
    · rw [if_neg hdone, if_neg (mt hiff.mp hdone)]
      have hput := @Room.put r s x (min data.length cbSegRemain) cbSegRemain c c₁ h 0
        (data.take (min data.length cbSegRemain)) (data.take (min data.length cbSegRemain))
        (by rw [length_take]; omega) (min_le_right _ _)
      have hless := hput.toAlike.with_cbNeeded
        (congrArg (· - min data.length cbSegRemain) h.cbNeeded)
      rw [map_cons, sum_cons] at hsum
      by_cases hall : min data.length cbSegRemain = data.length
      · rw [if_pos hall, if_pos hall]
        exact ih ⟨hless, hput.limit, hput.segment, hput.aligned⟩ (by dsimp only; omega)
      · rw [if_neg hall, if_neg hall]
        refine ⟨_, hless.with_rgdata _, ?_, .inr ?_⟩
        · dsimp only
          rw [map_cons, sum_cons, length_drop]
          omega
        · have haligned := hput.aligned
          rwa [show cbSegRemain - min data.length cbSegRemain = 0 by omega, add_zero] at haligned

theorem finish (hsum : c.cbNeeded = (c.rgdata.map length).sum) :
    ∃ x', Paired s x' ((Copy.copyData s.first c.rgdata cbSegRemain c).wrap r s.first)
      ((Copy.copyData s.second c₁.rgdata cbSegRemain c₁).wrap r s.second) := by
  rw [h.rgdata]
  obtain ⟨x', halike, hleft, hend⟩ := h.copyData hsum
  obtain ⟨hwrap, hlt⟩ := halike.wrap
  have hdvd : 4096 ∣ r.cbLGBuf := r.dvd
  have hsame (d : Copy) : (d.wrap r s.first).cbNeeded = d.cbNeeded ∧ (d.wrap r s.first).rgdata =
      d.rgdata ∧ (4096 ∣ d.pbET → 4096 ∣ (d.wrap r s.first).pbET) := by
    unfold Copy.wrap
    split
    · exact ⟨rfl, rfl, fun h => by dsimp only; omega⟩
    · exact ⟨rfl, rfl, id⟩
  obtain ⟨hneeded, hrgdata, haligned⟩ := hsame (Copy.copyData s.first c.rgdata cbSegRemain c)
  refine ⟨x', hwrap, hlt, ?_, fun _ => ?_⟩
  · rw [hneeded, hrgdata, hleft]
  · rw [hneeded]
    exact hend.imp_right haligned

end Room

theorem Copy.enter_fields (p : Pass) (c : Copy) : (c.enter p).1.cbNeeded = c.cbNeeded ∧
    (c.enter p).1.rgdata = c.rgdata ∧ (c.enter p).1.fFragmented = c.fFragmented ∧
    (4096 ∣ c.pbET → (c.enter p).2 = 4056) := by
  unfold Copy.enter cbSec
  split
  · exact ⟨rfl, rfl, rfl, fun _ => rfl⟩
  · exact ⟨rfl, rfl, rfl, fun h => by dsimp only; omega⟩

theorem Copy.fill_fields {p : Pass} {rest : Copy × Nat}
    (h : c.fill r p cbSegRemain = some rest) :
    rest.1.cbNeeded = c.cbNeeded ∧ rest.1.rgdata = c.rgdata := by
  unfold Copy.fill at h
  dsimp only at h
  split at h
  · split at h
    · cases h
    · cases h
      unfold Copy.wrap
      split <;> exact ⟨rfl, rfl⟩
  · cases h
    exact ⟨rfl, rfl⟩

theorem Copy.firstFragment_fields (p : Pass) (c : Copy) (cbSegRemain : Nat) :
    (c.firstFragment p cbSegRemain).1.cbNeeded = c.cbNeeded ∧
      (c.firstFragment p cbSegRemain).1.rgdata = c.rgdata := by
  unfold Copy.firstFragment
  split <;> exact ⟨rfl, rfl⟩

theorem Paired.round (h : Paired s x c c₁) (hneeded : c.cbNeeded ≠ 0)
    (heq : c.round r s.first = some c₂) :
    ∃ x' c₃, c₁.round r s.second = some c₃ ∧ Paired s x' c₂ c₃ := by
  have hhere := h.here
  have hle := s.le
  unfold Copy.round at heq ⊢
  rw [h.pbET, h.cbNeeded]
  split at heq
  · cases heq
  case isFalse hroom =>
    rw [if_neg (by omega)]
    obtain ⟨x₁, hremain, henter⟩ := h.toAlike.enter h.lt_cbLGBuf (by omega)
    obtain ⟨hcb, hdata, hfrag, hwhole⟩ := c.enter_fields s.first
    have hfrag' := henter.fFragmented
    dsimp only at heq ⊢
    rw [hfrag] at heq
    rw [hremain, hfrag', hfrag]
    cases hf : c.fFragmented with
    | true =>
      rw [hf] at heq
      obtain hzero | hstart := h.atSegment hf
      · exact absurd hzero hneeded
      · have hnext := henter.nextFragment (by rw [hwhole hstart]; decide)
        obtain ⟨x', hpaired⟩ := hnext.finish (by
          change (c.enter s.first).1.cbNeeded = ((c.enter s.first).1.rgdata.map length).sum
          rw [hcb, hdata, h.sum])
        cases heq
        exact ⟨x', _, rfl, hpaired⟩
    | false =>
      rw [hf] at heq
      cases hfill : (c.enter s.first).1.fill r s.first (c.enter s.first).2 with
      | none => rw [hfill] at heq; cases heq
      | some rest =>
        rw [hfill] at heq
        cases heq
        obtain ⟨x₂, c₃, hfill', hroom', hsize⟩ := henter.fill hfill
        obtain ⟨hcb', hdata'⟩ := Copy.fill_fields hfill
        obtain ⟨x₃, hremain', hfirst⟩ := hroom'.firstFragment hsize
        obtain ⟨hcb'', hdata''⟩ := rest.1.firstFragment_fields s.first rest.2
        obtain ⟨x', hpaired⟩ := hfirst.finish (by
          rw [hcb'', hdata'', hcb', hdata', hcb, hdata, h.sum])
        rw [hfill']
        refine ⟨x', _, rfl, ?_⟩
        dsimp only
        rw [hremain']
        exact hpaired

theorem Paired.copyRecord {rounds : Nat} (h : Paired s x c c₁)
    (heq : c.copyRecord r s.first rounds = some (some c₂)) :
    ∃ x' c₃, c₁.copyRecord r s.second rounds = some (some c₃) ∧ Paired s x' c₂ c₃ := by
  induction rounds generalizing x c c₁ with
  | zero => cases heq
  | succ rounds ih =>
    unfold Copy.copyRecord at heq ⊢
    rw [h.cbNeeded]
    split at heq
    case isTrue hdone =>
      cases heq
      rw [if_pos hdone]
      exact ⟨x, c₁, rfl, h⟩
    case isFalse hneeded =>
      rw [if_neg hneeded]
      cases hround : c.round r s.first with
      | none => rw [hround] at heq; cases heq
      | some d =>
        rw [hround] at heq
        obtain ⟨x', d₁, hround', hpaired⟩ := h.round hneeded hround
        rw [hround']
        exact ih hpaired heq

theorem Paired.addRecords {cbSizeOfRec : List UInt8 → Int} {rounds records : Nat}
    {rgdata : List (List UInt8)} (h : Paired s x c c₁)
    (heq : addRecords r s.first cbSizeOfRec rounds records rgdata c = some (some c₂)) :
    ∃ x' c₃, addRecords r s.second cbSizeOfRec rounds records rgdata c₁ = some (some c₃) ∧
      Paired s x' c₂ c₃ := by
  induction records generalizing x c c₁ rgdata with
  | zero => cases heq
  | succ records ih =>
    unfold EseLinux.LogRecord.addRecords at heq ⊢
    dsimp only at heq ⊢
    split at heq
    case isTrue hnil =>
      cases heq
      rw [if_pos hnil]
      exact ⟨x, c₁, rfl, h⟩
    case isFalse hnil =>
      rw [if_neg hnil]
      split at heq
      · cases heq
      case isFalse hfits =>
        rw [if_neg hfits]
        have hstart : Paired s x { c with
            rgdata := (takeRecord cbSizeOfRec 0 rgdata).1
            cbNeeded := ((takeRecord cbSizeOfRec 0 rgdata).1.map length).sum
            fFragmented := false } { c₁ with
            rgdata := (takeRecord cbSizeOfRec 0 rgdata).1
            cbNeeded := ((takeRecord cbSizeOfRec 0 rgdata).1.map length).sum
            fFragmented := false } :=
          ⟨⟨h.pbET, rfl, rfl, rfl, h.here, h.start_le, h.le_limit, h.le_cbLGBuf, h.buf, h.frame⟩,
            h.lt_cbLGBuf, rfl, nofun⟩
        split at heq
        · cases heq
        · cases heq
        case h_3 d hrecord =>
          obtain ⟨x', d₁, hrecord', hpaired⟩ := hstart.copyRecord hrecord
          rw [hrecord']
          exact ih hpaired heq

/-- What is used of the buffer when records are entered at `pbET`. -/
def Ring.cbUsed (r : Ring) (pbWrite pbET : Nat) : Nat :=
  if pbWrite ≤ pbET then pbET - pbWrite else pbET + r.cbLGBuf - pbWrite

def Ring.advance (r : Ring) (pb cb : Nat) : Nat :=
  if r.cbLGBuf ≤ pb + cb then pb + cb - r.cbLGBuf else pb + cb

def Ring.Written (r : Ring) (pbET pbEnd i : Nat) : Prop :=
  (pbET ≤ pbEnd ∧ pbET ≤ i ∧ i < pbEnd) ∨ (pbEnd < pbET ∧ ((pbET ≤ i ∧ i < r.cbLGBuf) ∨ i < pbEnd))

/-- The bytes from the entry point up to the write pointer; all of them if they are equal. -/
def Ring.IsFree (r : Ring) (pbWrite pbET i : Nat) : Prop :=
  (pbWrite ≤ pbET ∧ ((pbET ≤ i ∧ i < r.cbLGBuf) ∨ i < pbWrite)) ∨
    (pbET < pbWrite ∧ pbET ≤ i ∧ i < pbWrite)

/-- If room was found for the records they are copied to the same end, over free bytes only,
although the write pointer may be further. -/
theorem reserve_copy_agree (r : Ring) (cbSizeOfRec : List UInt8 → Int) (rounds records : Nat)
    (rgdata : List (List UInt8)) (logtime logtime' : Nat → Fin 8 → UInt8) (buf buf' buf₁ : Memory)
    (pbWrite pbET pbEnd cb : Nat) (hpbET : pbET < r.cbLGBuf) (hpbWrite : pbWrite < r.cbLGBuf)
    (hdvd : cbSec ∣ pbWrite) (hcb : cb ≤ r.cbUsed pbWrite pbET)
    (heq : fLGIAddLogRec r ⟨true, pbWrite, logtime⟩ cbSizeOfRec rounds records rgdata buf pbET =
      some (some (pbEnd, buf₁))) :
    buf₁ = buf ∧ ∃ buf₂,
      fLGIAddLogRec r ⟨false, r.advance pbWrite cb, logtime'⟩ cbSizeOfRec rounds records rgdata buf'
        pbET = some (some (pbEnd, buf₂)) ∧
      (∀ i, ¬ r.Written pbET pbEnd i → buf₂ i = buf' i) ∧
      (∀ i, r.Written pbET pbEnd i → r.IsFree (r.advance pbWrite cb) pbET i) ∧
      ∃ i, r.IsFree (r.advance pbWrite cb) pbET i ∧ ¬ r.Written pbET pbEnd i := by
  obtain ⟨limit, hlimit⟩ : ∃ l : Nat, l = if pbWrite ≤ pbET then pbWrite + r.cbLGBuf else pbWrite :=
    ⟨_, rfl⟩
  have hcases : (pbWrite ≤ pbET ∧ limit = pbWrite + r.cbLGBuf ∧ cb ≤ pbET - pbWrite) ∨
      (pbET < pbWrite ∧ limit = pbWrite ∧ cb ≤ pbET + r.cbLGBuf - pbWrite) := by
    unfold Ring.cbUsed at hcb
    split at hlimit <;> split at hcb <;> omega
  have hlimit' : (if r.advance pbWrite cb ≤ pbET then r.advance pbWrite cb + r.cbLGBuf
      else r.advance pbWrite cb) = limit + cb := by
    unfold Ring.advance
    split <;> split <;> omega
  have hadvance : r.advance pbWrite cb = pbWrite + cb ∨
      (r.advance pbWrite cb + r.cbLGBuf = pbWrite + cb ∧ r.cbLGBuf ≤ pbWrite + cb) := by
    unfold Ring.advance
    split <;> omega
  let s : Passes r :=
    { start := pbET, first := ⟨true, pbWrite, logtime⟩
      second := ⟨false, r.advance pbWrite cb, logtime'⟩, buf, buf', limit, limit' := limit + cb
      first_alloc := rfl, second_copies := rfl, start_lt := hpbET
      dvd := by
        have h : 4096 ∣ pbWrite := hdvd
        have h' : 4096 ∣ r.cbLGBuf := r.dvd
        show 4096 ∣ limit
        omega
      le := Nat.le_add_right _ _, limit_le := by omega
      wraps := by dsimp only; omega }
  have hstart : Paired s pbET ⟨pbET, limit, buf, [], 0, false⟩
      ⟨pbET, limit + cb, buf', [], 0, false⟩ :=
    ⟨⟨rfl, rfl, rfl, rfl, .inl ⟨rfl, rfl, rfl⟩, le_rfl, by show pbET ≤ limit; omega,
      hpbET.le, rfl, Frame.refl _ _⟩, hpbET, rfl, nofun⟩
  unfold fLGIAddLogRec at heq ⊢
  dsimp only at heq ⊢
  rw [← hlimit] at heq
  rw [hlimit']
  split at heq
  · cases heq
  · cases heq
  case h_3 c hadd =>
    split at heq
    · cases heq
    case isFalse hne =>
      cases heq
      obtain ⟨x, c₁, hadd', hpaired⟩ := hstart.addRecords hadd
      have hhere := hpaired.here
      have hpb := hpaired.pbET
      have hle := hpaired.le_limit
      have hstartle := hpaired.start_le
      have hlt := hpaired.lt_cbLGBuf
      simp only [s] at hhere hle hstartle
      rw [hadd']
      dsimp only
      rw [if_neg (by omega), hpb]
      refine ⟨hpaired.buf, c₁.buf, rfl, fun i hi => hpaired.frame i fun hin => hi ?_, ?_, ?_⟩
      · unfold Between at hin
        unfold Ring.Written
        simp only [s] at hin
        omega
      · intro i hi
        unfold Ring.Written at hi
        unfold Ring.IsFree
        omega
      · refine ⟨c.pbET, ?_, ?_⟩
        · unfold Ring.IsFree
          omega
        · unfold Ring.Written
          omega

def Ring.two : Ring := ⟨8192, by decide, ⟨2, rfl⟩⟩

/-- A record of sixty bytes from 4060 on, in two fragments. -/
theorem fragments_copied : ∃ buf₂,
    fLGIAddLogRec Ring.two ⟨false, 0, fun _ _ => 7⟩ (fun _ => 60) 3 3
        [[20, 1], replicate 58 2] (fun _ => 0) 4060 = some (some (4170, buf₂)) ∧
      ∀ i, ¬ Ring.two.Written 4060 4170 i → buf₂ i = 0 := by
  obtain ⟨-, buf₂, heq, hframe, -⟩ := reserve_copy_agree Ring.two (fun _ => 60) 3 3
    [[20, 1], replicate 58 2] (fun _ _ => 0) (fun _ _ => 7) (fun _ => 0) (fun _ => 0) (fun _ => 0)
    0 4060 4170 0 (by decide) (by decide) (by decide) (by decide) rfl
  exact ⟨buf₂, heq, hframe⟩

end EseLinux.LogRecord
