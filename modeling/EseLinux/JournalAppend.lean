import Mathlib.Algebra.Ring.Nat
import Mathlib.Tactic.Common

/-!
Appending an entry to the block cache's journal (`_journal.hxx`, `_journalsegment.hxx`).  An entry
is cut into fragments, each of them a region of a segment; the buffers of the entry are given by
their sizes.  Segments are created and regions appended without an error, and a position is none
while it is invalid.
-/

namespace EseLinux.BlockCacheJournal

def cbSegment : Nat := 4096

def cbSegmentHeader : Nat := 44

def cbRegions : Nat := cbSegment - cbSegmentHeader

/-- `CJournalRegion`: the size of the payload. -/
def cbRegionHeader : Nat := 4

/-- `CJournalEntryFragment`: the size of the entry, or what remains of it. -/
def cbFragmentHeader : Nat := 4

def cbEntryMax : Nat := 2 ^ 31 - 1

structure Segment where
  spos : Nat
  ibRegions : Nat
  le_cbRegions : ibRegions ≤ cbRegions

structure Appended where
  segment : Segment
  rpos : Option Nat
  cbActual : Nat

/-- The payload goes into the segment as far as it fits, if `cbMin` bytes of it do. -/
def Segment.appendRegion (s : Segment) (rgcb : List Nat) (cbMin : Nat) : Appended :=
  let cbPayloadRequested := rgcb.sum % 2 ^ 32
  let cbRegionMax := cbRegions - s.ibRegions
  if h : cbRegionHeader + cbMin ≤ cbRegionMax then
    let cbPayloadActual := min cbPayloadRequested (cbRegionMax - cbRegionHeader)
    ⟨⟨s.spos, s.ibRegions + cbRegionHeader + cbPayloadActual, by
        have := s.le_cbRegions
        omega⟩,
      if 0 < cbPayloadActual then some (s.spos + cbSegmentHeader + s.ibRegions) else none,
      cbPayloadActual⟩
  else ⟨s, none, 0⟩

/-- What is left of the buffers once so many bytes of them were appended. -/
def removeAppended : Nat → List Nat → List Nat
  | _, [] => []
  | cbRem, cb :: rgcb =>
    if cbRem = 0 then cb :: rgcb
    else (cb - min cb cbRem) :: removeAppended (cbRem - min cb cbRem) rgcb

structure Journal where
  sposAppend : Nat
  /-- The youngest segment that is not sealed. -/
  segment : Option Segment

def Journal.getAppendSegment (j : Journal) (fForceNewSegment : Bool) : Journal × Segment :=
  match j.segment, fForceNewSegment with
  | some s, false => (j, s)
  | _, _ =>
    let s : Segment := ⟨j.sposAppend + cbSegment, 0, Nat.zero_le _⟩
    (⟨s.spos, some s⟩, s)

/-- The variables of the loop of `ErrAppendEntry`. -/
structure Append where
  journal : Journal
  ibEntry : Nat
  rgcb : List Nat
  jpos : Option Nat
  fForceNewSegment : Bool

def Append.next (a : Append) (cbEntry : Nat) : Append :=
  let (j, s) := a.journal.getAppendSegment a.fForceNewSegment
  let r := s.appendRegion (cbFragmentHeader :: a.rgcb) cbFragmentHeader
  let cbEntryAppended := if r.cbActual = 0 then 0 else r.cbActual - cbFragmentHeader
  { journal := { j with segment := some r.segment }
    ibEntry := a.ibEntry + cbEntryAppended
    rgcb := removeAppended cbEntryAppended a.rgcb
    jpos := if a.ibEntry = 0 then r.rpos else a.jpos
    fForceNewSegment := decide (cbEntryAppended < cbEntry - a.ibEntry) }

def appendLoop (cbEntry : Nat) : Nat → Append → Option Append
  | 0, _ => none
  | rounds + 1, a =>
    if a.ibEntry < cbEntry ∨ a.jpos = none then appendLoop cbEntry rounds (a.next cbEntry)
    else some a

inductive AppendErr where
  | invalidParameter
  | diskFull
  | down
  deriving DecidableEq, Repr

/-- `ErrAppendEntry`, with the loop followed for so many rounds. -/
def Journal.errAppendEntry (j : Journal) (fFull fDown : Bool) (rgcb : List Nat) (rounds : Nat) :
    Option (Except AppendErr Append) :=
  if cbEntryMax ≤ rgcb.sum then some (.error .invalidParameter)
  else if fFull ∧ rgcb.sum ≠ 0 then some (.error .diskFull)
  else if fDown then some (.error .down)
  else (appendLoop rgcb.sum rounds ⟨j, 0, rgcb, none, false⟩).map .ok

def Journal.Returns (j : Journal) (fFull fDown : Bool) (rgcb : List Nat) : Prop :=
  ∃ rounds out, j.errAppendEntry fFull fDown rgcb rounds = some out

theorem removeAppended_zero (rgcb : List Nat) : removeAppended 0 rgcb = rgcb := by
  cases rgcb with
  | nil => rfl
  | cons cb rgcb => rw [removeAppended, if_pos rfl]

theorem sum_removeAppended {cb : Nat} {rgcb : List Nat} (h : cb ≤ rgcb.sum) :
    (removeAppended cb rgcb).sum = rgcb.sum - cb := by
  induction rgcb generalizing cb with
  | nil => simp [removeAppended]
  | cons cbFirst rgcb ih =>
    rw [List.sum_cons] at h
    unfold removeAppended
    split
    case isTrue hzero => rw [hzero, Nat.sub_zero]
    · rw [List.sum_cons, List.sum_cons, ih (by omega)]
      omega

variable {s : Segment}

theorem appendRegion_of_room {rgcb : List Nat} (hsum : rgcb.sum + 4 < 2 ^ 32)
    (hroom : s.ibRegions + 8 ≤ cbRegions) :
    (s.appendRegion (cbFragmentHeader :: rgcb) cbFragmentHeader).cbActual =
        min (rgcb.sum + 4) (cbRegions - s.ibRegions - 4) ∧
      (s.appendRegion (cbFragmentHeader :: rgcb) cbFragmentHeader).rpos ≠ none := by
  have hactual : (cbFragmentHeader :: rgcb).sum % 2 ^ 32 = rgcb.sum + 4 := by
    rw [List.sum_cons, cbFragmentHeader, Nat.add_comm, Nat.mod_eq_of_lt hsum]
  have hfits : cbRegionHeader + cbFragmentHeader ≤ cbRegions - s.ibRegions := by
    rw [cbRegionHeader, cbFragmentHeader]
    omega
  simp only [Segment.appendRegion, hactual, dif_pos hfits]
  refine ⟨rfl, ?_⟩
  rw [if_pos (by rw [cbRegionHeader]; omega)]
  exact Option.some_ne_none _

theorem appendRegion_of_full {rgcb : List Nat} (hfull : cbRegions < s.ibRegions + 8) :
    s.appendRegion (cbFragmentHeader :: rgcb) cbFragmentHeader = ⟨s, none, 0⟩ := by
  have hnot : ¬ cbRegionHeader + cbFragmentHeader ≤ cbRegions - s.ibRegions := by
    rw [cbRegionHeader, cbFragmentHeader]
    omega
  simp only [Segment.appendRegion, dif_neg hnot]

variable {a : Append} {cbEntry : Nat}

structure Remains (a : Append) (cbEntry : Nat) : Prop where
  lt : cbEntry + 4 < 2 ^ 32
  le : a.ibEntry ≤ cbEntry
  sum : a.rgcb.sum = cbEntry - a.ibEntry

theorem Remains.next_of_room (h : Remains a cbEntry)
    (hs : (a.journal.getAppendSegment a.fForceNewSegment).2 = s)
    (hroom : s.ibRegions + 8 ≤ cbRegions) : Remains (a.next cbEntry) cbEntry ∧
      (a.next cbEntry).ibEntry =
        a.ibEntry + min (cbEntry - a.ibEntry) (cbRegions - s.ibRegions - 8) ∧
      ((a.ibEntry = 0 ∨ a.jpos ≠ none) → (a.next cbEntry).jpos ≠ none) ∧
      ((a.next cbEntry).fForceNewSegment = true ↔ (a.next cbEntry).ibEntry < cbEntry) := by
  have hlt := h.lt
  have hle := h.le
  obtain ⟨hactual, hrpos⟩ := @appendRegion_of_room s a.rgcb (by rw [h.sum]; omega) hroom
  rw [h.sum] at hactual
  have happended : (if (s.appendRegion (cbFragmentHeader :: a.rgcb) cbFragmentHeader).cbActual = 0
      then 0 else (s.appendRegion (cbFragmentHeader :: a.rgcb) cbFragmentHeader).cbActual -
        cbFragmentHeader) = min (cbEntry - a.ibEntry) (cbRegions - s.ibRegions - 8) := by
    rw [hactual, if_neg (by omega), cbFragmentHeader]
    omega
  simp only [Append.next, hs, happended]
  refine ⟨⟨hlt, by dsimp only; omega, ?_⟩, trivial, ?_, ?_⟩
  · dsimp only
    rw [sum_removeAppended (by rw [h.sum]; omega), h.sum]
    omega
  · rintro hjpos
    by_cases hzero : a.ibEntry = 0
    · rwa [if_pos hzero]
    · rw [if_neg hzero]
      exact hjpos.resolve_left hzero
  · rw [decide_eq_true_iff]
    omega

theorem appendLoop_of_done (hle : cbEntry ≤ a.ibEntry) (hjpos : a.jpos ≠ none) :
    appendLoop cbEntry 1 a = some a := by
  rw [appendLoop, if_neg]
  rintro (hlt | hnone)
  · exact absurd hlt (Nat.not_lt.mpr hle)
  · exact hjpos hnone

theorem appendLoop_of_next (h : a.ibEntry < cbEntry ∨ a.jpos = none)
    (hends : ∃ rounds out, appendLoop cbEntry rounds (a.next cbEntry) = some out) :
    ∃ rounds out, appendLoop cbEntry rounds a = some out := by
  obtain ⟨rounds, out, hout⟩ := hends
  exact ⟨rounds + 1, out, by rw [appendLoop, if_pos h, hout]⟩

theorem getAppendSegment_force (j : Journal) :
    (j.getAppendSegment true).2.ibRegions = 0 := by
  unfold Journal.getAppendSegment
  split
  case h_1 hfalse => cases hfalse
  · rfl

theorem Remains.appendLoop_ends (h : Remains a cbEntry) (hlt : a.ibEntry < cbEntry)
    (hforce : a.fForceNewSegment = true) (hjpos : a.ibEntry = 0 ∨ a.jpos ≠ none) :
    ∃ rounds out, appendLoop cbEntry rounds a = some out := by
  obtain ⟨n, hn⟩ : ∃ n, cbEntry - a.ibEntry ≤ n := ⟨_, Nat.le_refl _⟩
  induction n generalizing a with
  | zero => omega
  | succ n ih =>
    have hzero := getAppendSegment_force a.journal
    rw [← hforce] at hzero
    obtain ⟨hnext, hib, hjpos', hforce'⟩ := h.next_of_room rfl
      (by rw [hzero]; decide)
    rw [hzero, cbRegions, cbSegment, cbSegmentHeader] at hib
    refine appendLoop_of_next (.inl hlt) ?_
    rcases Nat.lt_or_ge (a.next cbEntry).ibEntry cbEntry with hlt' | hge
    · exact ih hnext hlt' (hforce'.mpr hlt') (.inr (hjpos' hjpos)) (by omega)
    · exact ⟨1, _, appendLoop_of_done hge (hjpos' hjpos)⟩

def Full (j : Journal) : Prop := ∃ s, j.segment = some s ∧ cbRegions < s.ibRegions + 8

variable {j : Journal}

theorem getAppendSegment_of_not_full (h : ¬ Full j) :
    (j.getAppendSegment false).2.ibRegions + 8 ≤ cbRegions := by
  obtain ⟨sposAppend, segment⟩ := j
  cases segment with
  | none => exact (by decide : 0 + 8 ≤ cbRegions)
  | some s => exact Nat.le_of_not_lt fun hfull => h ⟨s, rfl, hfull⟩

theorem next_of_full (h : Full j) (rgcb : List Nat) :
    (⟨j, 0, rgcb, none, false⟩ : Append).next cbEntry =
      ⟨j, 0, rgcb, none, decide (0 < cbEntry)⟩ := by
  obtain ⟨s, hs, hfull⟩ := h
  have hget : j.getAppendSegment false = (j, s) := by
    unfold Journal.getAppendSegment
    rw [hs]
  simp only [Append.next, hget, appendRegion_of_full hfull, if_pos, removeAppended_zero,
    Nat.sub_zero, Nat.add_zero, ← hs]

theorem appendLoop_never (h : Full j) (rgcb : List Nat) (rounds : Nat) :
    appendLoop 0 rounds ⟨j, 0, rgcb, none, false⟩ = none := by
  induction rounds with
  | zero => rfl
  | succ rounds ih =>
    rw [appendLoop, if_pos (.inr rfl), next_of_full h]
    exact ih

theorem appendLoop_ends {rgcb : List Nat} (hlt : rgcb.sum + 4 < 2 ^ 32)
    (h : ¬ (rgcb.sum = 0 ∧ Full j)) :
    ∃ rounds out, appendLoop rgcb.sum rounds ⟨j, 0, rgcb, none, false⟩ = some out := by
  have hremains : ∀ f, Remains ⟨j, 0, rgcb, none, f⟩ rgcb.sum := fun f =>
    ⟨hlt, Nat.zero_le _, (Nat.sub_zero _).symm⟩
  refine appendLoop_of_next (.inr rfl) ?_
  by_cases hfull : Full j
  · have hpos : 0 < rgcb.sum := Nat.pos_of_ne_zero fun hzero => h ⟨hzero, hfull⟩
    rw [next_of_full hfull, decide_eq_true hpos]
    exact (hremains true).appendLoop_ends hpos rfl (.inl rfl)
  · obtain ⟨hnext, -, hjpos, hforce⟩ :=
      (hremains false).next_of_room rfl (getAppendSegment_of_not_full hfull)
    have hjpos' := hjpos (.inl rfl)
    rcases Nat.lt_or_ge ((⟨j, 0, rgcb, none, false⟩ : Append).next rgcb.sum).ibEntry rgcb.sum
      with hless | hge
    · exact hnext.appendLoop_ends hless (hforce.mpr hless) (.inr hjpos')
    · exact ⟨1, _, appendLoop_of_done hge hjpos'⟩

/-- Appending an entry returns, unless the entry is empty and the segment has no room for the
headers of a region and of a fragment. -/
theorem appendEntry_returns_iff (j : Journal) (fFull fDown : Bool) (rgcb : List Nat) :
    j.Returns fFull fDown rgcb ↔ ¬ (rgcb.sum = 0 ∧ fDown = false ∧ Full j) := by
  unfold Journal.Returns Journal.errAppendEntry
  by_cases hmax : cbEntryMax ≤ rgcb.sum
  · refine iff_of_true ⟨0, _, if_pos hmax⟩ fun h => ?_
    rw [h.1] at hmax
    exact absurd hmax (by decide)
  · simp only [if_neg hmax]
    by_cases hfull : fFull = true ∧ rgcb.sum ≠ 0
    · exact iff_of_true ⟨0, _, if_pos hfull⟩ fun h => hfull.2 h.1
    · simp only [if_neg hfull]
      cases fDown with
      | true => exact iff_of_true ⟨0, _, if_pos rfl⟩ fun h => Bool.noConfusion h.2.1
      | false =>
        simp only [Bool.false_eq_true, if_false, true_and]
        constructor
        · rintro ⟨rounds, out, hout⟩ ⟨hzero, hj⟩
          rw [hzero, appendLoop_never hj] at hout
          cases hout
        · intro h
          have hlt : rgcb.sum + 4 < 2 ^ 32 := by
            rw [cbEntryMax] at hmax
            omega
          obtain ⟨rounds, out, hout⟩ := appendLoop_ends hlt h
          exact ⟨rounds, .ok out, by rw [hout]; rfl⟩

theorem oneByte_returns : (⟨0, none⟩ : Journal).Returns false false [1] :=
  (appendEntry_returns_iff ⟨0, none⟩ false false [1]).mpr fun h => absurd h.1 (by decide)

/-- An entry of 4040 bytes leaves four bytes of a new segment; an empty entry is then tried in this
segment for ever. -/
theorem emptyEntry_never_returns :
    ∃ a, (⟨0, none⟩ : Journal).errAppendEntry false false [4040] 2 = some (.ok a) ∧
      ∀ rounds, a.journal.errAppendEntry false false [] rounds = none := by
  refine ⟨_, rfl, fun rounds => ?_⟩
  have hloop := @appendLoop_never ⟨4096, some ⟨4096, 4048, by decide⟩⟩ ⟨_, rfl, by decide⟩ [] rounds
  change (appendLoop 0 rounds ⟨⟨4096, some ⟨4096, 4048, _⟩⟩, 0, [], none, false⟩).map _ = none
  rw [hloop]
  rfl

end EseLinux.BlockCacheJournal
