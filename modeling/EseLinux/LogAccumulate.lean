import Mathlib.Data.List.Basic

/-!
The accumulated checksum of a log file.  The writer keeps the XOR of the checksums of its data
sectors and takes the last one back when it writes that sector again; the recovery scan computes it
anew.
-/

namespace EseLinux.LogAccumulate

open Function List

/-- A `stamped` sector passes the checksum test of the position it was stamped with and of no other;
an `unreadable` one fails the read, a `bad` one every checksum test. -/
inductive Sector where
  | zeroed
  | bad
  | unreadable
  | stamped (lGeneration isec : Nat) (checksum : BitVec 64)

structure Accumulator where
  checksumAccSectors : BitVec 64
  checksumAccSectorsPrev : BitVec 64

def resetAccumulatedSectorChecksum : Accumulator := ⟨0, 0⟩

def accumulateSectorChecksum (a : Accumulator) (c : BitVec 64) (fSectorOverwrite : Bool) :
    Accumulator :=
  if fSectorOverwrite then { a with checksumAccSectors := a.checksumAccSectorsPrev ^^^ c }
  else ⟨a.checksumAccSectors ^^^ c, a.checksumAccSectors⟩

structure Stream where
  file : Nat → Sector
  acc : Accumulator
  isecWrite : Nat
  fHaveShadow : Bool

/-- One log generation: `fZeroFilled` by its version, `fPatch` when a shadow may stand in for its
sector, so neither in a dump nor in hard recovery. -/
structure LogFile where
  gen : Nat
  csecHeader : Nat
  csecLGFile : Nat
  fZeroFilled : Bool
  fPatch : Bool
  holds : csecHeader < csecLGFile

variable (f : LogFile)

def writeSectors (file : Nat → Sector) (isec : Nat) (cs : List (BitVec 64)) : Nat → Sector :=
  fun i => match if isec ≤ i then cs[i - isec]? else none with
    | some c => .stamped f.gen i c
    | none => file i

def writeShadow (file : Nat → Sector) (isec : Nat) (c : BitVec 64) : Nat → Sector :=
  update file (isec + 1) (.stamped f.gen isec c)

/-- `ErrLGIWriteFullSectors`, on the checksums of its sectors, of which there is at least one. -/
def errLGIWriteFullSectors (s : Stream) (c : BitVec 64) (cs : List (BitVec 64)) : Stream where
  file :=
    let file := writeSectors f s.file s.isecWrite (c :: cs)
    -- with nothing to write over the shadow, the shadow gets the new version as well
    if s.fHaveShadow && cs.isEmpty then writeShadow f file s.isecWrite c else file
  acc := cs.foldl (accumulateSectorChecksum · · false)
    (accumulateSectorChecksum s.acc c s.fHaveShadow)
  isecWrite := s.isecWrite + (cs.length + 1)
  fHaveShadow := false

def errLGIWritePartialSector (s : Stream) (c : BitVec 64) : Stream where
  file := writeShadow f (writeSectors f s.file s.isecWrite [c]) s.isecWrite c
  acc := accumulateSectorChecksum s.acc c s.fHaveShadow
  isecWrite := s.isecWrite
  fHaveShadow := true

/-- State of the loop of `ErrLGCheckReadLastLogRecordFF`; `isecNext` is one past the last valid
segment. -/
structure Scan where
  file : Nat → Sector
  acc : Accumulator
  fEmptyPageSeen : Bool
  isecNext : Nat

def Scan.good (z : Scan) (isec : Nat) (c : BitVec 64) : Scan :=
  { z with acc := accumulateSectorChecksum z.acc c false, isecNext := isec + 1 }

def Scan.fixUp (z : Scan) (isec : Nat) : Option Scan :=
  match z.file (isec + 1) with
  | .stamped g i c =>
    if i = isec ∧ g = f.gen ∧ f.fPatch then
      some ({ z with file := update z.file isec (.stamped g i c) }.good isec c)
    else none
  | _ => none

def Scan.step (z : Scan) (isec : Nat) : Option Scan :=
  let empty := some { z with fEmptyPageSeen := true }
  let corrupt := if z.fEmptyPageSeen then none else z.fixUp f isec
  match z.file isec with
  | .stamped g i c =>
    if i = isec then
      if g < f.gen then empty
      else if f.gen < g ∨ z.fEmptyPageSeen then none
      else some (z.good isec c)
    else if isec ≠ f.csecHeader ∧ i = isec - 1 then empty
    else corrupt
  | .zeroed => if f.fZeroFilled then empty else corrupt
  | .bad => corrupt
  | .unreadable => z.fixUp f isec

/-- `ErrLGCheckReadLastLogRecordFF` up to the search for a closing record; `none` is an error. -/
def errLGCheckReadLastLogRecordFF (file : Nat → Sector) : Option Scan :=
  (range' f.csecHeader (f.csecLGFile - 1 - f.csecHeader)).foldlM (Scan.step f)
    ⟨file, resetAccumulatedSectorChecksum, false, f.csecHeader⟩

/-- A new writer over the scanned file, where the scan seeds `m_isecWrite`. -/
def restart (s : Stream) : Option Stream :=
  (errLGCheckReadLastLogRecordFF f s.file).map fun z => ⟨z.file, z.acc, z.isecNext, false⟩

/-- What a sector may hold that the generation has not written: zeros, a segment of an older
generation, or the shadow of the sector before it. -/
def Empty (isec : Nat) (x : Sector) : Prop :=
  (x = .zeroed ∧ f.fZeroFilled) ∨ (∃ g c, x = .stamped g isec c ∧ g < f.gen) ∨
    ∃ g c, x = .stamped g (isec - 1) c ∧ f.csecHeader < isec

/-- A write leaves the versions of the sectors before the one it starts at. -/
abbrev Stream.kept (s : Stream) (vs : List (BitVec 64)) : List (BitVec 64) :=
  vs.take (s.isecWrite - f.csecHeader)

/-- The writer's states, each with the checksums of the latest versions of its data sectors. -/
inductive Run : Stream → List (BitVec 64) → Prop
  | create {file : Nat → Sector}
      (old : ∀ isec, f.csecHeader ≤ isec → Empty f isec (file isec)) :
      Run ⟨file, resetAccumulatedSectorChecksum, f.csecHeader, false⟩ []
  | full {s vs} (c cs) : Run s vs → s.isecWrite + (cs.length + 1) ≤ f.csecLGFile - 1 →
      Run (errLGIWriteFullSectors f s c cs) (s.kept f vs ++ c :: cs)
  | part {s vs} (c) : Run s vs → s.isecWrite < f.csecLGFile - 1 →
      Run (errLGIWritePartialSector f s c) (s.kept f vs ++ [c])
  | restart {s s' vs} : Run s vs → restart f s = some s' → Run s' vs

def xorAll (vs : List (BitVec 64)) : BitVec 64 := vs.foldl (· ^^^ ·) 0

/-- The value the next checksum is added to. -/
def Stream.base (s : Stream) : BitVec 64 :=
  if s.fHaveShadow then s.acc.checksumAccSectorsPrev else s.acc.checksumAccSectors

structure Held (s : Stream) (vs : List (BitVec 64)) : Prop where
  place : s.isecWrite + s.fHaveShadow.toNat = f.csecHeader + vs.length
  start : f.csecHeader ≤ s.isecWrite
  room : f.csecHeader + vs.length ≤ f.csecLGFile - 1
  data : ∀ i c, vs[i]? = some c → s.file (f.csecHeader + i) = .stamped f.gen (f.csecHeader + i) c
  rest : ∀ isec, f.csecHeader + vs.length ≤ isec → Empty f isec (s.file isec)
  acc : s.acc.checksumAccSectors = xorAll vs
  base : s.base = xorAll (s.kept f vs)

variable {f} {s : Stream} {vs : List (BitVec 64)}

theorem accumulate_eq (s : Stream) (c : BitVec 64) :
    accumulateSectorChecksum s.acc c s.fHaveShadow = ⟨s.base ^^^ c, s.base⟩ := by
  unfold accumulateSectorChecksum Stream.base
  split <;> rfl

theorem foldl_accumulate (a : Accumulator) (cs : List (BitVec 64)) :
    (cs.foldl (accumulateSectorChecksum · · false) a).checksumAccSectors =
      cs.foldl (· ^^^ ·) a.checksumAccSectors := by
  induction cs generalizing a with
  | nil => rfl
  | cons c cs ih => exact ih _

section

variable (h : Held f s vs)
include h

theorem Held.write {s' : Stream} {cs : List (BitVec 64)}
    (room : s.isecWrite + cs.length ≤ f.csecLGFile - 1) (pos : 0 < cs.length)
    (place : s'.isecWrite + s'.fHaveShadow.toNat = s.isecWrite + cs.length)
    (start : s.isecWrite ≤ s'.isecWrite)
    (file : ∀ isec, s'.file isec = writeSectors f s.file s.isecWrite cs isec ∨
      isec = s.isecWrite + cs.length ∧ ∃ c, s'.file isec = .stamped f.gen (isec - 1) c)
    (acc : s'.acc.checksumAccSectors = cs.foldl (· ^^^ ·) s.base)
    (base : s'.base = (cs.take (s'.isecWrite - s.isecWrite)).foldl (· ^^^ ·) s.base) :
    Held f s' (s.kept f vs ++ cs) := by
  have hstart := h.start
  have hplace := h.place
  have hbit := s.fHaveShadow.toNat_le
  have hkept : (s.kept f vs).length = s.isecWrite - f.csecHeader := by
    rw [length_take]
    omega
  have hlen : f.csecHeader + (s.kept f vs ++ cs).length = s.isecWrite + cs.length := by
    rw [length_append, hkept]
    omega
  refine ⟨by omega, by omega, by omega, ?_, ?_, ?_, ?_⟩
  · intro i c hi
    have hi' : i < (s.kept f vs ++ cs).length := (List.getElem?_eq_some_iff.mp hi).1
    rw [(file (f.csecHeader + i)).resolve_right (by omega), writeSectors]
    by_cases hold : i < s.isecWrite - f.csecHeader
    · rw [getElem?_append_left (by omega), getElem?_take_of_lt hold] at hi
      rw [if_neg (by omega)]
      exact h.data i c hi
    · rw [getElem?_append_right (by omega), hkept] at hi
      have hoff : f.csecHeader + i - s.isecWrite = i - (s.isecWrite - f.csecHeader) := by omega
      rw [if_pos (by omega), hoff, hi]
  · intro isec hisec
    rcases file isec with heq | ⟨heq, c, hc⟩
    · rw [heq, writeSectors, if_pos (by omega), getElem?_eq_none (by omega)]
      exact h.rest isec (by omega)
    · exact .inr (.inr ⟨f.gen, c, hc, by omega⟩)
  · rw [acc, h.base, xorAll, xorAll, foldl_append]
  · have hkept' : s'.kept f (s.kept f vs ++ cs) =
        s.kept f vs ++ cs.take (s'.isecWrite - s.isecWrite) := by
      rw [Stream.kept, take_append, hkept, take_of_length_le (by omega)]
      congr 2
      omega
    rw [base, h.base, hkept', xorAll, xorAll, foldl_append]

theorem Held.full (c : BitVec 64) (cs : List (BitVec 64))
    (room : s.isecWrite + (cs.length + 1) ≤ f.csecLGFile - 1) :
    Held f (errLGIWriteFullSectors f s c cs) (s.kept f vs ++ c :: cs) := by
  have hacc : (errLGIWriteFullSectors f s c cs).acc.checksumAccSectors =
      (c :: cs).foldl (· ^^^ ·) s.base := by
    simp only [errLGIWriteFullSectors, foldl_accumulate, accumulate_eq, foldl_cons]
  refine h.write room (by simp) rfl (by simp [errLGIWriteFullSectors]) ?_ hacc ?_
  · intro isec
    dsimp only [errLGIWriteFullSectors, writeShadow]
    split
    · by_cases hi : isec = s.isecWrite + 1
      · subst hi
        exact .inr ⟨by simp_all, c, by simp⟩
      · rw [update_of_ne hi]
        exact .inl rfl
    · exact .inl rfl
  · simpa [Stream.base, errLGIWriteFullSectors] using hacc

theorem Held.part (c : BitVec 64) (room : s.isecWrite < f.csecLGFile - 1) :
    Held f (errLGIWritePartialSector f s c) (s.kept f vs ++ [c]) := by
  refine h.write (show s.isecWrite + [c].length ≤ _ from room) Nat.one_pos rfl (Nat.le_refl _)
    ?_ ?_ ?_
  · intro isec
    by_cases hi : isec = s.isecWrite + 1
    · subst hi
      exact .inr ⟨rfl, c, by simp [errLGIWritePartialSector, writeShadow]⟩
    · exact .inl (update_of_ne hi _ _)
  · simp [errLGIWritePartialSector, accumulate_eq]
  · simp [errLGIWritePartialSector, accumulate_eq, Stream.base]

theorem Held.scan (n : Nat) :
    ∃ a, (range' f.csecHeader n).foldlM (Scan.step f)
        ⟨s.file, resetAccumulatedSectorChecksum, false, f.csecHeader⟩ =
      some ⟨s.file, a, decide (vs.length < n), f.csecHeader + min n vs.length⟩ ∧
      a.checksumAccSectors = xorAll (vs.take n) := by
  induction n with
  | zero => exact ⟨_, rfl, by simp [resetAccumulatedSectorChecksum, xorAll]⟩
  | succ n ih =>
    obtain ⟨a, hfold, ha⟩ := ih
    simp only [range'_concat, foldlM_append, hfold, Nat.one_mul]
    by_cases hn : n < vs.length
    · have hc := h.data n vs[n] (getElem?_eq_getElem hn)
      refine ⟨accumulateSectorChecksum a vs[n] false, ?_, ?_⟩
      · simp [Scan.step, hc, Scan.good]
        omega
      · rw [take_succ_eq_append_getElem hn, xorAll, foldl_append]
        simp [accumulateSectorChecksum, ha, xorAll]
    · have htake : vs.take (n + 1) = vs.take n := by
        rw [take_of_length_le (by omega), take_of_length_le (by omega)]
      refine ⟨a, ?_, htake ▸ ha⟩
      have hmin : min (n + 1) vs.length = min n vs.length := by omega
      have hlt : vs.length < n + 1 := by omega
      rcases h.rest (f.csecHeader + n) (by omega) with ⟨hx, hz⟩ | ⟨g, c, hx, hg⟩ | ⟨g, c, hx, hi⟩
      · simp [Scan.step, hx, hz, hmin, hlt]
      · simp [Scan.step, hx, hg, hmin, hlt]
      · have hne : f.csecHeader + n - 1 ≠ f.csecHeader + n := by omega
        have hne' : n ≠ 0 := by omega
        simp [Scan.step, hx, hne, hne', hmin, hlt]

theorem Held.check : ∃ z, errLGCheckReadLastLogRecordFF f s.file = some z ∧
    z.acc.checksumAccSectors = xorAll vs ∧ z.file = s.file ∧
    z.isecNext = f.csecHeader + vs.length := by
  have hroom := h.room
  obtain ⟨a, hfold, ha⟩ := h.scan (f.csecLGFile - 1 - f.csecHeader)
  refine ⟨_, hfold, ?_, rfl, by dsimp only; omega⟩
  rw [take_of_length_le (by omega)] at ha
  exact ha

theorem Held.restart {s' : Stream} (hs : restart f s = some s') : Held f s' vs := by
  obtain ⟨z, hz, hacc, hfile, hnext⟩ := h.check
  rw [LogAccumulate.restart, hz] at hs
  cases hs
  refine ⟨hnext, by dsimp only; omega, h.room, ?_, ?_, hacc,
    by simp [Stream.base, Stream.kept, hacc, hnext]⟩
  · simpa only [hfile] using h.data
  · simpa only [hfile] using h.rest

end

theorem Run.held (h : Run f s vs) : Held f s vs := by
  induction h with
  | create old =>
    exact ⟨rfl, Nat.le_refl _, Nat.le_sub_one_of_lt f.holds, by simp, old, rfl,
      by simp [xorAll, Stream.base, resetAccumulatedSectorChecksum]⟩
  | full c cs _ hroom ih => exact ih.full c cs hroom
  | part c _ hroom ih => exact ih.part c hroom
  | restart _ hs ih => exact ih.restart hs

/-- The accumulated checksum is that of the latest versions of the data sectors, in the writer and
in a scan of its file. -/
theorem accumulated_exact (f : LogFile) (s : Stream) (vs : List (BitVec 64)) (h : Run f s vs) :
    (∀ i c, vs[i]? = some c → s.file (f.csecHeader + i) = .stamped f.gen (f.csecHeader + i) c) ∧
      s.acc.checksumAccSectors = xorAll vs ∧
      (errLGCheckReadLastLogRecordFF f s.file).map (·.acc.checksumAccSectors) =
        some (xorAll vs) := by
  have hheld := h.held
  obtain ⟨z, hz, hacc, -, -⟩ := hheld.check
  exact ⟨hheld.data, hheld.acc, by rw [hz, Option.map_some, hacc]⟩

/-- A partial sector is written twice and then completed together with the next one. -/
theorem rewritten_sector_exact :
    ∃ s : Stream, s.isecWrite = 3 ∧ s.acc.checksumAccSectors = xorAll [7, 9] := by
  have h : Run ⟨5, 1, 8, true, true, by decide⟩ _ _ :=
    .full 7 [9] (.part 3 (.part 2 (@Run.create _ (fun _ => .zeroed) fun _ _ => .inl ⟨rfl, rfl⟩)
      (by decide)) (by decide)) (by decide)
  exact ⟨_, rfl, (accumulated_exact _ _ _ h).2.1⟩

end EseLinux.LogAccumulate
