import Mathlib.Data.Multiset.AddSub

/-!
The page range locks of a database file (fmp.cxx): two arrays that take turns as the current one and
the next copy, against the multiset of the ranges that are held.
-/

namespace EseLinux.PageRangeLock

structure Range where
  pgnoStart : Nat
  pgnoEnd : Nat
  deriving DecidableEq

def Range.fContains (range : Range) (pgno : Nat) : Bool :=
  pgno ≥ range.pgnoStart && pgno ≤ range.pgnoEnd

def Range.fOverlaps (this range : Range) : Bool :=
  range.pgnoStart ≤ this.pgnoEnd && range.pgnoEnd ≥ this.pgnoStart

/-- `RANGELOCK`: `crange` is the length of the list. -/
structure RangeLock where
  rgrange : List Range
  crangeMax : Nat

/-- `m_rgprangelock` by the active and the inactive group of `m_msRangeLock`. -/
structure Fmp where
  cur : RangeLock
  new : RangeLock

inductive Err
  | success | outOfMemory | tooManyActiveUsers
  deriving DecidableEq

def Fmp.initial : Fmp := ⟨⟨[], 1⟩, ⟨[], 1⟩⟩

def Fmp.partition (fmp : Fmp) : Fmp := ⟨fmp.new, fmp.cur⟩

/-- `CMeteredSection::GroupEnter` with so many active users -/
def groupEnter (cActive : Nat) : Bool := cActive + 1 ≤ 0x7ffe

def lNextPowerOf2 (x : BitVec 32) : BitVec 32 :=
  if x = 0 then 1
  else
    let n := x - 1
    let n := n ||| n.sshiftRight 1
    let n := n ||| n.sshiftRight 2
    let n := n ||| n.sshiftRight 4
    let n := n ||| n.sshiftRight 8
    let n := n ||| n.sshiftRight 16
    let n := n + 1
    if x.sle n then n else -1

def crangeMaxFor (crangeNew : Nat) : Nat :=
  let crangeMaxT := (lNextPowerOf2 (BitVec.ofNat 32 crangeNew)).toInt
  if 0 ≤ crangeMaxT ∧ crangeNew ≤ crangeMaxT.toNat then crangeMaxT.toNat else crangeNew

def errIAddRangeLock (fmp : Fmp) (fAlloc : Bool) (range : Range) : Err × Fmp :=
  let crangeNew := fmp.cur.rgrange.length + 1
  if fmp.new.crangeMax < crangeNew then
    if fAlloc then
      (.success, Fmp.partition ⟨fmp.cur, ⟨fmp.cur.rgrange ++ [range], crangeMaxFor crangeNew⟩⟩)
    else (.outOfMemory, fmp)
  else (.success, Fmp.partition ⟨fmp.cur, ⟨fmp.cur.rgrange ++ [range], fmp.new.crangeMax⟩⟩)

/-- The loop of `IRemoveRangeLock`: all ranges but the first that matches. -/
def copyBut (range : Range) : Bool → List Range → List Range
  | _, [] => []
  | fRemovedRange, r :: rgrange =>
    if fRemovedRange ∨ r ≠ range then r :: copyBut range fRemovedRange rgrange
    else copyBut range true rgrange

def iRemoveRangeLock (fmp : Fmp) (range : Range) : Fmp :=
  Fmp.partition ⟨fmp.cur, ⟨copyBut range false fmp.cur.rgrange, fmp.new.crangeMax⟩⟩

def fEnterRangeLock (fmp : Fmp) (cActive pgno : Nat) : Bool :=
  groupEnter cActive && !fmp.cur.rgrange.any (·.fContains pgno)

def errRangeLockAndEnter (fmp : Fmp) (fAlloc : Bool) (cActive : Nat) (range : Range) : Err × Fmp :=
  if fmp.cur.rgrange.any (·.fOverlaps range) then (.tooManyActiveUsers, fmp)
  else
    match errIAddRangeLock fmp fAlloc range with
    | (.success, fmp) =>
      if groupEnter cActive then (.success, fmp)
      else (.tooManyActiveUsers, iRemoveRangeLock fmp range)
    | (err, fmp) => (err, fmp)

/-- A call, with what its allocation and its `GroupEnter` meet. -/
inductive Call
  | rangeLock (fAlloc : Bool) (range : Range)
  | rangeLockAndEnter (fAlloc : Bool) (cActive : Nat) (range : Range)
  | rangeUnlock (range : Range)
  | rangeUnlockAndLeave (range : Range)

def Fmp.exec (fmp : Fmp) : Call → Err × Fmp
  | .rangeLock fAlloc range => errIAddRangeLock fmp fAlloc range
  | .rangeLockAndEnter fAlloc cActive range => errRangeLockAndEnter fmp fAlloc cActive range
  | .rangeUnlock range | .rangeUnlockAndLeave range => (.success, iRemoveRangeLock fmp range)

def Call.held (held : Multiset Range) : Call → Err → Multiset Range
  | .rangeLock _ range, .success | .rangeLockAndEnter _ _ range, .success => range ::ₘ held
  | .rangeLock .., _ | .rangeLockAndEnter .., _ => held
  | .rangeUnlock range, _ | .rangeUnlockAndLeave range, _ => held.erase range

def Call.Permitted (held : Multiset Range) : Call → Prop
  | .rangeUnlock range | .rangeUnlockAndLeave range => range ∈ held
  | _ => True

inductive Run : Fmp → Multiset Range → Prop
  | initial : Run .initial 0
  | call {fmp : Fmp} {held : Multiset Range} (h : Run fmp held) (c : Call) (hc : c.Permitted held) :
      Run (fmp.exec c).2 (c.held held (fmp.exec c).1)

/-- Neither array is filled past its capacity, and the inactive one has room for all ranges but
one. -/
structure Fits (fmp : Fmp) : Prop where
  cur : fmp.cur.rgrange.length ≤ fmp.cur.crangeMax
  new : fmp.new.rgrange.length ≤ fmp.new.crangeMax
  room : fmp.cur.rgrange.length ≤ fmp.new.crangeMax + 1

variable {fmp : Fmp} {held : Multiset Range} {range : Range}

theorem le_crangeMaxFor (crangeNew : Nat) : crangeNew ≤ crangeMaxFor crangeNew := by
  unfold crangeMaxFor
  dsimp only
  split
  case isTrue h => exact h.2
  · exact le_rfl

theorem copyBut_true (rgrange : List Range) : copyBut range true rgrange = rgrange := by
  induction rgrange with
  | nil => rfl
  | cons r rgrange ih => rw [copyBut, if_pos (.inl rfl), ih]

theorem copyBut_false (rgrange : List Range) :
    copyBut range false rgrange = rgrange.erase range := by
  induction rgrange with
  | nil => rfl
  | cons r rgrange ih =>
    by_cases hr : r = range
    · rw [copyBut, if_neg (by simp [hr]), copyBut_true, hr, List.erase_cons_head]
    · rw [copyBut, if_pos (.inr hr), ih, List.erase_cons_tail (by simpa using hr)]

theorem Fits.add (h : Fits fmp) (fAlloc : Bool) (range : Range) :
    Fits (errIAddRangeLock fmp fAlloc range).2 := by
  have hcur := h.cur
  have hlarge := le_crangeMaxFor (fmp.cur.rgrange.length + 1)
  unfold errIAddRangeLock Fmp.partition
  dsimp only
  split_ifs
  · exact ⟨by simpa using hlarge, hcur, by simpa using hcur⟩
  · exact h
  · exact ⟨by simp; omega, hcur, by simpa using hcur⟩

theorem Fits.remove (h : Fits fmp) (hrange : range ∈ fmp.cur.rgrange) :
    Fits (iRemoveRangeLock fmp range) := by
  have hcur := h.cur
  have hroom := h.room
  have hlen := List.length_erase_of_mem hrange
  unfold iRemoveRangeLock Fmp.partition
  rw [copyBut_false]
  exact ⟨by dsimp only; omega, hcur, by dsimp only; omega⟩

theorem add_cases (fmp : Fmp) (fAlloc : Bool) (range : Range) :
    ((errIAddRangeLock fmp fAlloc range).1 = .success ∧
      (errIAddRangeLock fmp fAlloc range).2.cur.rgrange = fmp.cur.rgrange ++ [range]) ∨
    errIAddRangeLock fmp fAlloc range = (.outOfMemory, fmp) := by
  unfold errIAddRangeLock
  dsimp only
  split_ifs
  · exact .inl ⟨rfl, rfl⟩
  · exact .inr rfl
  · exact .inl ⟨rfl, rfl⟩

theorem coe_append_singleton (rgrange : List Range) (range : Range) :
    ((rgrange ++ [range] : List Range) : Multiset Range) = range ::ₘ rgrange :=
  Multiset.coe_eq_coe.mpr (List.perm_append_singleton range rgrange)

structure Holds (fmp : Fmp) (held : Multiset Range) : Prop extends Fits fmp where
  ranges : held = fmp.cur.rgrange

theorem Holds.add (h : Holds fmp held) (fAlloc : Bool) (range : Range) :
    Holds (errIAddRangeLock fmp fAlloc range).2
      (Call.held held (.rangeLock fAlloc range) (errIAddRangeLock fmp fAlloc range).1) := by
  refine ⟨h.toFits.add fAlloc range, ?_⟩
  rcases add_cases fmp fAlloc range with ⟨hsuccess, hadded⟩ | hfailed
  · rw [hsuccess, hadded, coe_append_singleton, ← h.ranges]
    rfl
  · rw [hfailed]
    exact h.ranges

theorem Holds.remove (h : Holds fmp held) (hrange : range ∈ held) :
    Holds (iRemoveRangeLock fmp range) (held.erase range) := by
  rw [h.ranges, Multiset.mem_coe] at hrange
  refine ⟨h.toFits.remove hrange, ?_⟩
  rw [h.ranges, Multiset.coe_erase, ← copyBut_false]
  rfl

theorem Holds.addAndEnter (h : Holds fmp held) (fAlloc : Bool) (cActive : Nat) (range : Range) :
    Holds (errRangeLockAndEnter fmp fAlloc cActive range).2
      (Call.held held (.rangeLockAndEnter fAlloc cActive range)
        (errRangeLockAndEnter fmp fAlloc cActive range).1) := by
  have hadd := h.add fAlloc range
  unfold errRangeLockAndEnter
  split
  · exact h
  · rcases hresult : errIAddRangeLock fmp fAlloc range with ⟨err, fmp'⟩
    rw [hresult] at hadd
    cases err with
    | success =>
      dsimp only
      split
      · exact hadd
      · -- the range just added is taken out again
        have hremove := hadd.remove (Multiset.mem_cons_self range held)
        rwa [Call.held, Multiset.erase_cons_head] at hremove
    | outOfMemory => exact hadd
    | tooManyActiveUsers => exact hadd

theorem Run.holds (h : Run fmp held) : Holds fmp held := by
  induction h with
  | initial => exact ⟨⟨Nat.zero_le _, Nat.zero_le _, Nat.zero_le _⟩, rfl⟩
  | call _ c hc ih =>
    cases c with
    | rangeLock fAlloc range => exact ih.add fAlloc range
    | rangeLockAndEnter fAlloc cActive range => exact ih.addAndEnter fAlloc cActive range
    | rangeUnlock range => exact ih.remove hc
    | rangeUnlockAndLeave range => exact ih.remove hc

/-- After any calls a writer is refused just if the page is in a range that is held or the group is
full, a range that is locked and entered overlaps none, and no array is overfilled. -/
theorem rangeLocks_refine (fmp : Fmp) (held : Multiset Range) (h : Run fmp held) :
    (∀ cActive pgno, fEnterRangeLock fmp cActive pgno = false ↔
        groupEnter cActive = false ∨ ∃ range ∈ held, range.fContains pgno = true) ∧
      (∀ fAlloc cActive range, (errRangeLockAndEnter fmp fAlloc cActive range).1 = .success →
          ∀ r ∈ held, r.fOverlaps range = false) ∧
      fmp.cur.rgrange.length ≤ fmp.cur.crangeMax ∧
      fmp.new.rgrange.length ≤ fmp.new.crangeMax := by
  have hholds := h.holds
  obtain rfl := hholds.ranges
  refine ⟨fun cActive pgno => ?_, fun fAlloc cActive range hsuccess r hr => ?_, hholds.cur,
    hholds.new⟩
  · simp [fEnterRangeLock, imp_iff_not_or]
  · by_contra hoverlap
    have hany : fmp.cur.rgrange.any (·.fOverlaps range) = true :=
      List.any_eq_true.mpr ⟨r, hr, by simpa using hoverlap⟩
    rw [errRangeLockAndEnter, if_pos hany] at hsuccess
    cases hsuccess

/-- With the group full, a page is refused although no range is held. -/
theorem full_group_refuses :
    Run .initial 0 ∧ fEnterRangeLock .initial 0x7ffe 5 = false ∧
      ¬ ∃ range ∈ (0 : Multiset Range), range.fContains 5 = true :=
  ⟨.initial, rfl, fun ⟨_, hmem, _⟩ => Multiset.notMem_zero _ hmem⟩

theorem one_range_refuses :
    fEnterRangeLock (Fmp.initial.exec (.rangeLock true ⟨4, 6⟩)).2 0 5 = false ∧
      (Fmp.initial.exec (.rangeLock true ⟨4, 6⟩)).2.cur.rgrange.length ≤ 1 :=
  have h := rangeLocks_refine _ _ (Run.initial.call (.rangeLock true ⟨4, 6⟩) trivial)
  ⟨(h.1 0 5).mpr (.inr ⟨⟨4, 6⟩, by decide, rfl⟩), h.2.2.1⟩

end EseLinux.PageRangeLock
