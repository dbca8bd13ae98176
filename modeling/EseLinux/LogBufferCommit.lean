import Mathlib.Data.Set.Basic
import Mathlib.Tactic.Common

/-!
Which part of the log buffer is committed (`logwrite.cxx`).  Pointers into the buffer are offsets
from `_pbLGBufMin`, so that `_pbLGCommitEnd` may be −1; the pages that the system has committed
stand beside what the buffer keeps of them, as a set of bytes.
-/

namespace EseLinux.LogBuffer

open Int

/-- The size of the buffer, a multiple of `OSMemoryPageCommitGranularity`. -/
structure Ring where
  cbLGBuf : Int
  cbCommit : Int
  cbLGBuf_pos : 0 < cbLGBuf
  one_lt_cbCommit : 1 < cbCommit
  dvd : cbCommit ∣ cbLGBuf

namespace Ring

def roundup (r : Ring) (x : Int) : Int := (x + r.cbCommit - 1) / r.cbCommit * r.cbCommit

def rounddn (r : Ring) (x : Int) : Int := x / r.cbCommit * r.cbCommit

def pages (r : Ring) (pb cb : Int) : Set Int :=
  {b | ∃ b', pb ≤ b' ∧ b' < pb + cb ∧ b' / r.cbCommit = b / r.cbCommit}

end Ring

structure Buffer where
  pbLGCommitStart : Int
  pbLGCommitEnd : Int
  /-- The bytes that are committed in the system. -/
  committed : Set Int

variable (r : Ring)

/-- `bPbNextToCommitted` -/
def Buffer.Next (lb : Buffer) (pb : Int) : Prop :=
  if lb.pbLGCommitStart ≤ lb.pbLGCommitEnd then
    (lb.pbLGCommitStart ≤ pb ∧ pb ≤ lb.pbLGCommitEnd + 1) ∨
      (lb.pbLGCommitEnd = r.cbLGBuf - 1 ∧ pb = 0)
  else lb.pbLGCommitStart ≤ pb ∨ pb ≤ lb.pbLGCommitEnd + 1

instance (lb : Buffer) (pb : Int) : Decidable (lb.Next r pb) := by
  unfold Buffer.Next
  infer_instance

/-- `Commit` once the bytes are next to what is committed; the flags are what the two calls of
`FOSMemoryPageCommit` return. -/
def Buffer.commitNext (lb : Buffer) (pb cb : Int) (fFirst fSecond : Bool) : Buffer × Bool :=
  if pb + cb ≤ r.cbLGBuf then
    if fFirst then
      let committed := lb.committed ∪ r.pages pb cb
      let pbFirstUncommitted := r.roundup (pb + cb)
      if lb.pbLGCommitStart ≤ pbFirstUncommitted ∧
          ((lb.pbLGCommitEnd < lb.pbLGCommitStart ∧ pb ≤ lb.pbLGCommitEnd + 1) ∨
            (lb.pbLGCommitStart ≤ lb.pbLGCommitEnd ∧ lb.pbLGCommitEnd = r.cbLGBuf - 1 ∧
              pb = 0)) then
        -- fully committed
        (⟨lb.pbLGCommitStart, lb.pbLGCommitStart - 1, committed⟩, true)
      else (⟨lb.pbLGCommitStart, pbFirstUncommitted - 1, committed⟩, true)
    else (lb, false)
  else if pb = r.cbLGBuf ∨ fFirst then
    let committed := lb.committed ∪ r.pages pb (r.cbLGBuf - pb)
    if fSecond then
      let committed := committed ∪ r.pages 0 (pb + cb - r.cbLGBuf)
      if lb.pbLGCommitStart ≤ lb.pbLGCommitEnd ∨ lb.pbLGCommitStart ≤ pb then
        let pbFirstUncommitted := r.roundup (pb + cb - r.cbLGBuf) - 1
        if lb.pbLGCommitStart ≤ pbFirstUncommitted then
          (⟨lb.pbLGCommitStart, lb.pbLGCommitStart - 1, committed⟩, true)
        else (⟨lb.pbLGCommitStart, pbFirstUncommitted, committed⟩, true)
      else (⟨lb.pbLGCommitStart, lb.pbLGCommitStart - 1, committed⟩, true)
    else ({ lb with committed }, false)
  else (lb, false)

/-- Bytes that are not next to what is committed are not expected; then all of the buffer is. -/
def Buffer.commit (lb : Buffer) (pb cb : Int) (fFirst fSecond : Bool) : Buffer × Bool :=
  if lb.Next r pb then lb.commitNext r pb cb fFirst fSecond
  else { lb with pbLGCommitStart := 0 }.commitNext r 0 r.cbLGBuf fFirst fSecond

def initCommit (cBytes : Int) (fFirst fSecond : Bool) : Buffer × Bool :=
  (⟨0, 0, ∅⟩ : Buffer).commit r 0 (r.roundup cBytes) fFirst fSecond

def Buffer.fIsCommitted (lb : Buffer) (pb cb : Int) : Bool :=
  if lb.pbLGCommitStart ≤ lb.pbLGCommitEnd then
    decide (lb.pbLGCommitStart ≤ pb ∧ pb + cb - 1 ≤ lb.pbLGCommitEnd)
  else if lb.pbLGCommitEnd = lb.pbLGCommitStart - 1 then true
  else if pb ≤ lb.pbLGCommitEnd then decide (pb + cb - 1 ≤ lb.pbLGCommitEnd)
  else if lb.pbLGCommitStart ≤ pb then decide (pb + cb - 1 ≤ lb.pbLGCommitEnd + r.cbLGBuf)
  else false

def cBytesAdditionalCommit : Int := 16 * 1024

def Buffer.ensureCommitted (lb : Buffer) (pb cb : Int) (fFirst fSecond : Bool) : Buffer × Bool :=
  if lb.fIsCommitted r pb cb then (lb, true)
  else lb.commit r pb (cb + cBytesAdditionalCommit) fFirst fSecond

/-- The pages between two boundaries are decommitted, and what is committed starts behind them. -/
def Buffer.release (lb : Buffer) (pbStart pbEnd : Int) : Buffer :=
  if pbEnd ≤ r.cbLGBuf then
    if pbStart < pbEnd then
      { lb with
        committed := lb.committed \ r.pages pbStart (pbEnd - pbStart)
        pbLGCommitStart := if pbEnd = r.cbLGBuf then 0 else pbEnd }
    else lb
  else
    { lb with
      committed := (lb.committed \ r.pages pbStart (r.cbLGBuf - pbStart)) \
        r.pages 0 (pbEnd - r.cbLGBuf)
      pbLGCommitStart := pbEnd - r.cbLGBuf }

/-- `Decommit`, whose last call of `FOSMemoryPageCommit` succeeds. -/
def Buffer.decommit (lb : Buffer) (pb cb : Int) : Buffer :=
  let pbStart := r.roundup pb
  let pbEnd := r.rounddn (pb + cb)
  let lb := lb.release r pbStart pbEnd
  let lb : Buffer :=
    { lb with
      pbLGCommitEnd := if pbEnd - pbStart = r.cbLGBuf then lb.pbLGCommitStart else pbStart - 1 }
  if lb.pbLGCommitStart = lb.pbLGCommitEnd then
    (lb.commit r lb.pbLGCommitStart r.cbCommit true true).1
  else lb

structure State where
  lb : Buffer
  pbWrite : Int
  pbEntry : Int

def Ring.advance (pb n : Int) : Int :=
  if r.cbLGBuf ≤ pb + n then pb + n - r.cbLGBuf else pb + n

def State.cbUsed (s : State) : Int :=
  if s.pbWrite ≤ s.pbEntry then s.pbEntry - s.pbWrite else s.pbEntry + r.cbLGBuf - s.pbWrite

def State.cbFree (s : State) : Int :=
  if s.pbWrite ≤ s.pbEntry then r.cbLGBuf - (s.pbEntry - s.pbWrite) else s.pbWrite - s.pbEntry

inductive Step : State → State → Prop
  /-- Bytes are asked for at the entry pointer, which passes some of them; a byte stays free. -/
  | enter {s : State} {lb : Buffer} {cb n : Int} {fFirst fSecond : Bool} :
      s.lb.ensureCommitted r s.pbEntry cb fFirst fSecond = (lb, true) → 0 ≤ n → n ≤ cb →
      s.cbUsed r + n < r.cbLGBuf → Step s ⟨lb, s.pbWrite, r.advance s.pbEntry n⟩
  | fail {s : State} {lb : Buffer} {cb : Int} {fFirst fSecond : Bool} : 0 ≤ cb →
      s.lb.ensureCommitted r s.pbEntry cb fFirst fSecond = (lb, false) →
      Step s ⟨lb, s.pbWrite, s.pbEntry⟩
  | write {s : State} {n : Int} : 0 ≤ n → n ≤ s.cbUsed r →
      Step s ⟨s.lb, r.advance s.pbWrite n, s.pbEntry⟩
  | decommit {s : State} :
      Step s ⟨s.lb.decommit r s.pbEntry (s.cbFree r), s.pbWrite, s.pbEntry⟩

inductive Reaches : State → Prop
  | start {lb : Buffer} {fFirst fSecond : Bool} :
      initCommit r r.cbCommit fFirst fSecond = (lb, true) → Reaches ⟨lb, 0, 0⟩
  | step {s s' : State} : Reaches s → Step r s s' → Reaches s'

namespace Ring

variable {r} {a b b' x pb cb : Int}

theorem cbCommit_pos (r : Ring) : 0 < r.cbCommit := Int.lt_trans Int.zero_lt_one r.one_lt_cbCommit

theorem roundup_eq (r : Ring) (x : Int) :
    r.roundup x = ((x - 1) / r.cbCommit + 1) * r.cbCommit := by
  have hpos := r.cbCommit_pos
  rw [roundup, show x + r.cbCommit - 1 = x - 1 + 1 * r.cbCommit by omega,
    add_mul_ediv_right _ _ (by omega)]

theorem le_roundup (r : Ring) (x : Int) : x ≤ r.roundup x := by
  have hlt := lt_ediv_add_one_mul_self (x - 1) r.cbCommit_pos
  rw [roundup_eq]
  omega

theorem dvd_roundup (r : Ring) (x : Int) : r.cbCommit ∣ r.roundup x := Int.dvd_mul_left _ _

theorem rounddn_le (r : Ring) (x : Int) : r.rounddn x ≤ x :=
  Int.ediv_mul_le x (Int.ne_of_gt r.cbCommit_pos)

theorem roundup_le (hdvd : r.cbCommit ∣ a) (hle : x ≤ a) : r.roundup x ≤ a := by
  obtain ⟨k, rfl⟩ := hdvd
  have hlt : (x - 1) / r.cbCommit < k := by
    rw [Int.ediv_lt_iff_lt_mul r.cbCommit_pos, Int.mul_comm]
    omega
  rw [roundup_eq, Int.mul_comm r.cbCommit]
  exact Int.mul_le_mul_of_nonneg_right hlt (Int.le_of_lt r.cbCommit_pos)

theorem le_rounddn (hdvd : r.cbCommit ∣ a) (hle : a ≤ x) : a ≤ r.rounddn x := by
  obtain ⟨k, rfl⟩ := hdvd
  have hk : k ≤ x / r.cbCommit := by
    rwa [Int.le_ediv_iff_mul_le r.cbCommit_pos, Int.mul_comm]
  rw [rounddn, Int.mul_comm r.cbCommit]
  exact Int.mul_le_mul_of_nonneg_right hk (Int.le_of_lt r.cbCommit_pos)

theorem lt_iff_of_mate (hdvd : r.cbCommit ∣ a) (h : b / r.cbCommit = b' / r.cbCommit) :
    b < a ↔ b' < a := by
  obtain ⟨k, rfl⟩ := hdvd
  rw [Int.mul_comm, ← Int.ediv_lt_iff_lt_mul r.cbCommit_pos, h,
    Int.ediv_lt_iff_lt_mul r.cbCommit_pos]

theorem mate_of_lt_roundup (hle : x ≤ b) (hlt : b < r.roundup x) :
    (x - 1) / r.cbCommit = b / r.cbCommit := by
  rw [roundup_eq, ← Int.ediv_lt_iff_lt_mul r.cbCommit_pos] at hlt
  have hmono := Int.ediv_le_ediv r.cbCommit_pos (show x - 1 ≤ b by omega)
  omega

theorem mate_of_rounddn_le (hle : r.rounddn x ≤ b) (hlt : b ≤ x) :
    x / r.cbCommit = b / r.cbCommit := by
  rw [rounddn, ← Int.le_ediv_iff_mul_le r.cbCommit_pos] at hle
  have hmono := Int.ediv_le_ediv r.cbCommit_pos hlt
  omega

theorem mem_pages_of_lt_roundup (hpos : 0 < cb) (hle : pb ≤ b) (hlt : b < r.roundup (pb + cb)) :
    b ∈ r.pages pb cb := by
  by_cases hin : b < pb + cb
  · exact ⟨b, hle, hin, rfl⟩
  · exact ⟨pb + cb - 1, by omega, by omega, mate_of_lt_roundup (by omega) hlt⟩

theorem pages_of_dvd (hdvd : r.cbCommit ∣ pb) (hdvd' : r.cbCommit ∣ pb + cb)
    (h : b ∈ r.pages pb cb) : pb ≤ b ∧ b < pb + cb := by
  obtain ⟨b', hle, hlt, hmate⟩ := h
  have hfirst := lt_iff_of_mate hdvd hmate
  have hlast := lt_iff_of_mate hdvd' hmate
  omega

end Ring

variable {r} {lb lb' : Buffer} {pb cb : Int} {fFirst fSecond : Bool}

theorem Buffer.next_iff : lb.Next r pb ↔ (lb.pbLGCommitStart ≤ lb.pbLGCommitEnd ∧
      ((lb.pbLGCommitStart ≤ pb ∧ pb ≤ lb.pbLGCommitEnd + 1) ∨
        (lb.pbLGCommitEnd = r.cbLGBuf - 1 ∧ pb = 0))) ∨
    (lb.pbLGCommitEnd < lb.pbLGCommitStart ∧
      (lb.pbLGCommitStart ≤ pb ∨ pb ≤ lb.pbLGCommitEnd + 1)) := by
  unfold Buffer.Next
  split <;> omega

def Buffer.Claimed (lb : Buffer) (b : Int) : Prop :=
  (lb.pbLGCommitStart ≤ lb.pbLGCommitEnd ∧ lb.pbLGCommitStart ≤ b ∧ b ≤ lb.pbLGCommitEnd) ∨
    (lb.pbLGCommitEnd < lb.pbLGCommitStart ∧ (lb.pbLGCommitStart ≤ b ∨ b ≤ lb.pbLGCommitEnd))

def Mates (r : Ring) (committed : Set Int) : Prop :=
  ∀ b b', b / r.cbCommit = b' / r.cbCommit → b ∈ committed → b' ∈ committed

structure Buffer.Sound (r : Ring) (lb : Buffer) : Prop where
  start_nonneg : 0 ≤ lb.pbLGCommitStart
  start_lt : lb.pbLGCommitStart < r.cbLGBuf
  end_ge : -1 ≤ lb.pbLGCommitEnd
  end_lt : lb.pbLGCommitEnd < r.cbLGBuf
  mates : Mates r lb.committed
  claimed : ∀ b, 0 ≤ b → b < r.cbLGBuf → lb.Claimed b → b ∈ lb.committed

/-- A pointer is next to what is committed; it may not be if everything is. -/
def Buffer.Near (r : Ring) (lb : Buffer) (pb : Int) : Prop :=
  lb.Next r pb ∨ ∀ b, 0 ≤ b → b < r.cbLGBuf → b ∈ lb.committed

variable {committed : Set Int}

theorem Ring.advance_cases (r : Ring) (pb n : Int) :
    (r.cbLGBuf ≤ pb + n ∧ r.advance pb n = pb + n - r.cbLGBuf) ∨
      (pb + n < r.cbLGBuf ∧ r.advance pb n = pb + n) := by
  unfold Ring.advance
  split <;> omega

theorem Mates.union (h : Mates r committed) (pb cb : Int) :
    Mates r (committed ∪ r.pages pb cb) := by
  rintro b b' hmate (hb | ⟨b'', hle, hlt, hb⟩)
  · exact .inl (h b b' hmate hb)
  · exact .inr ⟨b'', hle, hlt, hb.trans hmate⟩

theorem Mates.diff (h : Mates r committed) (pb cb : Int) : Mates r (committed \ r.pages pb cb) := by
  rintro b b' hmate ⟨hb, hout⟩
  refine ⟨h b b' hmate hb, ?_⟩
  rintro ⟨b'', hle, hlt, hb'⟩
  exact hout ⟨b'', hle, hlt, hb'.trans hmate.symm⟩

/-- What a commit needs of the buffer: the claimed bytes are committed, or will be by this. -/
structure Buffer.Ready (r : Ring) (lb : Buffer) (pb cb : Int) : Prop where
  start_nonneg : 0 ≤ lb.pbLGCommitStart
  start_lt : lb.pbLGCommitStart < r.cbLGBuf
  end_ge : -1 ≤ lb.pbLGCommitEnd
  end_lt : lb.pbLGCommitEnd < r.cbLGBuf
  mates : Mates r lb.committed
  claimed : ∀ b, 0 ≤ b → b < r.cbLGBuf → lb.Claimed b → b ∈ lb.committed ∨ (pb ≤ b ∧ b < pb + cb)

structure Buffer.Commits (r : Ring) (lb lb' : Buffer) (pb cb : Int) : Prop where
  sound : lb'.Sound r
  subset : lb.committed ⊆ lb'.committed
  range : ∀ b, 0 ≤ b → b < r.cbLGBuf →
    (pb ≤ b ∧ b < pb + cb) ∨ (pb ≤ b + r.cbLGBuf ∧ b + r.cbLGBuf < pb + cb) → b ∈ lb'.committed
  near : ∀ n, 0 ≤ n → n ≤ cb → n < r.cbLGBuf → lb'.Near r (r.advance pb n)

variable {pbEnd : Int}

theorem Buffer.Ready.commits {P : Int → Prop}
    (h : lb.Ready r pb cb) (hend : -1 ≤ pbEnd ∧ pbEnd < r.cbLGBuf) (hmates : Mates r committed)
    (hsub : lb.committed ⊆ committed) (hnew : ∀ b, 0 ≤ b → b < r.cbLGBuf → P b → b ∈ committed)
    (hrange : ∀ b, 0 ≤ b → b < r.cbLGBuf →
      (pb ≤ b ∧ b < pb + cb) ∨ (pb ≤ b + r.cbLGBuf ∧ b + r.cbLGBuf < pb + cb) → P b)
    (hclaimed : ∀ b, 0 ≤ b → b < r.cbLGBuf →
      Buffer.Claimed ⟨lb.pbLGCommitStart, pbEnd, committed⟩ b → lb.Claimed b ∨ P b)
    (hnear : ∀ n, 0 ≤ n → n ≤ cb → n < r.cbLGBuf →
      Buffer.Near r ⟨lb.pbLGCommitStart, pbEnd, committed⟩ (r.advance pb n)) :
    lb.Commits r ⟨lb.pbLGCommitStart, pbEnd, committed⟩ pb cb := by
  refine ⟨⟨h.start_nonneg, h.start_lt, hend.1, hend.2, hmates, fun b hb hbN hin => ?_⟩, hsub,
    fun b hb hbN hin => hnew b hb hbN (hrange b hb hbN hin), hnear⟩
  rcases hclaimed b hb hbN hin with hold | hin
  · rcases h.claimed b hb hbN hold with hold | hold
    · exact hsub hold
    · exact hnew b hb hbN (hrange b hb hbN (.inl hold))
  · exact hnew b hb hbN hin

theorem Buffer.Ready.commitNext_inside (h : lb.Ready r pb cb) (hpb : 0 ≤ pb) (hcb : 0 < cb)
    (hnext : lb.Next r pb) (hle : pb + cb ≤ r.cbLGBuf)
    (heq : lb.commitNext r pb cb fFirst fSecond = (lb', true)) : lb.Commits r lb' pb cb := by
  obtain ⟨hstart, hstart', hend, hend', -, -⟩ := id h
  have hR := r.le_roundup (pb + cb)
  have hRN := Ring.roundup_le r.dvd hle
  have hcommits (pbEnd : Int) (hend : -1 ≤ pbEnd ∧ pbEnd < r.cbLGBuf) :=
    h.commits (P := fun b => pb ≤ b ∧ b < r.roundup (pb + cb)) hend (h.mates.union pb cb)
      Set.subset_union_left
      (fun b _ _ hin => .inr (Ring.mem_pages_of_lt_roundup hcb hin.1 hin.2))
      (fun b _ _ hin => by omega)
  rw [Buffer.next_iff] at hnext
  rw [Buffer.commitNext, if_pos hle] at heq
  dsimp only at heq
  split at heq
  · split at heq
    case isTrue hfull =>
      obtain rfl := (Prod.mk.inj heq).1
      refine hcommits _ (by omega) (fun b hb hbN hin => ?_) (fun n hn hncb hnN => .inl ?_)
      · unfold Buffer.Claimed
        omega
      · rw [Buffer.next_iff]
        dsimp only
        omega
    case isFalse hnot =>
      obtain rfl := (Prod.mk.inj heq).1
      refine hcommits _ (by omega) (fun b hb hbN hin => ?_) (fun n hn hncb hnN => .inl ?_)
      · unfold Buffer.Claimed at hin ⊢
        dsimp only at hin
        omega
      · have hadvance := r.advance_cases pb n
        rw [Buffer.next_iff]
        dsimp only
        omega
  · cases (Prod.mk.inj heq).2

theorem Buffer.Ready.commitNext_around (h : lb.Ready r pb cb) (hpb : 0 ≤ pb)
    (hpb' : pb < r.cbLGBuf) (hnext : lb.Next r pb) (hlt : r.cbLGBuf < pb + cb)
    (heq : lb.commitNext r pb cb fFirst fSecond = (lb', true)) : lb.Commits r lb' pb cb := by
  obtain ⟨hstart, hstart', hend, hend', -, -⟩ := id h
  have hR := r.le_roundup (pb + cb - r.cbLGBuf)
  have hzero : 0 + (pb + cb - r.cbLGBuf) = pb + cb - r.cbLGBuf := Int.zero_add _
  have hsum : pb + (r.cbLGBuf - pb) = r.cbLGBuf := by omega
  have hNR := r.le_roundup r.cbLGBuf
  have hin : ∀ b, 0 ≤ b → b < r.cbLGBuf →
      (pb ≤ b ∨ b < r.roundup (pb + cb - r.cbLGBuf)) → b ∈ lb.committed ∪
        r.pages pb (r.cbLGBuf - pb) ∪ r.pages 0 (pb + cb - r.cbLGBuf) := by
    rintro b hb hbN (hle | hlt')
    · exact .inl (.inr (Ring.mem_pages_of_lt_roundup (by omega) hle (by rw [hsum]; omega)))
    · exact .inr (Ring.mem_pages_of_lt_roundup (by omega) hb (by rw [hzero]; exact hlt'))
  have hcommits (pbEnd : Int) (hend : -1 ≤ pbEnd ∧ pbEnd < r.cbLGBuf) :=
    h.commits hend ((h.mates.union pb (r.cbLGBuf - pb)).union 0 (pb + cb - r.cbLGBuf))
      (fun b hb => .inl (.inl hb)) hin (fun b _ _ hin => by omega)
  rw [Buffer.next_iff] at hnext
  have hfull : (lb.pbLGCommitStart ≤ r.roundup (pb + cb - r.cbLGBuf) - 1 ∨
      (lb.pbLGCommitEnd < lb.pbLGCommitStart ∧ pb < lb.pbLGCommitStart)) →
      lb.Commits r ⟨lb.pbLGCommitStart, lb.pbLGCommitStart - 1, lb.committed ∪
        r.pages pb (r.cbLGBuf - pb) ∪ r.pages 0 (pb + cb - r.cbLGBuf)⟩ pb cb := by
    intro hor
    refine hcommits _ (by omega) (fun b hb hbN _ => ?_) (fun n hn hncb hnN => .inl ?_)
    · unfold Buffer.Claimed
      omega
    · rw [Buffer.next_iff]
      dsimp only
      omega
  rw [Buffer.commitNext, if_neg (by omega)] at heq
  dsimp only at heq
  split at heq
  · split at heq
    · split at heq
      case isTrue hbefore =>
        split at heq
        case isTrue hlast =>
          obtain rfl := (Prod.mk.inj heq).1
          exact hfull (.inl hlast)
        case isFalse hlast =>
          obtain rfl := (Prod.mk.inj heq).1
          refine hcommits _ (by omega) (fun b hb hbN hclaim => ?_) fun n hn hncb hnN => ?_
          · unfold Buffer.Claimed at hclaim ⊢
            dsimp only at hclaim
            omega
          · by_cases hall : pb = 0
            · exact .inr fun b hb hbN => hin b hb hbN (.inl (by omega))
            · refine .inl ?_
              have hadvance := r.advance_cases pb n
              rw [Buffer.next_iff]
              dsimp only
              omega
      · obtain rfl := (Prod.mk.inj heq).1
        exact hfull (.inr (by omega))
    · cases (Prod.mk.inj heq).2
  · cases (Prod.mk.inj heq).2

theorem Buffer.Sound.ready (h : lb.Sound r) (pb cb : Int) : lb.Ready r pb cb :=
  ⟨h.start_nonneg, h.start_lt, h.end_ge, h.end_lt, h.mates,
    fun b hb hbN hin => .inl (h.claimed b hb hbN hin)⟩

theorem Buffer.Sound.of_all (h : lb.Sound r) {pbStart : Int} (hstart : 0 ≤ pbStart)
    (hstart' : pbStart < r.cbLGBuf) (hend : -1 ≤ pbEnd) (hend' : pbEnd < r.cbLGBuf)
    (hall : ∀ b, 0 ≤ b → b < r.cbLGBuf → b ∈ lb.committed) :
    Buffer.Sound r ⟨pbStart, pbEnd, lb.committed⟩ :=
  ⟨hstart, hstart', hend, hend', h.mates, fun b hb hbN _ => hall b hb hbN⟩

theorem Buffer.Ready.commitNext_true (h : lb.Ready r pb cb) (hpb : 0 ≤ pb)
    (hpb' : pb < r.cbLGBuf) (hcb : 0 < cb) (hnext : lb.Next r pb)
    (heq : lb.commitNext r pb cb fFirst fSecond = (lb', true)) : lb.Commits r lb' pb cb := by
  by_cases hle : pb + cb ≤ r.cbLGBuf
  · exact h.commitNext_inside hpb hcb hnext hle heq
  · exact h.commitNext_around hpb hpb' hnext (not_le.mp hle) heq

theorem next_zero (lb : Buffer) : Buffer.Next r { lb with pbLGCommitStart := 0 } 0 := by
  rw [Buffer.next_iff]
  dsimp only
  omega

theorem Buffer.Sound.commit_true (h : lb.Sound r) (hpb : 0 ≤ pb) (hpb' : pb < r.cbLGBuf)
    (hcb : 0 < cb) (hnear : lb.Near r pb)
    (heq : lb.commit r pb cb fFirst fSecond = (lb', true)) : lb.Commits r lb' pb cb := by
  unfold Buffer.commit at heq
  split at heq
  case isTrue hnext => exact (h.ready pb cb).commitNext_true hpb hpb' hcb hnext heq
  case isFalse hnot =>
    have hall := hnear.resolve_left hnot
    have hzero := (h.of_all (le_refl 0) r.cbLGBuf_pos h.end_ge h.end_lt hall).ready 0 r.cbLGBuf
      |>.commitNext_true (le_refl 0) r.cbLGBuf_pos r.cbLGBuf_pos (next_zero lb) heq
    exact ⟨hzero.sound, hzero.subset, fun b hb hbN _ => hzero.subset (hall b hb hbN),
      fun n _ _ _ => .inr fun b hb hbN => hzero.subset (hall b hb hbN)⟩

theorem Buffer.commitNext_false (hmates : Mates r lb.committed)
    (heq : lb.commitNext r pb cb fFirst fSecond = (lb', false)) :
    ∃ committed, lb' = { lb with committed } ∧ lb.committed ⊆ committed ∧ Mates r committed := by
  unfold Buffer.commitNext at heq
  dsimp only at heq
  split at heq
  · split at heq
    · split at heq <;> cases (Prod.mk.inj heq).2
    · exact ⟨_, (Prod.mk.inj heq).1.symm, subset_rfl, hmates⟩
  · split at heq
    · split at heq
      · split at heq
        · split at heq <;> cases (Prod.mk.inj heq).2
        · cases (Prod.mk.inj heq).2
      · exact ⟨_, (Prod.mk.inj heq).1.symm, Set.subset_union_left, hmates.union _ _⟩
    · exact ⟨_, (Prod.mk.inj heq).1.symm, subset_rfl, hmates⟩

theorem Buffer.Sound.commit_false (h : lb.Sound r) (hnear : lb.Near r pb)
    (heq : lb.commit r pb cb fFirst fSecond = (lb', false)) :
    lb'.Sound r ∧ lb.committed ⊆ lb'.committed ∧ lb'.Near r pb := by
  unfold Buffer.commit at heq
  split at heq
  case isTrue hnext =>
    obtain ⟨committed, rfl, hsub, hmates⟩ := Buffer.commitNext_false h.mates heq
    exact ⟨⟨h.start_nonneg, h.start_lt, h.end_ge, h.end_lt, hmates,
      fun b hb hbN hin => hsub (h.claimed b hb hbN hin)⟩, hsub, .inl hnext⟩
  case isFalse hnot =>
    have hzero : Mates r ({ lb with pbLGCommitStart := 0 } : Buffer).committed := h.mates
    obtain ⟨committed, rfl, hsub, hmates⟩ := Buffer.commitNext_false hzero heq
    have hall := fun b hb hbN => hsub (hnear.resolve_left hnot b hb hbN)
    exact ⟨⟨le_refl 0, r.cbLGBuf_pos, h.end_ge, h.end_lt, hmates,
      fun b hb hbN _ => hall b hb hbN⟩, hsub, .inr hall⟩

theorem Buffer.Sound.fIsCommitted_commits (h : lb.Sound r) (hpb : 0 ≤ pb)
    (heq : lb.fIsCommitted r pb cb = true) : lb.Commits r lb pb cb := by
  obtain ⟨hstart, hstart', hend, hend', -, hclaimed⟩ := id h
  have hwhere : (lb.pbLGCommitStart ≤ lb.pbLGCommitEnd ∧ lb.pbLGCommitStart ≤ pb ∧
      pb + cb - 1 ≤ lb.pbLGCommitEnd) ∨ (lb.pbLGCommitEnd < lb.pbLGCommitStart ∧
        (lb.pbLGCommitEnd = lb.pbLGCommitStart - 1 ∨ pb + cb - 1 ≤ lb.pbLGCommitEnd ∨
          (lb.pbLGCommitStart ≤ pb ∧ pb + cb - 1 ≤ lb.pbLGCommitEnd + r.cbLGBuf))) := by
    unfold Buffer.fIsCommitted at heq
    split at heq
    · have := of_decide_eq_true heq
      omega
    · split at heq
      · omega
      · split at heq
        · have := of_decide_eq_true heq
          omega
        · split at heq
          · have := of_decide_eq_true heq
            omega
          · cases heq
  refine ⟨h, subset_rfl, fun b hb hbN hin => hclaimed b hb hbN ?_, fun n hn hncb hnN => .inl ?_⟩
  · unfold Buffer.Claimed
    omega
  · have hadvance := r.advance_cases pb n
    rw [Buffer.next_iff]
    omega

theorem Buffer.Sound.ensureCommitted_true (h : lb.Sound r) (hpb : 0 ≤ pb) (hpb' : pb < r.cbLGBuf)
    (hcb : 0 ≤ cb) (hnear : lb.Near r pb)
    (heq : lb.ensureCommitted r pb cb fFirst fSecond = (lb', true)) : lb.Commits r lb' pb cb := by
  unfold Buffer.ensureCommitted cBytesAdditionalCommit at heq
  split at heq
  case isTrue hcommitted =>
    obtain rfl := (Prod.mk.inj heq).1
    exact h.fIsCommitted_commits hpb hcommitted
  · have hmore := h.commit_true hpb hpb' (by omega) hnear heq
    exact ⟨hmore.sound, hmore.subset, fun b hb hbN hin => hmore.range b hb hbN (by omega),
      fun n hn hncb hnN => hmore.near n hn (by omega) hnN⟩

def State.Used (s : State) (b : Int) : Prop :=
  (s.pbWrite ≤ s.pbEntry ∧ s.pbWrite ≤ b ∧ b < s.pbEntry) ∨
    (s.pbEntry < s.pbWrite ∧ (s.pbWrite ≤ b ∨ b < s.pbEntry))

structure State.Inv (r : Ring) (s : State) : Prop where
  sound : s.lb.Sound r
  near : s.lb.Near r s.pbEntry
  write_nonneg : 0 ≤ s.pbWrite
  write_lt : s.pbWrite < r.cbLGBuf
  entry_nonneg : 0 ≤ s.pbEntry
  entry_lt : s.pbEntry < r.cbLGBuf
  used : ∀ b, 0 ≤ b → b < r.cbLGBuf → s.Used b → b ∈ s.lb.committed
  /-- The page that has entries in front of the entry pointer, or had them. -/
  entry : ¬ r.cbCommit ∣ s.pbEntry → s.pbEntry ∈ s.lb.committed

variable {s s' : State}

theorem State.cbUsed_cases (r : Ring) (s : State) :
    (s.pbWrite ≤ s.pbEntry ∧ s.cbUsed r = s.pbEntry - s.pbWrite) ∨
      (s.pbEntry < s.pbWrite ∧ s.cbUsed r = s.pbEntry + r.cbLGBuf - s.pbWrite) := by
  unfold State.cbUsed
  split <;> omega

theorem Ring.mate_of_not_dvd {x : Int} (h : ¬ r.cbCommit ∣ x) :
    (x - 1) / r.cbCommit = x / r.cbCommit := by
  refine Ring.mate_of_lt_roundup (le_refl x) ?_
  have hle := r.le_roundup x
  have hne : x ≠ r.roundup x := fun heq => h (heq ▸ r.dvd_roundup x)
  omega

theorem State.Inv.enter (h : s.Inv r) {n : Int} (hcb : s.lb.Commits r lb' s.pbEntry cb)
    (hn : 0 ≤ n) (hncb : n ≤ cb) (hfree : s.cbUsed r + n < r.cbLGBuf) :
    State.Inv r ⟨lb', s.pbWrite, r.advance s.pbEntry n⟩ := by
  obtain ⟨-, -, hw, hw', he, he', hused, hentry⟩ := h
  have hadvance := r.advance_cases s.pbEntry n
  have hcbUsed := s.cbUsed_cases r
  refine ⟨hcb.sound, hcb.near n hn hncb (by omega), hw, hw', by dsimp only; omega,
    by dsimp only; omega, fun b hb hbN hin => ?_, fun hdvd => ?_⟩
  · by_cases hold : s.Used b
    · exact hcb.subset (hused b hb hbN hold)
    · refine hcb.range b hb hbN ?_
      unfold State.Used at hin hold
      dsimp only at hin
      omega
  · dsimp only at hdvd ⊢
    by_cases hzero : n = 0
    · have hstay : r.advance s.pbEntry n = s.pbEntry := by omega
      rw [hstay] at hdvd ⊢
      exact hcb.subset (hentry hdvd)
    · have hpos : r.advance s.pbEntry n ≠ 0 := fun hz => hdvd (hz ▸ Int.dvd_zero _)
      exact hcb.sound.mates _ _ (Ring.mate_of_not_dvd hdvd)
        (hcb.range _ (by omega) (by omega) (by omega))

theorem State.Inv.fail (h : s.Inv r) (hsound : lb'.Sound r) (hsub : s.lb.committed ⊆ lb'.committed)
    (hnear : lb'.Near r s.pbEntry) : State.Inv r ⟨lb', s.pbWrite, s.pbEntry⟩ :=
  ⟨hsound, hnear, h.write_nonneg, h.write_lt, h.entry_nonneg, h.entry_lt,
    fun b hb hbN hin => hsub (h.used b hb hbN hin), fun hdvd => hsub (h.entry hdvd)⟩

theorem State.Inv.write (h : s.Inv r) {n : Int} (hn : 0 ≤ n) (hle : n ≤ s.cbUsed r) :
    State.Inv r ⟨s.lb, r.advance s.pbWrite n, s.pbEntry⟩ := by
  obtain ⟨hsound, hnear, hw, hw', he, he', hused, hentry⟩ := h
  have hadvance := r.advance_cases s.pbWrite n
  have hcbUsed := s.cbUsed_cases r
  refine ⟨hsound, hnear, by dsimp only; omega, by dsimp only; omega, he, he',
    fun b hb hbN hin => hused b hb hbN ?_, hentry⟩
  unfold State.Used at hin ⊢
  dsimp only at hin
  omega

theorem Buffer.commit_snd (lb : Buffer) (pb cb : Int) : (lb.commit r pb cb true true).2 = true := by
  unfold Buffer.commit Buffer.commitNext
  dsimp only
  split_ifs <;> first | rfl | simp_all

/-- Where the boundaries are that `Decommit` finds for the free part. -/
structure State.Bounds (r : Ring) (s : State) (pbStart pbEnd : Int) : Prop where
  dvd_start : r.cbCommit ∣ pbStart
  dvd_end : r.cbCommit ∣ pbEnd
  le_start : s.pbEntry ≤ pbStart
  start_le : pbStart ≤ r.cbLGBuf
  end_bound : (s.pbWrite ≤ s.pbEntry ∧ r.cbLGBuf ≤ pbEnd ∧ pbEnd ≤ s.pbWrite + r.cbLGBuf) ∨
    (s.pbEntry < s.pbWrite ∧ 0 ≤ pbEnd ∧ pbEnd ≤ s.pbWrite)
  /-- Every page that is not between them is committed. -/
  kept : ∀ b, 0 ≤ b → b < r.cbLGBuf → ¬ (pbStart ≤ b ∧ b < pbEnd) →
    ¬ (pbStart ≤ b + r.cbLGBuf ∧ b + r.cbLGBuf < pbEnd) → b ∈ s.lb.committed

theorem State.Inv.bounds (h : s.Inv r) :
    s.Bounds r (r.roundup s.pbEntry) (r.rounddn (s.pbEntry + s.cbFree r)) := by
  obtain ⟨hsound, -, hw, hw', he, he', hused, hentry⟩ := h
  have hsum : (s.pbWrite ≤ s.pbEntry ∧ s.pbEntry + s.cbFree r = s.pbWrite + r.cbLGBuf) ∨
      (s.pbEntry < s.pbWrite ∧ s.pbEntry + s.cbFree r = s.pbWrite) := by
    unfold State.cbFree
    split <;> omega
  have hstart := r.le_roundup s.pbEntry
  have hstart' := Ring.roundup_le r.dvd (le_of_lt he')
  have hend := r.rounddn_le (s.pbEntry + s.cbFree r)
  have hbound : (s.pbWrite ≤ s.pbEntry ∧
      r.cbLGBuf ≤ r.rounddn (s.pbEntry + s.cbFree r)) ∨ s.pbEntry < s.pbWrite := by
    rcases hsum with ⟨hle, hsum⟩ | ⟨hlt, -⟩
    · exact .inl ⟨hle, Ring.le_rounddn r.dvd (by omega)⟩
    · exact .inr hlt
  refine ⟨r.dvd_roundup _, Int.dvd_mul_left _ _, hstart, hstart', ?_, ?_⟩
  · have hzero : 0 ≤ r.rounddn (s.pbEntry + s.cbFree r) :=
      Ring.le_rounddn (Int.dvd_zero _) (by omega)
    omega
  · intro b hb hbN hout hout'
    by_cases hin : s.Used b
    · exact hused b hb hbN hin
    by_cases hpage : s.pbEntry ≤ b ∧ b < r.roundup s.pbEntry
    · have hdvd : ¬ r.cbCommit ∣ s.pbEntry := fun hdvd => by
        have := Ring.roundup_le hdvd (le_refl s.pbEntry)
        omega
      refine hsound.mates _ _ ?_ (hentry hdvd)
      rw [← Ring.mate_of_not_dvd hdvd]
      exact Ring.mate_of_lt_roundup hpage.1 hpage.2
    · unfold State.Used at hin
      have hmate : s.pbWrite / r.cbCommit = b / r.cbCommit := by
        rcases hsum with ⟨hle, hsum⟩ | ⟨hlt, hsum⟩
        · have hadd : ∀ x, (x + r.cbLGBuf) / r.cbCommit =
              x / r.cbCommit + r.cbLGBuf / r.cbCommit := fun x => add_ediv_of_dvd_right r.dvd
          have hmate := @Ring.mate_of_rounddn_le r (b + r.cbLGBuf) (s.pbEntry + s.cbFree r)
            (by omega) (by omega)
          rw [hsum, hadd, hadd] at hmate
          omega
        · rw [hsum] at hout hend
          have hmate := @Ring.mate_of_rounddn_le r b s.pbWrite (by omega) (by omega)
          exact hmate
      refine hsound.mates _ _ hmate ?_
      by_cases hempty : s.pbWrite = s.pbEntry
      · rw [hempty]
        refine hentry fun hdvd => ?_
        have hle := @Ring.le_rounddn r (s.pbEntry + s.cbFree r) (s.pbEntry + s.cbFree r)
        have hdvd' : r.cbCommit ∣ s.pbEntry + s.cbFree r := by
          rw [show s.pbEntry + s.cbFree r = s.pbEntry + r.cbLGBuf by omega]
          exact Int.dvd_add hdvd r.dvd
        have := hle hdvd' (le_refl _)
        omega
      · refine hused s.pbWrite hw hw' ?_
        unfold State.Used
        omega

theorem Buffer.release_cases (hmates : Mates r lb.committed) {pbStart : Int}
    (hstart' : pbStart ≤ r.cbLGBuf) (hdvd : r.cbCommit ∣ pbStart) (hdvd' : r.cbCommit ∣ pbEnd) :
    Mates r (lb.release r pbStart pbEnd).committed ∧
      (∀ b, 0 ≤ b → b < r.cbLGBuf → b ∈ lb.committed → ¬ (pbStart ≤ b ∧ b < pbEnd) →
        ¬ (pbStart ≤ b + r.cbLGBuf ∧ b + r.cbLGBuf < pbEnd) →
        b ∈ (lb.release r pbStart pbEnd).committed) ∧
      ((pbEnd ≤ pbStart ∧ (lb.release r pbStart pbEnd).pbLGCommitStart = lb.pbLGCommitStart) ∨
        (pbStart < pbEnd ∧ r.cbCommit ∣ (lb.release r pbStart pbEnd).pbLGCommitStart ∧
          ((pbEnd < r.cbLGBuf ∧ (lb.release r pbStart pbEnd).pbLGCommitStart = pbEnd) ∨
            (r.cbLGBuf ≤ pbEnd ∧
              (lb.release r pbStart pbEnd).pbLGCommitStart = pbEnd - r.cbLGBuf)))) := by
  unfold Buffer.release
  have hsum : pbStart + (pbEnd - pbStart) = pbEnd := by omega
  split_ifs with hle hlt heq
  · refine ⟨hmates.diff _ _, fun b hb hbN hin hout _ => ⟨hin, fun hpage => hout ?_⟩,
      .inr ⟨hlt, Int.dvd_zero _, .inr ⟨by omega, by dsimp only; omega⟩⟩⟩
    have := Ring.pages_of_dvd hdvd (hsum.symm ▸ hdvd') hpage
    omega
  · refine ⟨hmates.diff _ _, fun b hb hbN hin hout _ => ⟨hin, fun hpage => hout ?_⟩,
      .inr ⟨hlt, hdvd', .inl ⟨by omega, rfl⟩⟩⟩
    have := Ring.pages_of_dvd hdvd (hsum.symm ▸ hdvd') hpage
    omega
  · exact ⟨hmates, fun b _ _ hin _ _ => hin, .inl ⟨by omega, rfl⟩⟩
  · have hsum' : pbStart + (r.cbLGBuf - pbStart) = r.cbLGBuf := by omega
    have hsub : r.cbCommit ∣ pbEnd - r.cbLGBuf := Int.dvd_sub hdvd' r.dvd
    refine ⟨(hmates.diff _ _).diff _ _, fun b hb hbN hin hout hout' =>
      ⟨⟨hin, fun hpage => hout ?_⟩, fun hpage => hout' ?_⟩,
      .inr ⟨by omega, hsub, .inr ⟨by omega, rfl⟩⟩⟩
    · have := Ring.pages_of_dvd hdvd (hsum'.symm ▸ r.dvd) hpage
      omega
    · have := Ring.pages_of_dvd (Int.dvd_zero _) ((Int.zero_add _).symm ▸ hsub) hpage
      omega

theorem Buffer.Ready.recommit (h : lb.Ready r lb.pbLGCommitStart r.cbCommit)
    (heq : lb.pbLGCommitStart = lb.pbLGCommitEnd) :
    lb.Commits r (lb.commit r lb.pbLGCommitStart r.cbCommit true true).1 lb.pbLGCommitStart
      r.cbCommit := by
  have hnext : lb.Next r lb.pbLGCommitStart := by
    rw [Buffer.next_iff]
    omega
  have hsnd := @Buffer.commit_snd r lb lb.pbLGCommitStart r.cbCommit
  rw [Buffer.commit, if_pos hnext] at hsnd ⊢
  exact h.commitNext_true h.start_nonneg h.start_lt r.cbCommit_pos hnext (Prod.ext rfl hsnd)

variable {pbStart pbEnd : Int}

theorem State.Inv.decommit_whole (h : s.Inv r) (hbounds : s.Bounds r pbStart pbEnd)
    (hmates : Mates r lb.committed) (hwhole : pbEnd - pbStart = r.cbLGBuf)
    (hstart : lb.pbLGCommitStart = pbEnd - r.cbLGBuf) :
    State.Inv r ⟨(Buffer.commit r { lb with pbLGCommitEnd := lb.pbLGCommitStart }
      lb.pbLGCommitStart r.cbCommit true true).1, s.pbWrite, s.pbEntry⟩ := by
  obtain ⟨hdvd, -, hle, hleN, hend, -⟩ := hbounds
  obtain ⟨-, -, hw, hw', he, he', -, -⟩ := h
  have hpos := r.one_lt_cbCommit
  obtain ⟨heq, hentry⟩ : lb.pbLGCommitStart = s.pbEntry ∧ pbStart = s.pbEntry := by omega
  have hready : Buffer.Ready r { lb with pbLGCommitEnd := lb.pbLGCommitStart }
      lb.pbLGCommitStart r.cbCommit := by
    refine ⟨by dsimp only; omega, by dsimp only; omega, by dsimp only; omega,
      by dsimp only; omega, hmates, fun b hb hbN hclaim => .inr ?_⟩
    unfold Buffer.Claimed at hclaim
    dsimp only at hclaim
    omega
  have hcommit := hready.recommit rfl
  refine ⟨hcommit.sound, ?_, hw, hw', he, he', fun b hb hbN hin => ?_,
    fun hnot => absurd (hentry ▸ hdvd) hnot⟩
  · have hnear := hcommit.near 0 (le_refl 0) (by omega) r.cbLGBuf_pos
    have hadvance := r.advance_cases lb.pbLGCommitStart 0
    rwa [show r.advance lb.pbLGCommitStart 0 = s.pbEntry by omega] at hnear
  · unfold State.Used at hin
    dsimp only at hin
    omega

theorem State.Inv.decommit (h : s.Inv r) :
    State.Inv r ⟨s.lb.decommit r s.pbEntry (s.cbFree r), s.pbWrite, s.pbEntry⟩ := by
  have hbounds := h.bounds
  unfold Buffer.decommit
  dsimp only
  generalize r.roundup s.pbEntry = pbStart at *
  generalize r.rounddn (s.pbEntry + s.cbFree r) = pbEnd at *
  have hinv := h
  obtain ⟨hsound, -, hw, hw', he, he', hused, hentry⟩ := h
  obtain ⟨hdvd, hdvd', hle, hleN, hend, hkept⟩ := id hbounds
  obtain ⟨hmates, hin, hcases⟩ := Buffer.release_cases hsound.mates hleN hdvd hdvd'
  generalize s.lb.release r pbStart pbEnd = lb at *
  have hstart := hsound.start_nonneg
  have hstart' := hsound.start_lt
  by_cases hwhole : pbEnd - pbStart = r.cbLGBuf
  · rw [if_pos hwhole, if_pos rfl]
    exact hinv.decommit_whole hbounds hmates hwhole (by omega)
  · rw [if_neg hwhole]
    -- nothing is released only if every page has entries
    have hall : pbEnd ≤ pbStart → ∀ b, 0 ≤ b → b < r.cbLGBuf → b ∈ lb.committed := by
      intro hnone b hb hbN
      exact hin b hb hbN (hkept b hb hbN (by omega) (by omega)) (by omega) (by omega)
    have hbefore :
        State.Inv r ⟨{ lb with pbLGCommitEnd := pbStart - 1 }, s.pbWrite, s.pbEntry⟩ := by
      refine ⟨⟨by dsimp only; omega, by dsimp only; omega, by dsimp only; omega,
        by dsimp only; omega,
        hmates, fun b hb hbN hclaim => ?_⟩, ?_, hw, hw', he, he', fun b hb hbN hin' => ?_,
        fun hnot => ?_⟩
      · rcases hcases with ⟨hnone, -⟩ | ⟨hlt, -, hcases⟩
        · exact hall hnone b hb hbN
        · unfold Buffer.Claimed at hclaim
          dsimp only at hclaim
          exact hin b hb hbN (hkept b hb hbN (by omega) (by omega)) (by omega) (by omega)
      · rcases hcases with ⟨hnone, -⟩ | ⟨hlt, -, hcases⟩
        · exact .inr (hall hnone)
        · refine .inl ?_
          rw [Buffer.next_iff]
          dsimp only
          omega
      · have hmem := hused b hb hbN hin'
        unfold State.Used at hin'
        dsimp only at hin'
        exact hin b hb hbN hmem (by omega) (by omega)
      · have hne : s.pbEntry ≠ pbStart := fun heq => hnot (heq ▸ hdvd)
        exact hin s.pbEntry he he' (hentry hnot) (by omega) (by omega)
    split_ifs with heq
    · have hcommit := (hbefore.sound.ready _ _).recommit heq
      refine hbefore.fail hcommit.sound hcommit.subset ?_
      rcases hcases with ⟨hnone, -⟩ | ⟨-, hdvdS, -⟩
      · exact .inr fun b hb hbN => hcommit.subset (hall hnone b hb hbN)
      · -- both ends are page boundaries
        have hone : r.cbCommit ∣ 1 := by
          have hsub := Int.dvd_sub hdvd hdvdS
          rwa [heq, show pbStart - (pbStart - 1) = 1 by omega] at hsub
        have := Int.le_of_dvd Int.one_pos hone
        have := r.one_lt_cbCommit
        omega
    · exact hbefore

theorem State.Inv.step (h : s.Inv r) (hstep : Step r s s') : s'.Inv r := by
  cases hstep with
  | enter heq hn hncb hfree =>
    exact h.enter (h.sound.ensureCommitted_true h.entry_nonneg h.entry_lt (by omega) h.near heq)
      hn hncb hfree
  | fail hcb heq =>
    unfold Buffer.ensureCommitted at heq
    split at heq
    · cases (Prod.mk.inj heq).2
    · obtain ⟨hsound, hsub, hnear⟩ := h.sound.commit_false h.near heq
      exact h.fail hsound hsub hnear
  | write hn hle => exact h.write hn hle
  | decommit => exact h.decommit

theorem Reaches.inv (h : Reaches r s) : s.Inv r := by
  induction h with
  | start heq =>
    have hready : Buffer.Ready r ⟨0, 0, ∅⟩ 0 (r.roundup r.cbCommit) := by
      have := r.le_roundup r.cbCommit
      have := r.cbCommit_pos
      refine ⟨le_refl 0, r.cbLGBuf_pos, by dsimp only; omega, r.cbLGBuf_pos, nofun,
        fun b hb hbN hclaim => .inr ?_⟩
      unfold Buffer.Claimed at hclaim
      dsimp only at hclaim
      omega
    have hnext : Buffer.Next r ⟨0, 0, ∅⟩ 0 := next_zero ⟨0, 0, ∅⟩
    have hpos : 0 < r.roundup r.cbCommit := lt_of_lt_of_le r.cbCommit_pos (r.le_roundup _)
    have hcommit := hready.commitNext_true (le_refl 0) r.cbLGBuf_pos hpos hnext heq
    have hnear := hcommit.near 0 (le_refl 0) (le_of_lt hpos) r.cbLGBuf_pos
    have hbuf := r.cbLGBuf_pos
    rw [Ring.advance, if_neg (by omega), Int.add_zero] at hnear
    refine ⟨hcommit.sound, hnear, le_refl 0, hbuf, le_refl 0, hbuf,
      fun b hb hbN hin => ?_, fun hnot => absurd (Int.dvd_zero _) hnot⟩
    unfold State.Used at hin
    dsimp only at hin
    omega
  | step _ hstep ih => exact ih.step hstep

def Ring.CommittedFrom (r : Ring) (lb : Buffer) (pb cb : Int) : Prop :=
  ∀ i, 0 ≤ i → i < cb → (pb + i) % r.cbLGBuf ∈ lb.committed

theorem Buffer.Commits.committedFrom (h : lb.Commits r lb' pb cb) (hpb : 0 ≤ pb)
    (hpb' : pb < r.cbLGBuf) : r.CommittedFrom lb' pb cb := by
  intro i hi hicb
  have hpos := r.cbLGBuf_pos
  refine h.range _ (emod_nonneg _ (by omega)) (emod_lt_of_pos _ hpos) ?_
  by_cases hlt : pb + i < r.cbLGBuf
  · rw [emod_eq_of_lt (by omega) hlt]
    omega
  · have hlow := emod_nonneg (pb + i) (show r.cbLGBuf ≠ 0 by omega)
    have hhigh := emod_lt_of_pos (pb + i) hpos
    by_cases hnext : pb + i - r.cbLGBuf < r.cbLGBuf
    · have heq := emod_eq_of_lt (show 0 ≤ pb + i - r.cbLGBuf by omega) hnext
      rw [sub_emod_right] at heq
      omega
    · omega

/-- What the buffer vouches for is committed, and the bytes that are not yet written stay so. -/
theorem commit_tracking_sound (h : Reaches r s) :
    (∀ pb cb, 0 ≤ pb → pb < r.cbLGBuf → s.lb.fIsCommitted r pb cb = true →
      r.CommittedFrom s.lb pb cb) ∧
    (∀ cb fFirst fSecond lb, 0 ≤ cb →
      s.lb.ensureCommitted r s.pbEntry cb fFirst fSecond = (lb, true) →
      r.CommittedFrom lb s.pbEntry cb) ∧
    ∀ s', s' = s ∨ Step r s s' → ∀ b, 0 ≤ b → b < r.cbLGBuf → s'.Used b → b ∈ s'.lb.committed := by
  have hinv := h.inv
  refine ⟨?_, ?_, ?_⟩
  · intro pb cb hpb hpb' heq
    exact (hinv.sound.fIsCommitted_commits hpb heq).committedFrom hpb hpb'
  · intro cb fFirst fSecond lb hcb heq
    exact (hinv.sound.ensureCommitted_true hinv.entry_nonneg hinv.entry_lt hcb hinv.near heq)
      |>.committedFrom hinv.entry_nonneg hinv.entry_lt
  · rintro s' (rfl | hstep)
    · exact hinv.used
    · exact (hinv.step hstep).used

def Ring.sixteenPages : Ring := ⟨65536, 4096, by decide, by decide, ⟨16, by decide⟩⟩

/-- 5000 bytes are entered, 4200 of them are written, and the rest of the buffer is decommitted. -/
theorem sixteenPages_committed :
    ∃ lb, Reaches Ring.sixteenPages ⟨lb, 4200, 5000⟩ ∧ lb.pbLGCommitStart = 4096 ∧
      Ring.sixteenPages.CommittedFrom lb 4200 800 := by
  have hstart : Reaches Ring.sixteenPages ⟨_, 0, 0⟩ :=
    .start (show initCommit _ _ true true = (_, true) from Prod.ext rfl (Buffer.commit_snd _ _ _))
  have hentered :=
    hstart.step (.enter (show Buffer.ensureCommitted _ _ _ 5000 true true = (_, true) from
    Prod.ext rfl rfl) (show 0 ≤ 5000 by decide) (by decide) (by decide))
  have hwritten := hentered.step (.write (show 0 ≤ 4200 by decide) (by decide))
  have hfreed := hwritten.step .decommit
  exact ⟨_, hfreed, rfl, (commit_tracking_sound hfreed).1 4200 800 (by decide) (by decide) rfl⟩

end EseLinux.LogBuffer
