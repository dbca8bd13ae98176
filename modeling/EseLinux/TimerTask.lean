import Mathlib.Algebra.Order.BigOperators.Group.List
import Mathlib.Algebra.Order.Group.Nat
import Mathlib.Algebra.Ring.Nat

/-!
A timer task (`COSTimerTaskEntry`) on the POSIX thread pool timer (`TpTimer`), as the steps of its
schedulers, its canceller and its runner threads in any order.  A step is what is done under a lock,
or one of the writes of `SetThreadpoolTimer` that are not.
-/

namespace EseLinux.TimerTask

open List

/-- `COSTimerTaskEntry::State`, between creation and deletion -/
inductive TaskState
  | inactive | scheduled | running | cancelling | cancelled
  deriving DecidableEq

/-- Where a `TimerRunner` thread is: before its first lock, in `pthread_cond_timedwait`, in the
callback before and after `m_semExec.Acquire`, with what it dequeued under `m_critSchedule`, in and
after the user's function, before `m_semExec.Release` and before its last lock. -/
inductive Runner (Ctx : Type)
  | created
  | waiting (deadline : Nat)
  | fired
  | acquired
  | taken (id : Nat) (pv : Option Ctx) (due : Nat)
  | inTask
  | ran
  | releasing
  | leaving
  | done
  deriving DecidableEq

/-- The next step of `OSTimerTaskCancelITask`. -/
inductive Canceller
  | idle | flag | wait | disarm | flagAgain | waitAgain | finish
  deriving DecidableEq

/-- The next step of `SetThreadpoolTimer`, which its caller holds `m_critSchedule` for: the due time
goes over the current one, the flag is set, the thread is made. -/
inductive Arming
  | fireAt (fireAt : Nat) | armed | thread
  deriving DecidableEq

inductive Event (Ctx : Type)
  | schedule (pv : Option Ctx)
  | start (id : Nat) (pv : Option Ctx) (due time : Nat)
  | stop
  | back (pv : Ctx)
  | cancelReturn
  deriving DecidableEq

def handBack {Ctx : Type} (pv : Option Ctx) (trace : List (Event Ctx)) : List (Event Ctx) :=
  match pv with
  | none => trace
  | some c => .back c :: trace

structure Timer (Ctx : Type) where
  state : TaskState := .inactive
  idSchedule : Nat := 0
  idRun : Nat := 0
  pvTaskRuntimeContext : Option Ctx := none
  semExec : Nat := 1
  cancelled : Bool := false
  armed : Bool := false
  inflight : Nat := 0
  fireAt : Nat := 0
  runners : List (Runner Ctx) := []
  canceller : Canceller := .idle
  arming : Option Arming := none
  now : Nat := 0
  /-- When the last scheduling is due. -/
  due : Nat := 0
  /-- What happened, the last first. -/
  trace : List (Event Ctx) := []

namespace Timer

variable {Ctx : Type} (s : Timer Ctx)

/-- `OSTimerTaskScheduleITask`, up to the current time in `fireAt`.  A delay of zero is no relative
time for `SetThreadpoolTimer`, and gives a time long past. -/
def schedule (pv : Option Ctx) (dtickMinDelay : Nat) : Option (Timer Ctx) :=
  if s.arming ≠ none then none
  else if s.state = .cancelling then some { s with trace := .schedule pv :: s.trace }
  else
    some { s with
      state := if s.state = .running then .running else .scheduled
      idSchedule := s.idSchedule + 1
      pvTaskRuntimeContext := pv
      fireAt := s.now
      due := s.now + dtickMinDelay
      arming := some (.fireAt (if dtickMinDelay = 0 then 0 else s.now + dtickMinDelay))
      trace := handBack s.pvTaskRuntimeContext (.schedule pv :: s.trace) }

/-- The rest of it; `inflight` is of interest to a cancel only, and none is under way. -/
def armNext (fCreated : Bool) : Option (Timer Ctx) :=
  match s.arming with
  | none => none
  | some (.fireAt fireAt) => some { s with fireAt, arming := some .armed }
  | some .armed => some { s with inflight := s.inflight + 1, armed := true, arming := some .thread }
  | some .thread =>
    if fCreated then some { s with runners := s.runners ++ [.created], arming := none }
    else some { s with armed := false, inflight := s.inflight - 1, arming := none }

/-- The start of `OSTimerTaskCancelITask`, under `m_critSchedule`. -/
def cancel : Option (Timer Ctx) :=
  if s.canceller = .idle ∧ s.arming = none then
    some { s with
      state := .cancelling
      idRun := s.idSchedule
      pvTaskRuntimeContext := none
      canceller := .flag
      trace := handBack s.pvTaskRuntimeContext s.trace }
  else none

/-- The rest of it, with `WaitForThreadpoolTimerCallbacks` as two steps. -/
def cancelNext : Option (Timer Ctx) :=
  match s.canceller with
  | .idle => none
  | .flag => some { s with cancelled := true, armed := false, canceller := .wait }
  | .wait => if s.inflight = 0 then some { s with canceller := .disarm } else none
  | .disarm => some { s with armed := false, canceller := .flagAgain }
  | .flagAgain => some { s with cancelled := true, armed := false, canceller := .waitAgain }
  | .waitAgain => if s.inflight = 0 then some { s with canceller := .finish } else none
  | .finish =>
    some { s with state := .cancelled, canceller := .idle, trace := .cancelReturn :: s.trace }

/-- The head of the loop of `TimerRunner` -/
def park : Runner Ctx :=
  if s.cancelled = false ∧ s.armed = true then .waiting s.fireAt else .leaving

def runnerNext (i : Nat) (fTimedOut : Bool) : Runner Ctx → Option (Timer Ctx)
  | .created => some { s with runners := s.runners.set i s.park }
  | .waiting deadline =>
    if fTimedOut = false then some { s with runners := s.runners.set i s.park }
    else if deadline ≤ s.now then
      some { s with
        runners := s.runners.set i
          (if s.armed = true ∧ s.cancelled = false then .fired else .leaving) }
    else none
  | .fired =>
    if s.semExec = 0 then none
    else some { s with semExec := s.semExec - 1, runners := s.runners.set i .acquired }
  | .acquired =>
    if s.arming ≠ none then none
    else if s.idRun = s.idSchedule then some { s with runners := s.runners.set i .releasing }
    else
      some { s with
        runners := s.runners.set i (.taken s.idSchedule s.pvTaskRuntimeContext s.due)
        pvTaskRuntimeContext := none
        idRun := s.idSchedule
        state := .running }
  | .taken id pv due =>
    some { s with runners := s.runners.set i .inTask, trace := .start id pv due s.now :: s.trace }
  | .inTask => some { s with runners := s.runners.set i .ran, trace := .stop :: s.trace }
  | .ran =>
    if s.arming ≠ none then none
    else
      some { s with
        state := if s.state = .running then
            if s.idRun = s.idSchedule then .inactive else .scheduled
          else s.state
        runners := s.runners.set i .releasing }
  | .releasing => some { s with semExec := s.semExec + 1, runners := s.runners.set i .leaving }
  | .leaving => some { s with inflight := s.inflight - 1, runners := s.runners.set i .done }
  | .done => none

end Timer

inductive Action (Ctx : Type)
  | tick (dtick : Nat)
  | schedule (pv : Option Ctx) (dtickMinDelay : Nat)
  | arm (fCreated : Bool)
  | cancel
  | cancelNext
  | runner (i : Nat) (fTimedOut : Bool)

def Timer.step {Ctx : Type} (s : Timer Ctx) : Action Ctx → Option (Timer Ctx)
  | .tick dtick => some { s with now := s.now + dtick }
  | .schedule pv dtickMinDelay => s.schedule pv dtickMinDelay
  | .arm fCreated => s.armNext fCreated
  | .cancel => s.cancel
  | .cancelNext => s.cancelNext
  | .runner i fTimedOut => s.runners[i]?.bind (s.runnerNext i fTimedOut)

inductive Reach {Ctx : Type} (Allowed : Timer Ctx → Action Ctx → Prop) : Timer Ctx → Prop
  | new : Reach Allowed {}
  | step {s s' : Timer Ctx} {a : Action Ctx} (hs : Reach Allowed s) (ha : Allowed s a)
      (h : s.step a = some s') : Reach Allowed s'

def Timer.run {Ctx : Type} (s : Timer Ctx) : List (Action Ctx) → Option (Timer Ctx)
  | [] => some s
  | a :: actions => (s.step a).bind (Timer.run · actions)

theorem Reach.run {Ctx : Type} {Allowed : Timer Ctx → Action Ctx → Prop} {s s' : Timer Ctx}
    {actions : List (Action Ctx)} (hs : Reach Allowed s) (hall : ∀ s, ∀ a ∈ actions, Allowed s a)
    (h : s.run actions = some s') : Reach Allowed s' := by
  induction actions generalizing s with
  | nil =>
    cases h
    exact hs
  | cons a actions ih =>
    obtain ⟨next, hstep, hrun⟩ := Option.bind_eq_some_iff.mp h
    exact ih (hs.step (hall s a mem_cons_self) hstep)
      (fun s a ha => hall s a (mem_cons_of_mem _ ha)) hrun

variable {Ctx : Type} {s s' : Timer Ctx} {i : Nat} {r : Runner Ctx} {fTimedOut : Bool}

/-- Whether the last call was to schedule, or the return of one to cancel. -/
@[grind]
def lastCall : List (Event Ctx) → Option Bool
  | [] => none
  | .schedule _ :: _ => some true
  | .cancelReturn :: _ => some false
  | _ :: trace => lastCall trace

/-- No run starts after the return of a call to cancel and before the next one to schedule. -/
def Silent (trace : List (Event Ctx)) : Prop :=
  ∀ id pv due time before, .start id pv due time :: before <:+ trace → lastCall before ≠ some false

@[grind ←]
theorem Silent.cons {trace : List (Event Ctx)} (h : Silent trace) {e : Event Ctx}
    (he : ∀ id pv due time, e = .start id pv due time → lastCall trace ≠ some false) :
    Silent (e :: trace) := by
  intro id pv due time before hsuffix
  rcases suffix_cons_iff.mp hsuffix with heq | hrest
  · obtain ⟨rfl, rfl⟩ := cons.inj heq
    exact he _ _ _ _ rfl
  · exact h _ _ _ _ _ hrest

@[grind ←]
theorem Silent.handBack {trace : List (Event Ctx)} (h : Silent trace) (pv : Option Ctx) :
    Silent (handBack pv trace) := by
  cases pv with
  | none => exact h
  | some c => exact h.cons fun _ _ _ _ heq => by cases heq

@[grind =]
theorem lastCall_handBack (pv : Option Ctx) (trace : List (Event Ctx)) :
    lastCall (handBack pv trace) = lastCall trace := by
  cases pv <;> rfl

def total (weight : Runner Ctx → Nat) (runners : List (Runner Ctx)) : Nat :=
  (runners.map weight).sum

@[grind =]
theorem total_append (weight : Runner Ctx → Nat) (runners : List (Runner Ctx)) :
    total weight (runners ++ [r]) = total weight runners + weight r := by
  simp [total]

theorem total_set {runners : List (Runner Ctx)} (hi : runners[i]? = some r)
    (weight : Runner Ctx → Nat) (r' : Runner Ctx) :
    total weight (runners.set i r') + weight r = total weight runners + weight r' := by
  unfold total
  obtain ⟨hlt, rfl⟩ := List.getElem?_eq_some_iff.mp hi
  rw [set_eq_take_append_cons_drop, if_pos hlt]
  conv_rhs => rw [← take_append_drop i runners, drop_eq_getElem_cons hlt]
  simp only [map_append, map_cons, sum_append, sum_cons]
  omega

@[grind]
def holds : Runner Ctx → Nat
  | .acquired | .taken .. | .inTask | .ran | .releasing => 1
  | _ => 0

@[grind]
def inTask : Runner Ctx → Nat
  | .inTask => 1
  | _ => 0

@[grind]
def taken : Runner Ctx → Nat
  | .taken .. => 1
  | _ => 0

@[grind]
def live : Runner Ctx → Nat
  | .done => 0
  | _ => 1

@[grind]
def isSchedule : Event Ctx → Nat
  | .schedule _ => 1
  | _ => 0

@[grind]
def isStart : Event Ctx → Nat
  | .start .. => 1
  | _ => 0

@[grind]
def isStop : Event Ctx → Nat
  | .stop => 1
  | _ => 0

def tally (weight : Event Ctx → Nat) (trace : List (Event Ctx)) : Nat :=
  (trace.map weight).sum

@[grind =]
theorem tally_cons (weight : Event Ctx → Nat) (e : Event Ctx) (trace : List (Event Ctx)) :
    tally weight (e :: trace) = weight e + tally weight trace :=
  rfl

@[grind =]
theorem tally_handBack (pv : Option Ctx) (trace : List (Event Ctx)) {weight : Event Ctx → Nat}
    (hback : ∀ c, weight (.back c) = 0) :
    tally weight (handBack pv trace) = tally weight trace := by
  cases pv with
  | none => rfl
  | some c => exact (congrArg (· + tally weight trace) (hback c)).trans (zero_add _)

section Contexts

variable [DecidableEq Ctx]

@[grind]
def carries (c : Ctx) : Runner Ctx → Nat
  | .taken _ pv _ => if pv = some c then 1 else 0
  | _ => 0

@[grind]
def brings (c : Ctx) : Event Ctx → Nat
  | .schedule pv => if pv = some c then 1 else 0
  | _ => 0

@[grind]
def hands (c : Ctx) : Event Ctx → Nat
  | .start _ pv _ _ => if pv = some c then 1 else 0
  | .back pv => if pv = c then 1 else 0
  | _ => 0

@[grind cases]
structure Counts (s : Timer Ctx) : Prop where
  exclusive : s.semExec + total holds s.runners = 1
  started : tally isStart s.trace = tally isStop s.trace + total inTask s.runners
  runs : tally isStart s.trace + total taken s.runners ≤ s.idRun
  contexts (c : Ctx) : tally (hands c) s.trace + total (carries c) s.runners +
    (if s.pvTaskRuntimeContext = some c then 1 else 0) ≤ tally (brings c) s.trace
  counted : s.inflight = total live s.runners + if s.arming = some .thread then 1 else 0

@[grind cases]
structure Good (s : Timer Ctx) : Prop extends Counts s where
  ids : s.idRun ≤ s.idSchedule
  calls : s.idSchedule ≤ tally isSchedule s.trace
  cancelling : s.canceller ≠ .idle → s.state = .cancelling ∧ s.idRun = s.idSchedule
  busy : s.state = .cancelling → s.canceller ≠ .idle
  arming : s.arming ≠ none → s.canceller = .idle ∧ lastCall s.trace = some true
  quiet : s.canceller = .finish ∨ lastCall s.trace = some false → s.inflight = 0
  silent : Silent s.trace

theorem Good.new : Good ({} : Timer Ctx) where
  exclusive := rfl
  started := rfl
  runs := Nat.le_refl 0
  contexts _ := Nat.le_refl 0
  counted := rfl
  ids := Nat.le_refl 0
  calls := Nat.le_refl 0
  cancelling h := absurd rfl h
  busy := by rintro ⟨⟩
  arming h := absurd rfl h
  quiet _ := rfl
  silent _ _ _ _ _ h := by
    have hnil := suffix_nil.mp h
    cases hnil

theorem Good.inflight_pos (hs : Good s) (hi : s.runners[i]? = some r) (hlive : live r = 1) :
    0 < s.inflight := by
  have htotal := total_set hi live .done
  have hcounted := hs.counted
  rw [hlive, show live (.done : Runner Ctx) = 0 from rfl] at htotal
  omega

theorem Good.runner (hs : Good s) (hi : s.runners[i]? = some r)
    (h : s.runnerNext i fTimedOut r = some s') : Good s' := by
  have hset := total_set hi
  -- a cancel under way has made the ids equal
  cases r
  case taken id pv due =>
    have hpos := hs.inflight_pos hi rfl
    cases h
    refine { hs with
      toCounts := ⟨?_, ?_, ?_, ?_, ?_⟩, calls := ?_, arming := ?_, quiet := ?_, silent := ?_ } <;>
      grind
  case inTask =>
    cases h
    refine { hs with
      toCounts := ⟨?_, ?_, ?_, ?_, ?_⟩, calls := ?_, arming := ?_, quiet := ?_, silent := ?_ } <;>
      grind
  -- the other steps leave what happened as it is
  all_goals
    dsimp only [Timer.runnerNext, Timer.park] at h
    (try split_ifs at h) <;> cases h <;>
    refine { hs with
      toCounts := ⟨?_, ?_, ?_, ?_, ?_⟩, ids := ?_, cancelling := ?_, busy := ?_, quiet := ?_ } <;>
      grind

@[grind =]
theorem tally_hands_handBack (c : Ctx) (pv : Option Ctx) (trace : List (Event Ctx)) :
    tally (hands c) (handBack pv trace) = tally (hands c) trace + if pv = some c then 1 else 0 := by
  cases pv with
  | none => rfl
  | some c' =>
    simp only [Option.some.injEq]
    exact add_comm _ _

theorem Good.schedule {pv : Option Ctx} {dtickMinDelay : Nat} (hs : Good s)
    (h : s.schedule pv dtickMinDelay = some s') : Good s' := by
  unfold Timer.schedule at h
  split at h
  · cases h
  split at h
  case isTrue hbusy =>
    cases h
    refine { hs with
      toCounts := ⟨?_, ?_, ?_, ?_, ?_⟩, calls := ?_, arming := ?_, quiet := ?_, silent := ?_ } <;>
      grind
  case isFalse hgo =>
    cases h
    refine {
      toCounts := ⟨?_, ?_, ?_, ?_, ?_⟩, ids := ?_, calls := ?_, cancelling := ?_
      busy := ?_, arming := ?_, quiet := ?_, silent := ?_ } <;> grind

theorem Good.armNext {fCreated : Bool} (hs : Good s) (h : s.armNext fCreated = some s') :
    Good s' := by
  unfold Timer.armNext at h
  split at h
  · cases h
  · cases h
    refine { hs with counted := ?_, arming := ?_ } <;> grind
  · cases h
    refine { hs with counted := ?_, arming := ?_, quiet := ?_ } <;> grind
  · split at h <;> cases h
    · refine { hs with toCounts := ⟨?_, ?_, ?_, ?_, ?_⟩, arming := ?_ } <;> grind
    · refine { hs with counted := ?_, arming := ?_, quiet := ?_ } <;> grind

theorem Good.cancel (hs : Good s) (h : s.cancel = some s') : Good s' := by
  unfold Timer.cancel at h
  split at h <;> cases h
  refine {
    toCounts := ⟨?_, ?_, ?_, ?_, ?_⟩, ids := ?_, calls := ?_, cancelling := ?_
    busy := ?_, arming := ?_, quiet := ?_, silent := ?_ } <;> grind

theorem Good.cancelNext (hs : Good s) (h : s.cancelNext = some s') : Good s' := by
  unfold Timer.cancelNext at h
  split at h
  case h_7 =>
    cases h
    refine { hs with
      toCounts := ⟨?_, ?_, ?_, ?_, ?_⟩, calls := ?_, cancelling := ?_
      busy := ?_, arming := ?_, quiet := ?_, silent := ?_ } <;> grind
  all_goals
    (try split at h) <;> cases h <;>
    refine { hs with cancelling := ?_, busy := ?_, arming := ?_, quiet := ?_ } <;> grind

theorem Good.step {a : Action Ctx} (hs : Good s) (h : s.step a = some s') : Good s' := by
  cases a with
  | tick dtick =>
    cases h
    exact { hs with }
  | schedule pv dtickMinDelay => exact Good.schedule hs h
  | arm fCreated => exact Good.armNext hs h
  | cancel => exact hs.cancel h
  | cancelNext => exact hs.cancelNext h
  | runner i fTimedOut =>
    obtain ⟨r, hi, hnext⟩ := Option.bind_eq_some_iff.mp h
    exact hs.runner hi hnext

theorem Reach.good {Allowed : Timer Ctx → Action Ctx → Prop} (hs : Reach Allowed s) : Good s := by
  induction hs with
  | new => exact .new
  | step _ _ h ih => exact ih.step h

/-- Runs do not overlap, there are not more of them than schedule calls, each context that a call
brought is handed out at most once, and none starts between a cancel and the next schedule call. -/
theorem runs_at_most_once (s : Timer Ctx) (hs : Reach (fun _ _ => True) s) :
    total inTask s.runners ≤ 1 ∧ tally isStart s.trace ≤ tally isSchedule s.trace ∧
      (∀ c, tally (hands c) s.trace ≤ tally (brings c) s.trace) ∧ Silent s.trace := by
  have hgood := hs.good
  have hexclusive := hgood.exclusive
  have hruns := hgood.runs
  have hids := hgood.ids
  have hcalls := hgood.calls
  have hinTask : total inTask s.runners ≤ total holds s.runners :=
    sum_le_sum fun r _ => by cases r <;> simp [inTask, holds]
  refine ⟨by omega, by omega, fun c => ?_, hgood.silent⟩
  have hcontexts := hgood.contexts c
  omega

end Contexts

def arms : List (Action Nat) := [.arm true, .arm true, .arm true]

def oneRun : List (Action Nat) :=
  .schedule (some 1) 5 :: arms ++ .runner 0 true :: .schedule (some 2) 5 :: arms ++
    [.runner 1 true, .tick 5, .runner 0 true, .runner 0 true, .runner 0 true, .runner 0 true,
    .cancel]

theorem oneRun_once :
    ∃ s, Timer.run {} oneRun = some s ∧
      s.trace = [.start 2 (some 2) 5 5, .back 1, .schedule (some 2), .schedule (some 1)] ∧
      total inTask s.runners ≤ 1 :=
  ⟨_, rfl, rfl, (runs_at_most_once _ (Reach.new.run (fun _ _ _ => trivial)
    (show Timer.run {} oneRun = some _ from rfl))).1⟩

end EseLinux.TimerTask
