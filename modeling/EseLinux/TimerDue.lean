import EseLinux.TimerTask

/-!
When a scheduling of a timer task runs at its due time: all runner threads share one due time, and
the flag of a cancel is never taken back.
-/

namespace EseLinux.TimerTask

open List

variable {Ctx : Type} {s s' : Timer Ctx} {i : Nat} {r r' : Runner Ctx} {fTimedOut : Bool}

@[grind]
def Late (now due : Nat) : Runner Ctx → Prop
  | .waiting deadline => due ≤ deadline ∨ due ≤ now
  | .fired | .acquired => due ≤ now
  | _ => True

theorem Late.tick {now due : Nat} (h : Late now due r) (dtick : Nat) :
    Late (now + dtick) due r := by
  cases r <;> grind

@[grind]
def coming : Runner Ctx → Nat
  | .created | .waiting _ | .fired | .acquired => 1
  | _ => 0

theorem Late.of_coming {now due : Nat} (h : due ≤ now ∨ coming r = 0) : Late now due r := by
  cases r <;> grind

/-- A call to schedule is allowed before the first cancel, with a delay only if no runner is left
that might take what it schedules; and threads are made. -/
def Allowed (s : Timer Ctx) : Action Ctx → Prop
  | .schedule _ dtickMinDelay =>
    s.state = .cancelling ∨
      s.cancelled = false ∧ (dtickMinDelay = 0 ∨ ∀ r ∈ s.runners, coming r = 0)
  | .arm fCreated => fCreated = true
  | _ => True

/-- The due time that will be in `fireAt`. -/
@[grind]
def Timer.aim (s : Timer Ctx) : Nat :=
  match s.arming with
  | some (.fireAt fireAt) => fireAt
  | _ => s.fireAt

@[grind cases]
structure Sound (s : Timer Ctx) : Prop where
  late : s.idRun ≠ s.idSchedule → ∀ r ∈ s.runners, Late s.now s.due r
  alone : s.arming ≠ none → s.due ≤ s.now ∨ ∀ r ∈ s.runners, coming r = 0
  aim : s.due ≤ s.aim ∨ s.due ≤ s.now
  armed : s.arming = some .thread → s.armed = true
  pending : s.idRun ≠ s.idSchedule → s.cancelled = false ∧
    (s.arming = none → s.armed = true ∧ 0 < total coming s.runners)
  dequeued : ∀ id pv due, .taken id pv due ∈ s.runners → due ≤ s.now
  punctual : ∀ id pv due time, .start id pv due time ∈ s.trace → due ≤ time
  consumed : lastCall s.trace = some true → s.canceller = .idle → s.idRun = s.idSchedule →
    (∃ pv due, .taken s.idSchedule pv due ∈ s.runners) ∨
      ∃ pv due time, .start s.idSchedule pv due time ∈ s.trace

theorem mem_set_of_ne {runners : List (Runner Ctx)} (hi : runners[i]? = some r) {x : Runner Ctx}
    (hx : x ∈ runners) (hne : x ≠ r) : x ∈ runners.set i r' := by
  obtain ⟨k, hk⟩ := getElem?_of_mem hx
  have hki : i ≠ k := by
    rintro rfl
    exact hne (Option.some.inj (hk.symm.trans hi))
  refine mem_of_getElem? (i := k) ?_
  rw [getElem?_set_ne hki]
  exact hk

theorem mem_handBack {id due time : Nat} {pv pv' : Option Ctx} {trace : List (Event Ctx)}
    (h : .start id pv due time ∈ handBack pv' trace) : .start id pv due time ∈ trace := by
  cases pv' with
  | none => exact h
  | some c => exact (mem_cons.mp h).resolve_left fun heq => by cases heq

theorem Sound.new : Sound ({} : Timer Ctx) where
  late h := absurd rfl h
  alone h := absurd rfl h
  aim := .inl le_rfl
  armed := by rintro ⟨⟩
  pending h := absurd rfl h
  dequeued _ _ _ h := by cases h
  punctual _ _ _ _ h := by cases h
  consumed h := by cases h

theorem Sound.armNext (hs : Sound s) (h : s.armNext true = some s') : Sound s' := by
  unfold Timer.armNext at h
  split at h
  · cases h
  · cases h
    refine { hs with alone := ?_, aim := ?_, armed := ?_, pending := ?_ } <;> grind
  · cases h
    refine { hs with alone := ?_, aim := ?_, armed := ?_, pending := ?_ } <;> grind
  · cases h
    refine { hs with
      late := ?_, alone := ?_, aim := ?_, armed := ?_, pending := ?_, dequeued := ?_
      consumed := ?_ } <;> grind

variable [DecidableEq Ctx]

theorem Sound.runner (hgood : Good s) (hs : Sound s) (hi : s.runners[i]? = some r)
    (h : s.runnerNext i fTimedOut r = some s') : Sound s' := by
  have hset := total_set hi coming
  have hmem : r ∈ s.runners := mem_of_getElem? hi
  have hkeep : ∀ r' x, x ∈ s.runners → x ≠ r → x ∈ s.runners.set i r' :=
    fun _ _ hx hne => mem_set_of_ne hi hx hne
  have hnew : ∀ r', r' ∈ s.runners.set i r' :=
    fun r' => List.mem_set (List.getElem?_eq_some_iff.mp hi).1 r'
  cases r
  case taken id pv due =>
    cases h
    refine { hs with
      late := ?_, alone := ?_, pending := ?_, dequeued := ?_, punctual := ?_
      consumed := ?consumed }
    case consumed =>
      intro hlast hidle heq
      rcases hs.consumed hlast hidle heq with ⟨pv', due', htaken⟩ | ⟨pv', due', time, hstart⟩
      · by_cases hsame : Runner.taken s.idSchedule pv' due' = .taken id pv due
        · cases hsame
          exact .inr ⟨_, _, _, mem_cons_self⟩
        · exact .inl ⟨_, _, hkeep _ _ htaken hsame⟩
      · exact .inr ⟨_, _, _, mem_cons_of_mem _ hstart⟩
    all_goals grind
  case inTask =>
    cases h
    refine { hs with
      late := ?_, alone := ?_, pending := ?_, dequeued := ?_, punctual := ?_
      consumed := ?consumed }
    case consumed =>
      intro hlast hidle heq
      rcases hs.consumed hlast hidle heq with ⟨pv', due', htaken⟩ | ⟨pv', due', time, hstart⟩
      · exact .inl ⟨_, _, hkeep _ _ htaken fun h => by cases h⟩
      · exact .inr ⟨_, _, _, mem_cons_of_mem _ hstart⟩
    all_goals grind
  -- the other steps leave what happened as it is
  all_goals
    dsimp only [Timer.runnerNext, Timer.park] at h
    (try split_ifs at h) <;> cases h <;>
    refine { hs with late := ?_, alone := ?_, pending := ?_, dequeued := ?_, consumed := ?_ } <;>
      grind

theorem Sound.schedule {pv : Option Ctx} {dtickMinDelay : Nat} (hgood : Good s) (hs : Sound s)
    (ha : Allowed s (.schedule pv dtickMinDelay)) (h : s.schedule pv dtickMinDelay = some s') :
    Sound s' := by
  unfold Timer.schedule at h
  split at h
  · cases h
  split at h
  case isTrue hbusy =>
    cases h
    refine { hs with punctual := ?_, consumed := ?_ } <;> grind
  case isFalse hgo =>
    obtain ⟨hcancelled, hdelay⟩ := ha.resolve_left hgo
    have hlate (r) (hr : r ∈ s.runners) : Late s.now (s.now + dtickMinDelay) r :=
      .of_coming (hdelay.imp (by omega) fun hnone => hnone r hr)
    cases h
    refine { hs with
      late := ?_, alone := ?_, aim := ?_, armed := ?_, pending := ?_, punctual := ?_
      consumed := ?_ } <;> grind [mem_handBack]

theorem Sound.step {a : Action Ctx} (hgood : Good s) (hs : Sound s) (ha : Allowed s a)
    (h : s.step a = some s') : Sound s' := by
  cases a with
  | tick dtick =>
    cases h
    exact { hs with
      late := fun hne r hr => (hs.late hne r hr).tick dtick
      alone := fun harming => (hs.alone harming).imp_left (Nat.le_add_right_of_le ·)
      aim := hs.aim.imp_right (Nat.le_add_right_of_le ·)
      dequeued := fun id pv due h => Nat.le_add_right_of_le (hs.dequeued id pv due h) }
  | schedule pv dtickMinDelay => exact Sound.schedule hgood hs ha h
  | arm fCreated =>
    obtain rfl : fCreated = true := ha
    exact Sound.armNext hs h
  | cancel =>
    change s.cancel = some s' at h
    unfold Timer.cancel at h
    split at h <;> cases h
    refine { hs with late := ?_, pending := ?_, punctual := ?_, consumed := ?_ } <;>
      grind [mem_handBack]
  | cancelNext =>
    change s.cancelNext = some s' at h
    unfold Timer.cancelNext at h
    split at h <;> (try split at h) <;> cases h <;>
    refine { hs with armed := ?_, pending := ?_, punctual := ?_, consumed := ?_ } <;> grind
  | runner i fTimedOut =>
    obtain ⟨r, hi, hnext⟩ := Option.bind_eq_some_iff.mp h
    exact Sound.runner hgood hs hi hnext

theorem Reach.sound (hs : Reach Allowed s) : Sound s := by
  induction hs with
  | new => exact .new
  | step hprev ha h ih => exact ih.step hprev.good ha h

/-- Where only allowed calls are made, no run starts before its scheduling is due, and when all
runners have finished, the last scheduling has had its run unless a cancel came after it. -/
theorem runs_when_due (s : Timer Ctx) (hs : Reach Allowed s) :
    (∀ id pv due time, .start id pv due time ∈ s.trace → due ≤ time) ∧
      (s.arming = none → (∀ r ∈ s.runners, r = .done) → s.canceller = .idle →
        lastCall s.trace = some true →
          ∃ pv due time, .start s.idSchedule pv due time ∈ s.trace) := by
  have hsound := hs.sound
  refine ⟨hsound.punctual, ?_⟩
  intro harming hdone hidle hlast
  have hnone : total coming s.runners = 0 := by
    refine sum_eq_zero fun n hn => ?_
    obtain ⟨r, hr, rfl⟩ := mem_map.mp hn
    rw [hdone r hr]
    rfl
  have hequal : s.idRun = s.idSchedule := by
    by_contra hne
    exact lt_irrefl 0 (hnone ▸ ((hsound.pending hne).2 harming).2)
  rcases hsound.consumed hlast hidle hequal with ⟨pv, due, htaken⟩ | hstart
  · have hfalse := hdone _ htaken
    cases hfalse
  · exact hstart

/-- The first runner times out while a later scheduling is pending, and takes it. -/
def earlyRun : List (Action Nat) :=
  .schedule none 5 :: arms ++ .runner 0 true :: .schedule (some 1) 100 :: arms ++
    [.tick 5, .runner 0 true, .runner 0 true, .runner 0 true, .runner 0 true]

def lostRun : List (Action Nat) :=
  [.cancel, .cancelNext, .cancelNext, .cancelNext, .cancelNext, .cancelNext, .cancelNext,
    .schedule (some 1) 5] ++ arms ++ [.tick 5, .runner 0 true, .runner 0 true]

theorem early_and_lost :
    (Timer.run {} earlyRun).map Timer.trace =
        some [.start 2 (some 1) 100 5, .schedule (some 1), .schedule none] ∧
      (Timer.run {} lostRun).map (fun s => (s.trace, s.runners)) =
        some ([.schedule (some 1), .cancelReturn], [.done]) :=
  ⟨rfl, rfl⟩

def dueRun : List (Action Nat) :=
  arms ++ .runner 0 true :: .tick 5 :: replicate 8 (.runner 0 true)

theorem dueRun_when_due :
    ∃ s, Timer.run {} (.schedule (some 1) 5 :: dueRun) = some s ∧ s.runners = [.done] ∧
      ∃ pv due time, .start s.idSchedule pv due time ∈ s.trace := by
  have hscheduled := Reach.new.step (a := (.schedule (some 1) 5 : Action Nat))
    (show Allowed {} _ from .inr ⟨rfl, .inr nofun⟩) rfl
  have hdone :=
    hscheduled.run (by simp [dueRun, arms, Allowed]) (show Timer.run _ dueRun = some _ from rfl)
  exact ⟨_, rfl, rfl, (runs_when_due _ hdone).2 rfl (by simp) rfl rfl⟩

end EseLinux.TimerTask
