import Mathlib.Tactic.Common

/-!
The search for the last segment of the block cache's journal (`_journalsegmentmanager.hxx`): the
segments are a circular queue on disk, and the last one is the one with the highest position.  The
search by bisection is compared with the linear one.

A segment that was never written has the position of its slot in the first round of the queue.
-/

namespace EseLinux.BlockCacheJournal

inductive Err where
  | readVerifyFailure
  | pageNotInitialized
  | diskReadVerificationFailure
  | readLostFlushVerifyFailure
  | other (code : Int)
  deriving DecidableEq, Repr

def fVerificationError : Err → Bool
  | .other _ => false
  | _ => true

def cbJournalSegment : Nat := 4096

def rounddn (x y : Nat) : Nat := x / y * y

/-- The part of the caching file that holds the segments, and what loading each of them gives. -/
structure Region (σ : Type*) where
  isegFirst : Nat
  cseg : Nat
  cseg_pos : 0 < cseg
  errLoadSegment : Nat → Except Err σ
  sposOf : σ → Nat

namespace Region

variable {σ : Type*} (r : Region σ)

def ib : Nat := r.isegFirst * cbJournalSegment

def cb : Nat := r.cseg * cbJournalSegment

structure Loaded (σ : Type*) where
  pjs : Option σ
  errSegment : Option Err
  spos : Nat

def errCheckOffset (ib : Nat) (l : Loaded σ) : Except Err (Loaded σ) :=
  if r.ib + l.spos / cbJournalSegment % (r.cb / cbJournalSegment) * cbJournalSegment ≠ ib then
    .error .readVerifyFailure
  else .ok l

def errLoadSegmentForRecovery (ib : Nat) : Except Err (Loaded σ) :=
  match r.errLoadSegment ib with
  | .ok pjs => r.errCheckOffset ib ⟨some pjs, none, r.sposOf pjs⟩
  | .error err =>
    if fVerificationError err then r.errCheckOffset ib ⟨none, some err, ib - r.ib⟩
    else .error err

/-- The search by bisection goes on only with segments that are valid or were never written. -/
def errLoadUsable (ib : Nat) : Except Err (Loaded σ) :=
  match r.errLoadSegmentForRecovery ib with
  | .error err => .error err
  | .ok l =>
    match l.errSegment with
    | none => .ok l
    | some .pageNotInitialized => .ok l
    | some err => .error err

structure Probe (σ : Type*) where
  ibMin : Nat
  ibMax : Nat
  ibMid : Nat
  sposMin : Nat
  pjsMin : Option σ
  pjsMid : Option σ

/-- The loop of `ErrFindLastSegmentWithBinarySearch`, for at most so many rounds. -/
def binaryLoop : Nat → Probe σ → Option (Except Err (Probe σ))
  | 0, _ => none
  | rounds + 1, p =>
    if p.ibMin < p.ibMax then
      let ibMid := rounddn (p.ibMin + (p.ibMax - p.ibMin) / 2) cbJournalSegment
      match r.errLoadUsable ibMid with
      | .error err => some (.error err)
      | .ok mid =>
        if p.sposMin < mid.spos then
          binaryLoop rounds ⟨ibMid, p.ibMax, ibMid, mid.spos, mid.pjs, none⟩
        else binaryLoop rounds ⟨p.ibMin, ibMid, ibMid, p.sposMin, p.pjsMin, mid.pjs⟩
    else some (.ok p)

/-- The segment at the end of the search, which may have been loaded already. -/
def errFetchLast (p : Probe σ) : Except Err (Option σ) :=
  if p.ibMax = p.ibMin ∧ p.pjsMin.isSome then .ok p.pjsMin
  else if p.ibMax = p.ibMid ∧ p.pjsMid.isSome then .ok p.pjsMid
  else
    match r.errLoadSegment p.ibMax with
    | .ok pjs => .ok (some pjs)
    | .error .pageNotInitialized => .ok none
    | .error err => .error err

structure Last (σ : Type*) where
  ib : Nat
  pjs : Option σ
  fEmpty : Bool

def errIgnored (err : Err) : Except Err (Last σ) :=
  if fVerificationError err then .ok ⟨0, none, false⟩ else .error err

def errFindLastSegmentWithBinarySearch (rounds : Nat) : Option (Except Err (Last σ)) :=
  match r.errLoadUsable r.ib with
  | .error err => some (errIgnored err)
  | .ok l =>
    (r.binaryLoop rounds ⟨r.ib, r.ib + r.cb, 0, l.spos, l.pjs, none⟩).map fun
      | .error err => errIgnored err
      | .ok p =>
        match r.errFetchLast p with
        | .error err => errIgnored err
        | .ok pjs => .ok ⟨p.ibMax, pjs, pjs.isNone⟩

structure Best (σ : Type*) where
  ibLast : Nat
  sposLast : Nat
  pjsLast : Option σ

def Best.next (b : Best σ) (ib : Nat) (l : Loaded σ) : Best σ :=
  if l.pjs.isNone ∧ l.errSegment ≠ some .pageNotInitialized then b
  else if b.pjsLast.isNone ∨ b.sposLast < l.spos then ⟨ib, l.spos, l.pjs⟩
  else b

/-- The loop of `ErrFindLastSegmentWithLinearSearch` over so many segments from an offset on. -/
def linearLoop : Nat → Nat → Best σ → Except Err (Best σ)
  | 0, _, b => .ok b
  | n + 1, ib, b =>
    match r.errLoadSegmentForRecovery ib with
    | .error err => .error err
    | .ok l => linearLoop n (ib + cbJournalSegment) (b.next ib l)

def errFindLastSegmentWithLinearSearch : Except Err (Nat × Option σ) :=
  match r.linearLoop r.cseg r.ib ⟨r.cb, 0, none⟩ with
  | .error err => if fVerificationError err then .ok (0, none) else .error err
  | .ok b => .ok (b.ibLast, b.pjsLast)

def ibSlot (i : Nat) : Nat := (r.isegFirst + i) * cbJournalSegment

theorem ibSlot_zero : r.ibSlot 0 = r.ib := rfl

theorem ibSlot_lt {i j : Nat} : r.ibSlot i < r.ibSlot j ↔ i < j := by
  simp only [ibSlot, cbJournalSegment]
  omega

theorem ibSlot_succ (i : Nat) : r.ibSlot (i + 1) = r.ibSlot i + cbJournalSegment := by
  simp only [ibSlot, cbJournalSegment]
  omega

theorem rounddn_ibSlot {i j : Nat} (h : i ≤ j) :
    rounddn (r.ibSlot i + (r.ibSlot j - r.ibSlot i) / 2) cbJournalSegment =
      r.ibSlot (i + (j - i) / 2) := by
  simp only [rounddn, ibSlot, cbJournalSegment]
  omega

def AllLoad : Prop := ∀ i < r.cseg, ∃ l, r.errLoadUsable (r.ibSlot i) = .ok l

def position (i : Nat) : Nat :=
  match r.errLoadUsable (r.ibSlot i) with
  | .ok l => l.spos
  | .error _ => 0

variable {r} {i j k : Nat} {l : Loaded σ}

theorem position_eq (h : r.errLoadUsable (r.ibSlot i) = .ok l) : r.position i = l.spos := by
  rw [position, h]

theorem errCheckOffset_ok {l' : Loaded σ} (h : r.errCheckOffset (r.ibSlot i) l' = .ok l) :
    l' = l ∧ i * cbJournalSegment ≤ l.spos := by
  unfold errCheckOffset at h
  split at h
  · cases h
  case isFalse hoffset =>
    cases h
    refine ⟨rfl, ?_⟩
    have hle := Nat.mod_le (l.spos / cbJournalSegment) (r.cb / cbJournalSegment)
    simp only [ne_eq, Decidable.not_not, ib, ibSlot, cbJournalSegment] at hoffset hle ⊢
    omega

theorem errLoadUsable_ok (h : r.errLoadUsable (r.ibSlot i) = .ok l) :
    r.errLoadSegmentForRecovery (r.ibSlot i) = .ok l ∧ i * cbJournalSegment ≤ l.spos ∧
      ((∃ pjs, r.errLoadSegment (r.ibSlot i) = .ok pjs ∧ l.pjs = some pjs) ∨
        r.errLoadSegment (r.ibSlot i) = .error .pageNotInitialized ∧ l.pjs = none ∧
          l.errSegment = some .pageNotInitialized ∧ l.spos = i * cbJournalSegment) := by
  have hload : r.errLoadSegmentForRecovery (r.ibSlot i) = .ok l ∧
      (l.errSegment = none ∨ l.errSegment = some .pageNotInitialized) := by
    unfold errLoadUsable at h
    split at h
    · cases h
    case h_2 l' hl' =>
      split at h <;> cases h
      case h_1 hnone => exact ⟨hl', .inl hnone⟩
      case h_2 hnot => exact ⟨hl', .inr hnot⟩
  refine ⟨hload.1, ?_⟩
  obtain ⟨hrecovery, herr⟩ := hload
  unfold errLoadSegmentForRecovery at hrecovery
  split at hrecovery
  case h_1 pjs hpjs =>
    obtain ⟨rfl, hle⟩ := errCheckOffset_ok hrecovery
    exact ⟨hle, .inl ⟨pjs, hpjs, rfl⟩⟩
  case h_2 err herror =>
    split at hrecovery
    · obtain ⟨rfl, hle⟩ := errCheckOffset_ok hrecovery
      obtain rfl : err = .pageNotInitialized := by
        rcases herr with hnone | hsome
        · cases hnone
        · exact Option.some.inj hsome
      refine ⟨hle, .inr ⟨herror, rfl, rfl, ?_⟩⟩
      simp only [ib, ibSlot, cbJournalSegment]
      omega
    · cases hrecovery

/-- In the circular order of the slots the positions ascend, but for one drop behind slot `k`. -/
structure OneDrop (a : Nat → Nat) (n k : Nat) : Prop where
  lt : k < n
  ascends : ∀ i < n, i ≠ k → a i < a ((i + 1) % n)

section Drop

variable {a : Nat → Nat} {n : Nat}

theorem OneDrop.lt_succ (h : OneDrop a n k) (hi : i + 1 < n) (hne : i ≠ k) : a i < a (i + 1) := by
  have hlt := h.ascends i (by omega) hne
  rwa [Nat.mod_eq_of_lt hi] at hlt

theorem lt_of_steps {m : Nat} (hstep : ∀ x, i ≤ x → x < m → a x < a (x + 1)) (him : i < m) :
    a i < a m := by
  induction m with
  | zero => exact absurd him (Nat.not_lt_zero _)
  | succ m ih =>
    have hlast := hstep m (by omega) (Nat.lt_succ_self m)
    rcases Nat.lt_succ_iff_lt_or_eq.mp him with hlt | rfl
    · exact Nat.lt_trans (ih (fun x hx hxm => hstep x hx (by omega)) hlt) hlast
    · exact hlast

theorem OneDrop.before (h : OneDrop a n k) (hij : i < j) (hj : j ≤ k) : a i < a j := by
  have := h.lt
  exact lt_of_steps (fun x _ hx => h.lt_succ (by omega) (by omega)) hij

theorem OneDrop.behind (h : OneDrop a n k) (hi : i ≤ k) (hj : k < j) (hjn : j < n) : a j < a i := by
  have hlast : a (n - 1) < a 0 := by
    have hlt := h.ascends (n - 1) (by omega) (by omega)
    rwa [Nat.sub_add_cancel (by omega), Nat.mod_self] at hlt
  have hjlast : a j ≤ a (n - 1) := by
    rcases Nat.eq_or_lt_of_le (Nat.le_sub_one_of_lt hjn) with heq | hlt
    · exact Nat.le_of_eq (congrArg a heq)
    · exact Nat.le_of_lt (lt_of_steps (fun x _ _ => h.lt_succ (by omega) (by omega)) hlt)
  have hfirst : a 0 ≤ a i := by
    rcases Nat.eq_zero_or_pos i with heq | hpos
    · exact Nat.le_of_eq (congrArg a heq.symm)
    · exact Nat.le_of_lt (h.before hpos hi)
  omega

end Drop

structure Probing (r : Region σ) (p : Probe σ) (i j : Nat) (l : Loaded σ) : Prop where
  ibMin : p.ibMin = r.ibSlot i
  ibMax : p.ibMax = r.ibSlot j
  load : r.errLoadUsable (r.ibSlot i) = .ok l
  spos : p.sposMin = l.spos
  pjs : p.pjsMin = l.pjs

variable {p : Probe σ}

theorem binaryLoop_of_empty (h : p.ibMin = p.ibMax) (rounds : Nat) :
    r.binaryLoop (rounds + 1) p = some (.ok p) := by
  rw [binaryLoop, if_neg (by omega)]

theorem Probing.binaryLoop_one (h : Probing r p i (i + 1) l) :
    ∃ p', (∀ rounds, r.binaryLoop (rounds + 1) p = r.binaryLoop rounds p') ∧
      Probing r p' i i l ∧ p'.pjsMid = l.pjs := by
  have hmid : rounddn (p.ibMin + (p.ibMax - p.ibMin) / 2) cbJournalSegment = r.ibSlot i := by
    rw [h.ibMin, h.ibMax, rounddn_ibSlot r (Nat.le_add_right i 1), Nat.add_sub_cancel_left]
    rfl
  refine ⟨⟨p.ibMin, r.ibSlot i, r.ibSlot i, p.sposMin, p.pjsMin, l.pjs⟩, fun rounds => ?_,
    ⟨h.ibMin, rfl, h.load, h.spos, h.pjs⟩, rfl⟩
  rw [binaryLoop, if_pos (by rw [h.ibMin, h.ibMax, ibSlot_lt]; exact Nat.lt_succ_self i)]
  dsimp only
  rw [hmid, h.load]
  dsimp only
  rw [if_neg (by rw [h.spos]; exact Nat.lt_irrefl _)]

theorem Probing.binaryLoop_step (h : Probing r p i j l) (hij : i + 2 ≤ j) :
    ∃ m, i < m ∧ m < j ∧ ∀ rounds, (∃ err, r.errLoadUsable (r.ibSlot m) = .error err ∧
        r.binaryLoop (rounds + 1) p = some (.error err)) ∨
      ∃ l' p', r.errLoadUsable (r.ibSlot m) = .ok l' ∧
        r.binaryLoop (rounds + 1) p = r.binaryLoop rounds p' ∧
        (l.spos < l'.spos ∧ Probing r p' m j l' ∨ l'.spos ≤ l.spos ∧ Probing r p' i m l) := by
  refine ⟨i + (j - i) / 2, by omega, by omega, fun rounds => ?_⟩
  have hmid : rounddn (p.ibMin + (p.ibMax - p.ibMin) / 2) cbJournalSegment =
      r.ibSlot (i + (j - i) / 2) := by
    rw [h.ibMin, h.ibMax, rounddn_ibSlot r (by omega)]
  rw [binaryLoop, if_pos (by rw [h.ibMin, h.ibMax, ibSlot_lt]; omega)]
  dsimp only
  rw [hmid]
  cases hload : r.errLoadUsable (r.ibSlot (i + (j - i) / 2)) with
  | error err => exact .inl ⟨err, rfl, rfl⟩
  | ok l' =>
    dsimp only
    by_cases hlt : p.sposMin < l'.spos
    · rw [if_pos hlt]
      exact .inr ⟨l', _, rfl, rfl, .inl ⟨h.spos ▸ hlt, rfl, h.ibMax, hload, rfl, rfl⟩⟩
    · rw [if_neg hlt]
      refine .inr ⟨l', _, rfl, rfl, .inr ⟨?_, h.ibMin, rfl, h.load, h.spos, h.pjs⟩⟩
      exact h.spos ▸ Nat.le_of_not_lt hlt

theorem Probing.binaryLoop_ends (h : Probing r p i j l) (hij : i < j) {rounds : Nat}
    (hrounds : j < i + rounds) : ∃ out, r.binaryLoop rounds p = some out := by
  induction rounds generalizing p i j l with
  | zero => omega
  | succ rounds ih =>
    rcases Nat.eq_or_lt_of_le (Nat.succ_le_of_lt hij) with heq | hlt
    · obtain ⟨n, rfl⟩ : ∃ n, rounds = n + 1 := ⟨rounds - 1, by omega⟩
      obtain rfl := heq
      obtain ⟨p', hloop, hprobing, -⟩ := h.binaryLoop_one
      exact ⟨_, (hloop _).trans (binaryLoop_of_empty (hprobing.ibMin.trans hprobing.ibMax.symm) n)⟩
    · obtain ⟨m, him, hmj, hstep⟩ := h.binaryLoop_step hlt
      rcases hstep rounds with ⟨err, -, hloop⟩ | ⟨l', p', -, hloop, ⟨-, hnext⟩ | ⟨-, hnext⟩⟩
      · exact ⟨_, hloop⟩
      · rw [hloop]
        exact ih hnext hmj (by omega)
      · rw [hloop]
        exact ih hnext him (by omega)

theorem Probing.binaryLoop_drop (h : Probing r p i j l) (hall : r.AllLoad)
    (hdrop : OneDrop r.position r.cseg k) (hik : i ≤ k) (hkj : k < j) (hj : j ≤ r.cseg)
    {rounds : Nat} {out : Except Err (Probe σ)} (hloop : r.binaryLoop rounds p = some out) :
    ∃ p' lk, out = .ok p' ∧ Probing r p' k k lk ∧ p'.pjsMid = lk.pjs := by
  induction rounds generalizing p i j l with
  | zero => cases hloop
  | succ rounds ih =>
    rcases Nat.eq_or_lt_of_le (show i + 1 ≤ j by omega) with heq | hlt
    · obtain rfl : i = k := by omega
      obtain rfl := heq
      obtain ⟨p', hone, hprobing, hmid⟩ := h.binaryLoop_one
      rw [hone] at hloop
      cases rounds with
      | zero => cases hloop
      | succ rounds =>
        rw [binaryLoop_of_empty (hprobing.ibMin.trans hprobing.ibMax.symm)] at hloop
        exact ⟨p', l, (Option.some.inj hloop).symm, hprobing, hmid⟩
    · obtain ⟨m, him, hmj, hstep⟩ := h.binaryLoop_step hlt
      rcases hstep rounds with ⟨err, herror, -⟩ | ⟨l', p', hload, hnext, hcase⟩
      · obtain ⟨l', hl'⟩ := hall m (by omega)
        rw [herror] at hl'
        cases hl'
      · rw [hnext] at hloop
        rw [← position_eq h.load, ← position_eq hload] at hcase
        rcases hcase with ⟨hless, hprobing⟩ | ⟨hge, hprobing⟩
        · refine ih hprobing ?_ hkj hj hloop
          by_contra hmk
          exact absurd (hdrop.behind hik (Nat.lt_of_not_le hmk) (by omega)) (by omega)
        · refine ih hprobing hik ?_ (by omega) hloop
          by_contra hkm
          exact absurd (hdrop.before him (Nat.le_of_not_lt hkm)) (by omega)

theorem Probing.errFetchLast (h : Probing r p i i l) (hmid : p.pjsMid = l.pjs) :
    r.errFetchLast p = .ok l.pjs := by
  obtain ⟨-, -, ⟨pjs, -, hsome⟩ | ⟨hload, hnone, -⟩⟩ := errLoadUsable_ok h.load
  · rw [Region.errFetchLast, if_pos ⟨h.ibMax.trans h.ibMin.symm, by rw [h.pjs, hsome]; rfl⟩, h.pjs]
  · rw [Region.errFetchLast, if_neg (by rw [h.pjs, hnone]; simp),
      if_neg (by rw [hmid, hnone]; simp), h.ibMax, hload, hnone]

/-- The best segment so far is the one in slot `i`. -/
structure BestAt (r : Region σ) (b : Best σ) (i : Nat) (l : Loaded σ) : Prop where
  load : r.errLoadUsable (r.ibSlot i) = .ok l
  ib : b.ibLast = r.ibSlot i
  spos : b.sposLast = l.spos
  pjs : b.pjsLast = l.pjs

theorem next_eq (b : Best σ) (h : r.errLoadUsable (r.ibSlot i) = .ok l) :
    b.next (r.ibSlot i) l =
      if b.pjsLast.isNone ∨ b.sposLast < l.spos then ⟨r.ibSlot i, l.spos, l.pjs⟩ else b := by
  rw [Best.next, if_neg]
  rintro ⟨hnone, herr⟩
  obtain ⟨-, -, ⟨pjs, -, hsome⟩ | ⟨-, -, hnot, -⟩⟩ := errLoadUsable_ok h
  · rw [hsome] at hnone
    cases hnone
  · exact herr hnot

theorem pjs_isSome_of_drop (hall : r.AllLoad) (hdrop : OneDrop r.position r.cseg k)
    (hk : k + 1 < r.cseg) (h : r.errLoadUsable (r.ibSlot k) = .ok l) : l.pjs.isNone = false := by
  obtain ⟨l', hl'⟩ := hall (k + 1) hk
  have hless := hdrop.behind (Nat.le_refl k) (Nat.lt_succ_self k) hk
  rw [position_eq hl', position_eq h] at hless
  obtain ⟨-, hle, -⟩ := errLoadUsable_ok hl'
  obtain ⟨-, -, ⟨pjs, -, hsome⟩ | ⟨-, -, -, hspos⟩⟩ := errLoadUsable_ok h
  · rw [hsome]
    rfl
  · rw [hspos] at hless
    simp only [cbJournalSegment] at hle hless
    omega

theorem linearLoop_drop (hall : r.AllLoad) (hdrop : OneDrop r.position r.cseg k) {n : Nat}
    (hn : i + n = r.cseg) {b : Best σ}
    (hbest : i = 0 ∧ b.pjsLast = none ∨ ∃ m, 0 < i ∧ m = min (i - 1) k ∧ ∃ l, BestAt r b m l) :
    ∃ b', r.linearLoop n (r.ibSlot i) b = .ok b' ∧ ∃ l, BestAt r b' k l := by
  induction n generalizing i b with
  | zero =>
    have := hdrop.lt
    rcases hbest with ⟨hzero, -⟩ | ⟨m, -, hm, l, hl⟩
    · omega
    · obtain rfl : m = k := by omega
      exact ⟨b, rfl, l, hl⟩
  | succ n ih =>
    obtain ⟨li, hli⟩ := hall i (by omega)
    rw [linearLoop, (errLoadUsable_ok hli).1]
    dsimp only
    rw [← ibSlot_succ, next_eq b hli]
    apply ih (by omega)
    refine .inr ⟨min i k, Nat.succ_pos i, rfl, ?_⟩
    by_cases hik : i ≤ k
    · -- up to the drop every segment is better than the one before it
      rw [if_pos, Nat.min_eq_left hik]
      · exact ⟨li, hli, rfl, rfl, rfl⟩
      · rcases hbest with ⟨-, hnone⟩ | ⟨m, hpos, hm, l, hl⟩
        · exact .inl (by rw [hnone]; rfl)
        · right
          rw [hl.spos, ← position_eq hl.load, ← position_eq hli]
          exact hdrop.before (by omega) hik
    · rcases hbest with ⟨hzero, -⟩ | ⟨m, hpos, hm, l, hl⟩
      · omega
      · obtain rfl : m = k := by omega
        rw [if_neg, Nat.min_eq_right (by omega)]
        · exact ⟨l, hl⟩
        · rw [hl.pjs, pjs_isSome_of_drop hall hdrop (by omega) hl.load, hl.spos,
            ← position_eq hl.load, ← position_eq hli]
          have := hdrop.behind (Nat.le_refl m) (Nat.lt_of_not_le hik) (by omega)
          simp
          omega

/-- The search by bisection returns.  If all segments load and their positions ascend in the
circular order of the slots but for one drop, it returns the segment that the linear search
returns. -/
theorem findLast_exact (r : Region σ) :
    (∃ rounds out, r.errFindLastSegmentWithBinarySearch rounds = some out) ∧
      ∀ k, r.AllLoad → OneDrop r.position r.cseg k → ∀ rounds out,
        r.errFindLastSegmentWithBinarySearch rounds = some out → ∃ last, out = .ok last ∧
            r.errFindLastSegmentWithLinearSearch = .ok (last.ib, last.pjs) := by
  have hstart : ∀ l, r.errLoadUsable r.ib = .ok l →
      Probing r ⟨r.ib, r.ib + r.cb, 0, l.spos, l.pjs, none⟩ 0 r.cseg l := fun l hl =>
    ⟨r.ibSlot_zero.symm, (Nat.add_mul _ _ _).symm, hl, rfl, rfl⟩
  constructor
  · unfold errFindLastSegmentWithBinarySearch
    cases hload : r.errLoadUsable r.ib with
    | error err => exact ⟨0, _, rfl⟩
    | ok l =>
      obtain ⟨out, hout⟩ := (hstart l hload).binaryLoop_ends r.cseg_pos
        (show r.cseg < 0 + (r.cseg + 1) by omega)
      exact ⟨r.cseg + 1, _, by dsimp only; rw [hout]; rfl⟩
  · intro k hall hdrop rounds out hsearch
    obtain ⟨l, hl⟩ := hall 0 r.cseg_pos
    rw [errFindLastSegmentWithBinarySearch, show r.errLoadUsable r.ib = .ok l from hl] at hsearch
    obtain ⟨found, hloop, hfound⟩ := Option.map_eq_some_iff.mp hsearch
    obtain ⟨p, lk, rfl, hprobing, hmid⟩ := (hstart l hl).binaryLoop_drop hall hdrop
      (Nat.zero_le k) hdrop.lt (Nat.le_refl _) hloop
    dsimp only at hfound
    rw [hprobing.errFetchLast hmid] at hfound
    obtain ⟨b, hlinear, lk', hbest⟩ := linearLoop_drop hall hdrop (Nat.zero_add r.cseg)
      (b := ⟨r.cb, 0, none⟩) (.inl ⟨rfl, rfl⟩)
    obtain rfl : lk = lk' := Except.ok.inj (hprobing.load.symm.trans hbest.load)
    refine ⟨_, hfound.symm, ?_⟩
    rw [errFindLastSegmentWithLinearSearch, ← ibSlot_zero, hlinear]
    dsimp only
    rw [hbest.ib, hbest.pjs, hprobing.ibMax]

end Region

/-- Three segments, of which the first was written in the second round of the queue. -/
def threeSegments : Region Nat where
  isegFirst := 2
  cseg := 3
  cseg_pos := by decide
  errLoadSegment ib := if ib = 8192 then .ok 12288 else .error .pageNotInitialized
  sposOf := id

theorem threeSegments_exact : ∃ rounds out last,
    threeSegments.errFindLastSegmentWithBinarySearch rounds = some out ∧ out = .ok last ∧
      threeSegments.errFindLastSegmentWithLinearSearch = .ok (last.ib, last.pjs) := by
  obtain ⟨⟨rounds, out, hsearch⟩, hexact⟩ := Region.findLast_exact threeSegments
  have hall : threeSegments.AllLoad := by
    rintro (_ | _ | _ | i) hi
    · exact ⟨_, rfl⟩
    · exact ⟨_, rfl⟩
    · exact ⟨_, rfl⟩
    · exact absurd hi (by simp [threeSegments])
  have hdrop : Region.OneDrop threeSegments.position threeSegments.cseg 0 := ⟨by decide, by decide⟩
  obtain ⟨last, hlast, hlinear⟩ := hexact 0 hall hdrop rounds out hsearch
  exact ⟨rounds, out, last, hsearch, hlast, hlinear⟩

end EseLinux.BlockCacheJournal
