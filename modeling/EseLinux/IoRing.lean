import Mathlib.Algebra.Ring.Nat
import Mathlib.Data.List.Nodup
import Mathlib.Data.List.Pairwise
import Mathlib.Data.List.Perm.Basic

/-!
Requests on the shared io_uring (`iouring_posix.cxx`).  A submitter holds the mutex from the
preparation of its entry to the end of `io_uring_submit`, so that a submission is one step; those of
the kernel and of the completion thread come in between.  A submit call that fails leaves what is
prepared queued.
-/

namespace EseLinux.IoRing

open List

inductive Op
  | read
  | write
  | fsync
deriving DecidableEq, Repr

inductive Err
  | success
  | errOutOfMemory
  | errDiskIo
  | errFileIOBeyondEOF
  | errDiskFull
  | errorIODevice
deriving DecidableEq, Repr

/-- `IOContext`; `fPioreq` if the result goes to an `IOREQ`. -/
structure IOContext where
  id : Nat
  op : Op
  cbData : Nat
  fPioreq : Bool
deriving DecidableEq, Repr

def dispatchCompletion (ctx : IOContext) (cqeRes : Int) : Err × Nat :=
  if ctx.fPioreq then if cqeRes < 0 then (.errorIODevice, 0) else (.success, cqeRes.toNat)
  else
    (if cqeRes < 0 then .errDiskIo
      else if ctx.op = .read ∧ cqeRes < ctx.cbData then .errFileIOBeyondEOF
      else if ctx.op = .write ∧ cqeRes < ctx.cbData then .errDiskFull
      else .success, ctx.cbData)

structure State where
  /-- Entries that are prepared and not yet consumed. -/
  sq : List IOContext
  /-- Entries that the kernel has consumed. -/
  inKernel : List IOContext
  cq : List (IOContext × Int)
  completed : List (IOContext × Err × Nat)

def State.start : State := ⟨[], [], [], []⟩

/-- What `ErrIOUringSubmitIOREQ` and `SubmitAndMaybeWait` report of a submission: `fEntry` if the
ring is there and `io_uring_get_sqe` gives an entry, `rc` the number of entries that
`io_uring_submit` consumes, if it does not fail. -/
def reported (fEntry : Bool) (rc : Option Nat) : Err :=
  if !fEntry then .errOutOfMemory else if rc = none then .errDiskIo else .success

/-- The submission itself; a call that fails has prepared its entry. -/
def submit (s : State) (ctx : IOContext) (fEntry : Bool) (rc : Option Nat) : State :=
  if !fEntry then s
  else
    let sq := s.sq ++ [ctx]
    { s with sq := sq.drop (rc.getD 0), inKernel := s.inKernel ++ sq.take (rc.getD 0) }

inductive Act
  | submit (ctx : IOContext) (fEntry : Bool) (rc : Option Nat)
  /-- The kernel completes one of its entries. -/
  | finish (i : Nat) (res : Int)
  /-- A round of `CompletionLoop`. -/
  | complete

/-- No more is consumed than is queued; where nothing is to be done there is no step. -/
def step (s : State) : Act → Option State
  | .submit ctx fEntry rc =>
    if s.sq.length + 1 < rc.getD 0 then none else some (submit s ctx fEntry rc)
  | .finish i res =>
    match s.inKernel[i]? with
    | none => none
    | some ctx => some { s with inKernel := s.inKernel.eraseIdx i, cq := s.cq ++ [(ctx, res)] }
  | .complete =>
    match s.cq with
    | [] => none
    | (ctx, res) :: cq =>
      some { s with cq, completed := s.completed ++ [(ctx, dispatchCompletion ctx res)] }

def Act.request : Act → Option IOContext
  | .submit ctx _ _ => some ctx
  | _ => none

/-- The entry that is prepared, with the outcome of `io_uring_submit`. -/
def Act.entry : Act → Option (IOContext × Option Nat)
  | .submit ctx true rc => some (ctx, rc)
  | _ => none

/-- The entries that went to the kernel. -/
def State.issued (s : State) : List IOContext :=
  s.completed.map Prod.fst ++ (s.cq.map Prod.fst ++ s.inKernel)

/-- A successful request goes to the kernel once and is completed once when the ring has come to
rest; a failed one never goes to the kernel. -/
structure Once (acts : List Act) (s : State) : Prop where
  issued : ∀ ctx fEntry rc, .submit ctx fEntry rc ∈ acts → reported fEntry rc = .success →
    s.issued.count ctx = 1
  completed : s.inKernel = [] → s.cq = [] → ∀ ctx fEntry rc, .submit ctx fEntry rc ∈ acts →
    reported fEntry rc = .success → (s.completed.map Prod.fst).count ctx = 1
  failed : ∀ ctx fEntry rc, .submit ctx fEntry rc ∈ acts → reported fEntry rc ≠ .success →
    ctx ∉ s.issued

def cConsumed (entries : List (IOContext × Option Nat)) : Nat :=
  (entries.map fun e => e.2.getD 0).sum

/-- Once `io_uring_submit` has failed it fails from then on, and the calls before consume as many
entries as they have prepared. -/
def Orderly (entries : List (IOContext × Option Nat)) : Prop :=
  ∃ ok bad, entries = ok ++ bad ∧ (∀ e ∈ ok, e.2 ≠ none) ∧ (∀ e ∈ bad, e.2 = none) ∧
    cConsumed ok = ok.length

/-- The kernel consumes the entries in the order in which they were prepared. -/
structure State.Inv (entries : List (IOContext × Option Nat)) (consumed : List IOContext)
    (s : State) : Prop where
  prepared : entries.map Prod.fst = consumed ++ s.sq
  issued : s.issued.Perm consumed
  length : consumed.length = cConsumed entries

variable {s s' : State} {a : Act} {acts : List Act} {entries : List (IOContext × Option Nat)}
  {consumed : List IOContext}

theorem cConsumed_append (es es' : List (IOContext × Option Nat)) :
    cConsumed (es ++ es') = cConsumed es + cConsumed es' := by
  rw [cConsumed, map_append, sum_append, cConsumed, cConsumed]

theorem cConsumed_of_none {es : List (IOContext × Option Nat)} (h : ∀ e ∈ es, e.2 = none) :
    cConsumed es = 0 := by
  induction es with
  | nil => rfl
  | cons e es ih =>
    rw [forall_mem_cons] at h
    rw [cConsumed, map_cons, sum_cons, h.1, Option.getD_none, Nat.zero_add]
    exact ih h.2

theorem State.Inv.of_perm (h : s.Inv entries consumed) (hperm : s'.issued.Perm s.issued)
    (hsq : s'.sq = s.sq) : s'.Inv (entries ++ []) consumed := by
  rw [append_nil]
  exact ⟨hsq ▸ h.prepared, hperm.trans h.issued, h.length⟩

theorem State.Inv.step (h : s.Inv entries consumed) (hstep : step s a = some s') :
    ∃ consumed', s'.Inv (entries ++ a.entry.toList) consumed' := by
  cases a with
  | submit ctx fEntry rc =>
    obtain ⟨hn, hsubmit⟩ := Option.ite_none_left_eq_some.mp hstep
    obtain rfl := Option.some.inj hsubmit
    cases fEntry with
    | false => exact ⟨consumed, h.of_perm (.refl _) rfl⟩
    | true =>
      refine ⟨consumed ++ (s.sq ++ [ctx]).take (rc.getD 0), ?_, ?_, ?_⟩
      · rw [map_append, h.prepared, append_assoc, append_assoc]
        exact congrArg (consumed ++ ·) (take_append_drop _ _).symm
      · have hperm := h.issued.append_right ((s.sq ++ [ctx]).take (rc.getD 0))
        rwa [State.issued, append_assoc, append_assoc] at hperm
      · rw [length_append, h.length, length_take, length_append]
        rw [cConsumed_append]
        exact congrArg (cConsumed entries + ·) (Nat.min_eq_left (Nat.not_lt.mp hn))
  | finish i res =>
    simp only [IoRing.step] at hstep
    split at hstep
    · cases hstep
    next ctx hget =>
    obtain rfl := Option.some.inj hstep
    obtain ⟨hi, rfl⟩ := List.getElem?_eq_some_iff.mp hget
    refine ⟨consumed, h.of_perm ?_ rfl⟩
    simp only [State.issued, map_append, map_cons, map_nil, append_assoc]
    refine Perm.append_left _ (Perm.append_left _ ?_)
    exact getElem_cons_eraseIdx_perm hi
  | complete =>
    simp only [IoRing.step] at hstep
    split at hstep
    · cases hstep
    next ctx res cq hcq =>
    obtain rfl := Option.some.inj hstep
    exact ⟨consumed, h.of_perm (by simp [State.issued, hcq]) rfl⟩

theorem filterMap_entry_cons (a : Act) (acts : List Act) :
    (a :: acts).filterMap Act.entry = a.entry.toList ++ acts.filterMap Act.entry := by
  rw [filterMap_cons]
  cases a.entry <;> rfl

theorem run_inv (acts : List Act) (h : s.Inv entries consumed)
    (hrun : acts.foldlM step s = some s') :
    ∃ consumed', s'.Inv (entries ++ acts.filterMap Act.entry) consumed' := by
  induction acts generalizing s entries consumed with
  | nil =>
    obtain rfl := Option.some.inj hrun
    exact ⟨consumed, by rwa [filterMap_nil, append_nil]⟩
  | cons a acts ih =>
    obtain ⟨s'', hstep, hrest⟩ := Option.bind_eq_some_iff.mp hrun
    obtain ⟨consumed'', hinv⟩ := h.step hstep
    rw [filterMap_entry_cons, ← append_assoc]
    exact ih hinv hrest

theorem mem_entries {ctx : IOContext} {rc : Option Nat} :
    (ctx, rc) ∈ acts.filterMap Act.entry ↔ .submit ctx true rc ∈ acts := by
  rw [mem_filterMap]
  constructor
  · rintro ⟨⟨ctx', _ | _, rc'⟩ | _ | _, hmem, hentry⟩ <;> cases hentry
    exact hmem
  · exact fun hmem => ⟨_, hmem, rfl⟩

theorem entries_sublist (acts : List Act) :
    ((acts.filterMap Act.entry).map Prod.fst).Sublist (acts.filterMap Act.request) := by
  induction acts with
  | nil => exact .slnil
  | cons a acts ih =>
    rcases a with ⟨ctx, _ | _, rc⟩ | _ | _
    · exact ih.cons ctx
    · exact ih.cons_cons ctx
    · exact ih
    · exact ih

section Distinct

variable (hdistinct : (acts.filterMap Act.request).Nodup)
include hdistinct

/-- A request is submitted once. -/
theorem submit_unique {ctx : IOContext} {fEntry fEntry' : Bool} {rc rc' : Option Nat}
    (h : .submit ctx fEntry rc ∈ acts) (h' : .submit ctx fEntry' rc' ∈ acts) :
    fEntry = fEntry' ∧ rc = rc' := by
  have hsymm : Std.Symm fun a a' : Act => ∀ ctx, a.request = some ctx →
      ∀ ctx', a'.request = some ctx' → ctx ≠ ctx' :=
    ⟨fun _ _ hne _ ha _ ha' heq => hne _ ha' _ ha heq.symm⟩
  by_contra hne
  refine (pairwise_filterMap.mp hdistinct).forall h h' (fun heq => ?_) ctx rfl ctx rfl rfl
  cases heq
  exact hne ⟨rfl, rfl⟩

theorem State.Inv.orderly (h : s.Inv (acts.filterMap Act.entry) consumed) (honce : Once acts s) :
    Orderly (acts.filterMap Act.entry) := by
  have hnodup := (entries_sublist acts).nodup hdistinct
  have hmem {e} (he : e ∈ acts.filterMap Act.entry) := mem_entries.mp he
  have hprepared := h.prepared
  have hlen := h.length
  generalize acts.filterMap Act.entry = entries at *
  have hok := congrArg (take consumed.length) hprepared
  have hbad := congrArg (drop consumed.length) hprepared
  rw [take_left, ← map_take] at hok
  rw [drop_left, ← map_drop] at hbad
  have hsplit := take_append_drop consumed.length entries
  have hnone : ∀ e ∈ entries.drop consumed.length, e.2 = none := by
    -- a successful entry that is still queued was not issued
    rintro ⟨ctx, rc⟩ he
    by_contra hrc
    have hissued := honce.issued ctx true rc (hmem (mem_of_mem_drop he)) (if_neg hrc)
    rw [h.issued.count_eq] at hissued
    rw [hprepared, nodup_append] at hnodup
    exact hnodup.2.2 ctx (count_pos_iff.mp (hissued ▸ Nat.one_pos)) ctx
      (hbad ▸ mem_map_of_mem he) rfl
  refine ⟨_, _, hsplit.symm, ?_, hnone, ?_⟩
  · rintro ⟨ctx, rc⟩ he (rfl : rc = none)
    refine honce.failed ctx true none (hmem (mem_of_mem_take he)) (by decide) ?_
    exact h.issued.mem_iff.mpr (hok ▸ mem_map_of_mem he)
  · rw [← hsplit, cConsumed_append, cConsumed_of_none hnone, Nat.add_zero] at hlen
    exact hlen.symm.trans ((congrArg List.length hok).symm.trans (List.length_map _))

theorem State.Inv.once (h : s.Inv (acts.filterMap Act.entry) consumed)
    (horderly : Orderly (acts.filterMap Act.entry)) : Once acts s := by
  obtain ⟨ok, bad, hentries, hok, hbad, hcount⟩ := horderly
  have hlen := h.length
  have hprepared := h.prepared
  have hnodup := (entries_sublist acts).nodup hdistinct
  rw [hentries, cConsumed_append, cConsumed_of_none hbad, hcount] at hlen
  rw [hprepared] at hnodup
  rw [hentries, map_append] at hprepared
  have hconsumed : ok.map Prod.fst = consumed :=
    (append_inj hprepared (by rw [length_map, hlen]; rfl)).1
  have hone ctx fEntry rc (hmem : .submit ctx fEntry rc ∈ acts)
      (hreported : reported fEntry rc = .success) : s.issued.count ctx = 1 := by
    obtain ⟨rfl, hrc⟩ : fEntry = true ∧ rc ≠ none := by
      cases fEntry <;> cases rc <;> simp [reported] at hreported ⊢
    have hin : (ctx, rc) ∈ ok ++ bad := hentries ▸ mem_entries.mpr hmem
    have hin := (mem_append.mp hin).resolve_right fun he => hrc (hbad _ he)
    rw [h.issued.count_eq]
    exact count_eq_one_of_mem hnodup.of_append_left (hconsumed ▸ mem_map_of_mem hin)
  refine ⟨hone, ?_, ?_⟩
  · intro hkernel hcq ctx fEntry rc hmem hreported
    have hone := hone ctx fEntry rc hmem hreported
    rwa [State.issued, hkernel, hcq, map_nil, append_nil, append_nil] at hone
  · intro ctx fEntry rc hmem hreported hissued
    have hin := h.issued.mem_iff.mp hissued
    rw [← hconsumed] at hin
    obtain ⟨⟨ctx, rc'⟩, he, rfl⟩ := mem_map.mp hin
    have hmem' := mem_entries.mp (hentries ▸ mem_append_left bad he)
    obtain ⟨rfl, rfl⟩ := submit_unique hdistinct hmem hmem'
    exact hreported (if_neg (hok _ he))

/-- In every interleaving every successful request is completed once and every failed one is left
alone exactly if the submit calls are orderly. -/
theorem once_iff (hrun : acts.foldlM step .start = some s) :
    Once acts s ↔ Orderly (acts.filterMap Act.entry) := by
  have hstart : State.start.Inv [] [] := ⟨rfl, .nil, rfl⟩
  obtain ⟨consumed, hinv⟩ := run_inv acts hstart hrun
  exact ⟨hinv.orderly hdistinct, hinv.once hdistinct⟩

end Distinct

/-- A read is consumed only together with the write behind it, then a submission fails. -/
def threeSubmits : List Act :=
  [.submit ⟨0, .read, 8, true⟩ true (some 0), .submit ⟨1, .write, 8, false⟩ true (some 2),
    .finish 1 8, .submit ⟨2, .read, 8, true⟩ true none, .complete, .finish 0 (-5), .complete]

theorem threeSubmits_once : ∃ s, threeSubmits.foldlM step .start = some s ∧ Once threeSubmits s ∧
    s.completed =
      [(⟨1, .write, 8, false⟩, .success, 8), (⟨0, .read, 8, true⟩, .errorIODevice, 0)] := by
  have hdistinct : (threeSubmits.filterMap Act.request).Nodup := by decide
  refine ⟨_, rfl, (once_iff hdistinct rfl).mpr ?_, rfl⟩
  exact ⟨[(⟨0, .read, 8, true⟩, some 0), (⟨1, .write, 8, false⟩, some 2)],
    [(⟨2, .read, 8, true⟩, none)], rfl, by decide, by decide, rfl⟩

/-- The first request fails, the second one takes it along. -/
theorem failed_completed : ∃ s, [.submit ⟨0, .write, 1, true⟩ true none,
      .submit ⟨1, .write, 1, true⟩ true (some 2), .finish 0 1, .complete].foldlM step .start =
        some s ∧
    reported true none = .errDiskIo ∧ ⟨0, .write, 1, true⟩ ∈ s.completed.map Prod.fst :=
  ⟨_, rfl, rfl, by decide⟩

end EseLinux.IoRing
