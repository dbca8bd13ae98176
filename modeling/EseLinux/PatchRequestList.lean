import Mathlib.Data.Fin.Tuple.Basic

/-!
The patch request list of `prl.cxx`: the page patches that are outstanding, in an array of slots
that are reused.  A request is issued with a dbtime, and an answer carries the dbtime of the
issuance that it answers.

What the list reads of the rest of the engine is an argument of the operation: the parameters of the
instance, the clock, the dbtime handed out, the results of the log, of the latch and of the page
validation.
-/

namespace EseLinux.PatchRequestList

open Function

def ifmpNil : Nat := 0x7fffffff
def pgnoNull : Nat := 0
def dbtimeNil : Nat := 0xffffffffffffffff

def jetErrSuccess : Int := 0
def jetErrBadLogSignature : Int := -530
def errTooManyPatchRequests : Int := -802
def jetErrInvalidParameter : Int := -1003
def jetErrReadVerifyFailure : Int := -1018
def jetErrDiskReadVerificationFailure : Int := -1021
def jetErrDiskIO : Int := -1022
def jetErrInvalidBufferSize : Int := -1047
def jetErrReadPgnoVerifyFailure : Int := -1118
def jetErrReadLostFlushVerifyFailure : Int := -1119
def jetErrFileSystemCorruption : Int := -1121

def fErrIsDbCorruption (err : Int) : Bool :=
  err = jetErrReadVerifyFailure || err = jetErrDiskReadVerificationFailure ||
    err = jetErrReadLostFlushVerifyFailure || err = jetErrFileSystemCorruption ||
    err = jetErrReadPgnoVerifyFailure

def fIsPatchableError (err : Int) : Bool := fErrIsDbCorruption err || err = jetErrDiskIO

structure PatchRequestId where
  ifmp : Nat
  pgno : Nat
  dbtime : Nat
  deriving DecidableEq, Repr

structure PatchRequest where
  ifmp : Nat
  pgnoRequest : Nat
  dbtimeOfPatchRequest : Nat
  ulTimeWhenRequestWasLogged : UInt64
  fRequestIsActive : Bool
  deriving DecidableEq, Repr

namespace PatchRequest

def null : PatchRequest := ⟨ifmpNil, pgnoNull, dbtimeNil, 0, false⟩

def ofPage (ifmp pgno : Nat) : PatchRequest := ⟨ifmp, pgno, dbtimeNil, 0, false⟩

variable (r : PatchRequest)

def id : PatchRequestId := ⟨r.ifmp, r.pgnoRequest, r.dbtimeOfPatchRequest⟩

def fRequestIsForThisInst (pinstFromIfmp : Nat → Nat) (pinst : Nat) : Bool :=
  r.fRequestIsActive && pinstFromIfmp r.ifmp = pinst

def fRequestIsForIfmp (ifmp : Nat) : Bool := r.fRequestIsActive && r.ifmp = ifmp

def fRequestIsForIfmpPgno (ifmp pgno : Nat) : Bool :=
  r.fRequestIsActive && r.fRequestIsForIfmp ifmp && r.pgnoRequest = pgno

def ulSecAgeOfRequest (ulUtilGetSeconds : UInt64) : UInt64 :=
  ulUtilGetSeconds - r.ulTimeWhenRequestWasLogged

def cancelRequest : PatchRequest :=
  if r.fRequestIsActive then { r with fRequestIsActive := false } else r

end PatchRequest

/-- What starting a request reads: the next dbtime, the results of logging it and of the rollover,
and the clock once it is logged. -/
structure StartEnv where
  dbtimeGet : Nat
  errLGPagePatchRequest : Int
  errLGForceLogRollover : Int
  ulUtilGetSeconds : UInt64

def StartEnv.errLogPatchRequest (env : StartEnv) : Int :=
  if env.errLGPagePatchRequest < jetErrSuccess then env.errLGPagePatchRequest
  else env.errLGForceLogRollover

def PatchRequest.errStartPatch (r : PatchRequest) (env : StartEnv) : Int × PatchRequest :=
  let r := { r with dbtimeOfPatchRequest := env.dbtimeGet }
  if env.errLogPatchRequest < jetErrSuccess then (env.errLogPatchRequest, r)
  else (env.errLogPatchRequest, { r with
    ulTimeWhenRequestWasLogged := env.ulUtilGetSeconds
    fRequestIsActive := true })

/-- The result and what the slot holds then: a null request, unless the request was logged. -/
def PatchRequest.errCreateRequest (ifmp pgno : Nat) (env : StartEnv) : Int × PatchRequest :=
  let (err, request) := (PatchRequest.ofPage ifmp pgno).errStartPatch env
  if err < jetErrSuccess then (err, PatchRequest.null) else (err, request)

/-- What answering a request reads: the size of a page, and what the validation says of an image. -/
structure PageEnv where
  cbPage : Nat
  errValidatePage : List UInt8 → Int

def PatchRequest.errValidatePatchArguments (r : PatchRequest) (env : PageEnv) (id : PatchRequestId)
    (data : List UInt8) : Int :=
  if r.id ≠ id then jetErrInvalidParameter
  else if data.length ≠ env.cbPage then jetErrInvalidBufferSize
  else env.errValidatePage data

def PatchRequest.errPatchPage (r : PatchRequest) (env : PageEnv) (id : PatchRequestId)
    (page data : List UInt8) : Int × PatchRequest × List UInt8 :=
  let err := r.errValidatePatchArguments env id data
  if err < jetErrSuccess then (err, r, page)
  else if r.fRequestIsActive then (err, { r with fRequestIsActive := false }, data)
  else (jetErrInvalidParameter, r, page)

def crequests : Nat := 256

structure Prl where
  rgrequests : Fin crequests → PatchRequest
  iprlMac : Int
  fHasAtLeastOneRequest : Bool

namespace Prl

def initial : Prl := ⟨fun _ => PatchRequest.null, -1, false⟩

def setRequest (p : Prl) (i : Fin crequests) (r : PatchRequest) : Prl :=
  { p with rgrequests := update p.rgrequests i r }

def indexOfRequest (p : Prl) (ifmp pgno : Nat) : Option (Fin crequests) :=
  Fin.find? fun i =>
    (p.rgrequests i).fRequestIsForIfmpPgno ifmp pgno && (p.rgrequests i).fRequestIsActive

def indexOfFreeRequest (p : Prl) : Option (Fin crequests) :=
  Fin.find? fun i => !(p.rgrequests i).fRequestIsActive

def iprlActiveMax (p : Prl) : Int :=
  match Fin.findRev? fun i => (p.rgrequests i).fRequestIsActive with
  | some i => (i.val : Int)
  | none => -1

def recalcPatchRequestListState (p : Prl) : Prl :=
  { p with
    iprlMac := p.iprlActiveMax
    fHasAtLeastOneRequest := decide (0 ≤ p.iprlActiveMax) }

def cancelPatchRequest (p : Prl) (ifmp pgno : Nat) : Prl :=
  if !p.fHasAtLeastOneRequest then p
  else (List.finRange crequests).foldl (fun q i =>
    if (i.val : Int) ≤ p.iprlMac ∧ (q.rgrequests i).fRequestIsForIfmpPgno ifmp pgno = true then
      (q.setRequest i (q.rgrequests i).cancelRequest).recalcPatchRequestListState
    else q) p

def cancelWhere (p : Prl) (f : PatchRequest → Bool) : Prl :=
  { p with
    rgrequests := fun i =>
      if f (p.rgrequests i) then (p.rgrequests i).cancelRequest else p.rgrequests i }

def termFmp (p : Prl) (fEnableExternalAutoHealing : Bool) (ifmp : Nat) : Prl :=
  if fEnableExternalAutoHealing then
    (p.cancelWhere fun r => r.fRequestIsForIfmp ifmp).recalcPatchRequestListState
  else p

def termInst (p : Prl) (fEnableExternalAutoHealing : Bool) (pinstFromIfmp : Nat → Nat)
    (pinst : Nat) : Prl :=
  if fEnableExternalAutoHealing then
    (p.cancelWhere fun r => r.fRequestIsForThisInst pinstFromIfmp pinst).recalcPatchRequestListState
  else p

def errCreateRequest (p : Prl) (iprl : Fin crequests) (ifmp pgno : Nat) (env : StartEnv) :
    Int × Prl :=
  let p := if p.iprlMac < (iprl.val : Int) then { p with iprlMac := (iprl.val : Int) } else p
  let (err, request) := PatchRequest.errCreateRequest ifmp pgno env
  let p := p.setRequest iprl request
  if err < jetErrSuccess then (err, p.recalcPatchRequestListState) else (err, p)

end Prl

/-- An issuance: the identifier that was logged, and whether logging it succeeded. -/
structure Issue where
  id : PatchRequestId
  fLogged : Bool
  deriving DecidableEq, Repr

structure RequestEnv where
  fEnableExternalAutoHealing : Bool
  ulUtilGetSeconds : UInt64
  patchRequestTimeout : UInt64
  start : StartEnv

def StartEnv.issue (env : StartEnv) (ifmp pgno : Nat) : Issue :=
  ⟨⟨ifmp, pgno, env.dbtimeGet⟩, decide (jetErrSuccess ≤ env.errLogPatchRequest)⟩

def Prl.errRequestPatch (p : Prl) (env : RequestEnv) (ifmp pgno : Nat) :
    Int × Prl × Option Issue :=
  if env.fEnableExternalAutoHealing then
    let p := { p with fHasAtLeastOneRequest := true }
    let create := fun i =>
      let (err, p') := p.errCreateRequest i ifmp pgno env.start
      (err, p', some (env.start.issue ifmp pgno))
    match p.indexOfRequest ifmp pgno with
    | some i =>
      if (p.rgrequests i).ulSecAgeOfRequest env.ulUtilGetSeconds ≤ env.patchRequestTimeout then
        (jetErrSuccess, p, none)
      else create i
    | none =>
      match p.indexOfFreeRequest with
      | none => (errTooManyPatchRequests, p, none)
      | some i => create i
  else (jetErrSuccess, p, none)

structure PagePatchToken where
  cbStruct : Nat
  dbtime : Nat
  signLog : List UInt8
  deriving DecidableEq, Repr

def cbPagePatchToken : Nat := 48

/-- An answer to a patch request, and what answering it reads: the signature of the log, the status
of the latch and the environment of the page. -/
structure Answer where
  ifmp : Nat
  pgno : Nat
  token : Option PagePatchToken
  cbToken : Nat
  data : Option (List UInt8)
  signLog : List UInt8
  errBFLatchStatus : Int
  env : PageEnv

/-- The errors that a patch repairs do not keep the page from being patched. -/
def Answer.errLatch (a : Answer) : Int :=
  if fIsPatchableError a.errBFLatchStatus then jetErrSuccess else a.errBFLatchStatus

/-- The checks of the arguments in order, then those of the signature and of the latch. -/
def Answer.errCheck (a : Answer) : Except Int (PagePatchToken × List UInt8) :=
  if a.ifmp = ifmpNil then .error jetErrInvalidParameter
  else if a.pgno = pgnoNull then .error jetErrInvalidParameter
  else match a.data, a.token with
    | none, _ => .error jetErrInvalidParameter
    | _, none => .error jetErrInvalidParameter
    | some data, some token =>
      if a.cbToken ≠ cbPagePatchToken then .error jetErrInvalidParameter
      else if token.cbStruct ≠ cbPagePatchToken then .error jetErrInvalidParameter
      else if token.signLog ≠ a.signLog then .error jetErrBadLogSignature
      else if a.errLatch < jetErrSuccess then .error a.errLatch
      else .ok (token, data)

/-- What an answer leaves: the result, the list, the page of the latch and whether it was
patched. -/
structure Patched where
  err : Int
  prl : Prl
  page : List UInt8
  fPatched : Bool

def Prl.errDoPatch (p : Prl) (a : Answer) (page : List UInt8) : Patched :=
  match a.errCheck with
  | .error err => ⟨err, p, page, false⟩
  | .ok (token, data) =>
    match p.indexOfRequest a.ifmp a.pgno with
    | none => ⟨a.errLatch, p, page, false⟩
    | some i =>
      let (err, r, page') :=
        (p.rgrequests i).errPatchPage a.env ⟨a.ifmp, a.pgno, token.dbtime⟩ page data
      let p := p.setRequest i r
      if err < jetErrSuccess then ⟨err, p, page', false⟩
      else ⟨err, p.recalcPatchRequestListState, page', true⟩

inductive Op where
  | request (env : RequestEnv) (ifmp pgno : Nat)
  | answer (a : Answer) (page : List UInt8)
  | cancel (ifmp pgno : Nat)
  | termFmp (fEnableExternalAutoHealing : Bool) (ifmp : Nat)
  | termInst (fEnableExternalAutoHealing : Bool) (pinstFromIfmp : Nat → Nat) (pinst : Nat)

def Prl.step (p : Prl) : Op → Prl × Option Issue
  | .request env ifmp pgno => (p.errRequestPatch env ifmp pgno).2
  | .answer a page => ((p.errDoPatch a page).prl, none)
  | .cancel ifmp pgno => (p.cancelPatchRequest ifmp pgno, none)
  | .termFmp fEnabled ifmp => (p.termFmp fEnabled ifmp, none)
  | .termInst fEnabled pinstFromIfmp pinst => (p.termInst fEnabled pinstFromIfmp pinst, none)

/-- The list after the operations, and what they issued, the latest first. -/
def run (ops : List Op) : Prl × List Issue :=
  ops.foldl (fun w op => ((w.1.step op).1, (w.1.step op).2.toList ++ w.2)) (Prl.initial, [])

def latestIssue (issues : List Issue) (ifmp pgno : Nat) : Option Issue :=
  issues.find? fun s => s.id.ifmp = ifmp && s.id.pgno = pgno

variable {p : Prl} {i j : Fin crequests} {ifmp pgno : Nat}

/-- Slot `i` holds an active request for the page. -/
def Prl.Requests (p : Prl) (ifmp pgno : Nat) (i : Fin crequests) : Prop :=
  (p.rgrequests i).fRequestIsActive = true ∧ (p.rgrequests i).ifmp = ifmp ∧
    (p.rgrequests i).pgnoRequest = pgno

structure Summarised (p : Prl) : Prop where
  le_mac : ∀ i, (p.rgrequests i).fRequestIsActive = true → (i.val : Int) ≤ p.iprlMac
  mac : p.iprlMac = -1 ∨ ∃ i, (p.rgrequests i).fRequestIsActive = true ∧ p.iprlMac = (i.val : Int)
  flag : p.fHasAtLeastOneRequest = true ↔ ∃ i, (p.rgrequests i).fRequestIsActive = true

def Unique (p : Prl) : Prop :=
  ∀ ifmp pgno i j, p.Requests ifmp pgno i → p.Requests ifmp pgno j → i = j

def Current (p : Prl) (issues : List Issue) : Prop :=
  ∀ i, (p.rgrequests i).fRequestIsActive = true →
    latestIssue issues (p.rgrequests i).ifmp (p.rgrequests i).pgnoRequest =
      some ⟨(p.rgrequests i).id, true⟩

theorem PatchRequest.fRequestIsForIfmpPgno_iff (r : PatchRequest) :
    r.fRequestIsForIfmpPgno ifmp pgno = true ↔
      r.fRequestIsActive = true ∧ r.ifmp = ifmp ∧ r.pgnoRequest = pgno := by
  simp only [fRequestIsForIfmpPgno, fRequestIsForIfmp, Bool.and_eq_true, decide_eq_true_eq]
  tauto

@[simp]
theorem PatchRequest.cancelRequest_inactive (r : PatchRequest) :
    r.cancelRequest.fRequestIsActive = false := by
  unfold cancelRequest
  split
  case isTrue => rfl
  case isFalse hnot => exact Bool.eq_false_of_not_eq_true hnot

theorem Prl.indexOfRequest_some (h : p.indexOfRequest ifmp pgno = some i) :
    p.Requests ifmp pgno i := by
  have hfound := Fin.eq_true_of_find?_eq_some h
  rw [Bool.and_eq_true, PatchRequest.fRequestIsForIfmpPgno_iff] at hfound
  exact hfound.1

theorem Prl.indexOfRequest_none (h : p.indexOfRequest ifmp pgno = none) (i : Fin crequests) :
    ¬ p.Requests ifmp pgno i := by
  intro hi
  have hnot := Fin.eq_false_of_find?_eq_none h i
  rw [(PatchRequest.fRequestIsForIfmpPgno_iff _).mpr hi, hi.1] at hnot
  cases hnot

theorem summarised_recalc (p : Prl) : Summarised p.recalcPatchRequestListState := by
  unfold Prl.recalcPatchRequestListState Prl.iprlActiveMax
  cases hfind : Fin.findRev? fun i => (p.rgrequests i).fRequestIsActive with
  | none =>
    have hnone := Fin.findRev?_eq_none_iff.mp hfind
    exact ⟨by simp [hnone], .inl rfl, by simp [hnone]⟩
  | some i =>
    obtain ⟨hi, hlast⟩ := Fin.findRev?_eq_some_iff.mp hfind
    refine ⟨fun j hj => Int.ofNat_le.mpr (not_lt.mp fun hlt => ?_), .inr ⟨i, hi, rfl⟩,
      iff_of_true (by simp) ⟨i, hi⟩⟩
    exact absurd hj (Bool.eq_false_iff.mp (hlast j hlt))

/-- The active requests of `q` are active requests of `p`. -/
def Fewer (q p : Prl) : Prop :=
  ∀ i, (q.rgrequests i).fRequestIsActive = true → q.rgrequests i = p.rgrequests i

variable {r : PatchRequest} {q : Prl}

theorem Unique.fewer (h : Unique p) (hfewer : Fewer q p) : Unique q := by
  intro ifmp pgno i j hi hj
  refine h ifmp pgno i j ?_ ?_
  · unfold Prl.Requests at hi ⊢
    rwa [← hfewer i hi.1]
  · unfold Prl.Requests at hj ⊢
    rwa [← hfewer j hj.1]

theorem Current.fewer {issues : List Issue} (h : Current p issues) (hfewer : Fewer q p) :
    Current q issues := by
  intro i hi
  have heq := hfewer i hi
  rw [heq] at hi ⊢
  exact h i hi

theorem Prl.recalc_rgrequests (p : Prl) :
    p.recalcPatchRequestListState.rgrequests = p.rgrequests := by
  dsimp only [recalcPatchRequestListState]

theorem Fewer.recalc (h : Fewer q p) : Fewer q.recalcPatchRequestListState p := by
  rwa [Fewer, Prl.recalc_rgrequests]

theorem Prl.setRequest_apply (p : Prl) (i j : Fin crequests) (r : PatchRequest) :
    (p.setRequest i r).rgrequests j = if j = i then r else p.rgrequests j :=
  update_apply p.rgrequests i r j

structure Right (p : Prl) (issues : List Issue) : Prop where
  unique : Unique p
  summarised : Summarised p
  current : Current p issues

variable {issues : List Issue}

theorem right_initial : Right Prl.initial [] where
  unique := fun _ _ _ _ hi => Bool.noConfusion hi.1
  summarised := ⟨fun _ hi => Bool.noConfusion hi, .inl rfl,
    iff_of_false Bool.false_ne_true fun ⟨_, hi⟩ => Bool.noConfusion hi⟩
  current := fun _ hi => Bool.noConfusion hi

theorem Right.recalc (h : Right p issues) (hfewer : Fewer q p) :
    Right q.recalcPatchRequestListState issues :=
  ⟨h.unique.fewer hfewer.recalc, summarised_recalc q, h.current.fewer hfewer.recalc⟩

theorem fewer_setRequest (h : r.fRequestIsActive = false) :
    Fewer (p.setRequest i r) p := by
  intro j hj
  rw [Prl.setRequest_apply] at hj ⊢
  split at hj
  case isTrue => simp_all
  case isFalse hji => exact if_neg hji

theorem fewer_cancelWhere (p : Prl) (f : PatchRequest → Bool) : Fewer (p.cancelWhere f) p := by
  intro j hj
  dsimp only [Prl.cancelWhere] at hj ⊢
  split at hj
  case isTrue => simp_all
  case isFalse hnot => exact if_neg hnot

theorem Right.cancelPatchRequest (h : Right p issues) (ifmp pgno : Nat) :
    Right (p.cancelPatchRequest ifmp pgno) issues := by
  unfold Prl.cancelPatchRequest
  split
  · exact h
  · refine List.foldlRecOn (motive := fun q => Right q issues) _ _ h fun q hq i _ => ?_
    split
    · exact hq.recalc (fewer_setRequest (q.rgrequests i).cancelRequest_inactive)
    · exact hq

theorem Right.cancelWhere (h : Right p issues) (f : PatchRequest → Bool) (fEnabled : Bool) :
    Right (if fEnabled then (p.cancelWhere f).recalcPatchRequestListState else p) issues := by
  split
  · exact h.recalc (fewer_cancelWhere p f)
  · exact h

theorem latestIssue_cons (s : Issue) : latestIssue (s :: issues) ifmp pgno =
    if s.id.ifmp = ifmp ∧ s.id.pgno = pgno then some s else latestIssue issues ifmp pgno := by
  unfold latestIssue
  by_cases h : s.id.ifmp = ifmp ∧ s.id.pgno = pgno
  · simp [h]
  · rw [List.find?_cons_of_neg (by simpa using h), if_neg h]

theorem PatchRequest.errCreateRequest_eq (ifmp pgno : Nat) (env : StartEnv) :
    PatchRequest.errCreateRequest ifmp pgno env =
      if env.errLogPatchRequest < jetErrSuccess then (env.errLogPatchRequest, PatchRequest.null)
      else (env.errLogPatchRequest, ⟨ifmp, pgno, env.dbtimeGet, env.ulUtilGetSeconds, true⟩) := by
  unfold PatchRequest.errCreateRequest PatchRequest.errStartPatch PatchRequest.ofPage
  by_cases hlt : env.errLogPatchRequest < jetErrSuccess
  · simp only [if_pos hlt]
  · simp only [if_neg hlt]

/-- The slot that a request for a page is created in: no other slot has a request for the page, and
no request for another page is overwritten. -/
structure SlotFor (p : Prl) (ifmp pgno : Nat) (i : Fin crequests) : Prop where
  only : ∀ j, p.Requests ifmp pgno j → j = i
  free : (p.rgrequests i).fRequestIsActive = true → p.Requests ifmp pgno i

theorem Unique.setRequest (h : Unique p) (hslot : SlotFor p ifmp pgno i)
    (hifmp : r.ifmp = ifmp) (hpgno : r.pgnoRequest = pgno) : Unique (p.setRequest i r) := by
  -- a slot that has a request for the same page as `i` is `i`
  have hsame : ∀ j, (p.rgrequests j).fRequestIsActive = true →
      (p.rgrequests j).ifmp = r.ifmp → (p.rgrequests j).pgnoRequest = r.pgnoRequest → j = i :=
    fun j hj hifmp' hpgno' => hslot.only j ⟨hj, hifmp'.trans hifmp, hpgno'.trans hpgno⟩
  intro ifmp' pgno' j k hj hk
  simp only [Prl.Requests, Prl.setRequest_apply] at hj hk
  split at hj
  case isTrue hji =>
    split at hk
    case isTrue hki => rw [hji, hki]
    case isFalse => rw [hji, hsame k] <;> simp [hj, hk]
  case isFalse hji =>
    split at hk
    case isTrue hki => rw [hki, hsame j] <;> simp [hj, hk]
    case isFalse => exact h ifmp' pgno' j k hj hk

theorem Current.setRequest {s : Issue} (h : Current p issues)
    (hslot : SlotFor p s.id.ifmp s.id.pgno i)
    (hr : r.fRequestIsActive = true → r.id = s.id ∧ s.fLogged = true) :
    Current (p.setRequest i r) (s :: issues) := by
  intro j hj
  rw [Prl.setRequest_apply] at hj ⊢
  rw [latestIssue_cons]
  split at hj
  case isTrue hji =>
    obtain ⟨hid, hlogged⟩ := hr hj
    simp only [if_pos hji, ← hid, PatchRequest.id, true_and, if_true]
    rw [← PatchRequest.id, hid, ← hlogged]
  case isFalse hji =>
    rw [if_neg hji, if_neg fun hpage => hji (hslot.only j ⟨hj, hpage.1.symm, hpage.2.symm⟩)]
    exact h j hj

theorem Summarised.setActive (h : Summarised p) (hr : r.fRequestIsActive = true) :
    Summarised ({ p with
      iprlMac := max p.iprlMac (i.val : Int)
      fHasAtLeastOneRequest := true }.setRequest i r) where
  le_mac := by
    intro j hj
    rw [Prl.setRequest_apply] at hj
    split at hj
    case isTrue hji => exact hji ▸ le_max_right _ _
    case isFalse => exact le_trans (h.le_mac j hj) (le_max_left _ _)
  mac := by
    rcases le_total p.iprlMac (i.val : Int) with hle | hle
    · exact .inr ⟨i, by rwa [Prl.setRequest_apply, if_pos rfl], max_eq_right hle⟩
    · rcases h.mac with hnone | ⟨k, hk, hkmac⟩
      · omega
      · -- the request at the highest index stays, or is the new one
        refine .inr ⟨k, ?_, (max_eq_left hle).trans hkmac⟩
        rw [Prl.setRequest_apply]
        split
        · exact hr
        · exact hk
  flag := iff_of_true rfl ⟨i, by rwa [Prl.setRequest_apply, if_pos rfl]⟩

theorem Prl.errCreateRequest_eq (p : Prl) (i : Fin crequests) (ifmp pgno : Nat) (env : StartEnv) :
    p.errCreateRequest i ifmp pgno env = if env.errLogPatchRequest < jetErrSuccess then
        (env.errLogPatchRequest, ({ p with iprlMac := max p.iprlMac (i.val : Int) }.setRequest i
          PatchRequest.null).recalcPatchRequestListState)
      else (env.errLogPatchRequest, { p with iprlMac := max p.iprlMac (i.val : Int) }.setRequest i
        ⟨ifmp, pgno, env.dbtimeGet, env.ulUtilGetSeconds, true⟩) := by
  have hmac : (if p.iprlMac < (i.val : Int) then { p with iprlMac := (i.val : Int) } else p) =
      { p with iprlMac := max p.iprlMac (i.val : Int) } := by
    split
    case isTrue hlt => rw [max_eq_right (le_of_lt hlt)]
    case isFalse hge => rw [max_eq_left (not_lt.mp hge)]
  unfold errCreateRequest
  rw [hmac, PatchRequest.errCreateRequest_eq]
  by_cases hlt : env.errLogPatchRequest < jetErrSuccess
  · simp only [if_pos hlt]
  · simp only [if_neg hlt]

theorem Right.errCreateRequest (h : Right p issues) (hslot : SlotFor p ifmp pgno i)
    (env : StartEnv) :
    Right ({ p with fHasAtLeastOneRequest := true }.errCreateRequest i ifmp pgno env).2
      (env.issue ifmp pgno :: issues) := by
  rw [Prl.errCreateRequest_eq]
  split
  case isTrue =>
    -- the slot is free, and the summary is recomputed
    refine ⟨h.unique.fewer (Fewer.recalc (fewer_setRequest rfl)), summarised_recalc _, ?_⟩
    have hcurrent := h.current.setRequest (r := PatchRequest.null) (s := env.issue ifmp pgno) hslot
      fun hactive => Bool.noConfusion hactive
    exact hcurrent.fewer (Fewer.recalc fun _ _ => rfl)
  case isFalse hlt =>
    refine ⟨?_, h.summarised.setActive rfl, ?_⟩
    · exact h.unique.setRequest hslot rfl rfl
    · exact h.current.setRequest hslot fun _ => ⟨rfl, decide_eq_true (not_lt.mp hlt)⟩

theorem Right.setFlag (h : Right p issues) (hi : (p.rgrequests i).fRequestIsActive = true) :
    Right { p with fHasAtLeastOneRequest := true } issues where
  unique := h.unique
  summarised := ⟨h.summarised.le_mac, h.summarised.mac, iff_of_true rfl ⟨i, hi⟩⟩
  current := h.current

theorem Right.errRequestPatch (h : Right p issues) (env : RequestEnv) (ifmp pgno : Nat) :
    Right (p.errRequestPatch env ifmp pgno).2.1
      ((p.errRequestPatch env ifmp pgno).2.2.toList ++ issues) := by
  have hindex : ({ p with fHasAtLeastOneRequest := true } : Prl).indexOfRequest ifmp pgno =
      p.indexOfRequest ifmp pgno := rfl
  have hfree : ({ p with fHasAtLeastOneRequest := true } : Prl).indexOfFreeRequest =
      p.indexOfFreeRequest := rfl
  unfold Prl.errRequestPatch
  split
  · dsimp only
    rw [hindex, hfree]
    cases hfind : p.indexOfRequest ifmp pgno with
    | some i =>
      have hrequests := Prl.indexOfRequest_some hfind
      dsimp only
      by_cases hold : (p.rgrequests i).ulSecAgeOfRequest env.ulUtilGetSeconds ≤
          env.patchRequestTimeout
      · rw [if_pos hold]
        exact h.setFlag hrequests.1
      · rw [if_neg hold]
        exact h.errCreateRequest ⟨fun j hj => h.unique ifmp pgno j i hj hrequests,
          fun _ => hrequests⟩ env.start
    | none =>
      have hnone := Prl.indexOfRequest_none hfind
      cases hslot : p.indexOfFreeRequest with
      | none =>
        -- all the slots are taken
        have hactive := Fin.eq_false_of_find?_eq_none hslot ⟨0, by decide⟩
        rw [Bool.not_eq_false'] at hactive
        exact h.setFlag hactive
      | some i =>
        have hinactive := Fin.eq_true_of_find?_eq_some hslot
        refine h.errCreateRequest ⟨fun j hj => absurd hj (hnone j), fun hactive => ?_⟩ env.start
        rw [hactive] at hinactive
        cases hinactive
  · exact h

theorem Answer.errCheck_ok {a : Answer} {token : PagePatchToken} {data : List UInt8}
    (h : a.errCheck = .ok (token, data)) : a.token = some token ∧ a.data = some data := by
  unfold Answer.errCheck at h
  grind

theorem PatchRequest.errPatchPage_cases (r : PatchRequest) (env : PageEnv) (id : PatchRequestId)
    (page data : List UInt8) :
    (∃ err < jetErrSuccess, r.errPatchPage env id page data = (err, r, page)) ∨
      (r.id = id ∧ r.fRequestIsActive = true ∧ ∃ err, jetErrSuccess ≤ err ∧
        r.errPatchPage env id page data = (err, { r with fRequestIsActive := false }, data)) := by
  unfold errPatchPage
  dsimp only
  split
  case isTrue hlt => exact .inl ⟨_, hlt, rfl⟩
  case isFalse hge =>
    split
    case isTrue hactive =>
      refine .inr ⟨?_, hactive, _, not_lt.mp hge, rfl⟩
      by_contra hne
      rw [errValidatePatchArguments, if_pos hne] at hge
      exact hge (by decide)
    case isFalse => exact .inl ⟨_, by decide, rfl⟩

theorem Prl.errDoPatch_cases (p : Prl) (a : Answer) (page : List UInt8) :
    ((p.errDoPatch a page).fPatched = false ∧ (p.errDoPatch a page).prl = p ∧
        (p.errDoPatch a page).page = page) ∨
      ∃ token data i, a.token = some token ∧ a.data = some data ∧ p.Requests a.ifmp a.pgno i ∧
        (p.rgrequests i).id = ⟨a.ifmp, a.pgno, token.dbtime⟩ ∧
        (p.errDoPatch a page).page = data ∧
        (p.errDoPatch a page).prl = (p.setRequest i { p.rgrequests i with
          fRequestIsActive := false }).recalcPatchRequestListState := by
  unfold errDoPatch
  cases hcheck : a.errCheck with
  | error err => exact .inl ⟨rfl, rfl, rfl⟩
  | ok checked =>
    obtain ⟨token, data⟩ := checked
    obtain ⟨htoken, hdata⟩ := Answer.errCheck_ok hcheck
    cases hfind : p.indexOfRequest a.ifmp a.pgno with
    | none => exact .inl ⟨rfl, rfl, rfl⟩
    | some i =>
      dsimp only
      rcases (p.rgrequests i).errPatchPage_cases a.env ⟨a.ifmp, a.pgno, token.dbtime⟩ page data
        with ⟨err, hlt, hpatch⟩ | ⟨hid, -, err, hge, hpatch⟩
      · rw [hpatch]
        dsimp only
        rw [if_pos hlt]
        refine .inl ⟨rfl, ?_, rfl⟩
        unfold setRequest
        rw [update_eq_self]
      · rw [hpatch]
        dsimp only
        rw [if_neg (not_lt.mpr hge)]
        exact .inr ⟨token, data, i, htoken, hdata, indexOfRequest_some hfind, hid, rfl, rfl⟩

theorem Right.errDoPatch (h : Right p issues) (a : Answer) (page : List UInt8) :
    Right (p.errDoPatch a page).prl issues := by
  rcases p.errDoPatch_cases a page with ⟨-, hprl, -⟩ | ⟨token, data, i, -, -, -, -, -, hprl⟩
  · rw [hprl]
    exact h
  · rw [hprl]
    exact h.recalc (fewer_setRequest rfl)

theorem Right.step (h : Right p issues) (op : Op) :
    Right (p.step op).1 ((p.step op).2.toList ++ issues) := by
  cases op with
  | request env ifmp pgno => exact h.errRequestPatch env ifmp pgno
  | answer a page => exact h.errDoPatch a page
  | cancel ifmp pgno => exact h.cancelPatchRequest ifmp pgno
  | termFmp fEnabled ifmp => exact h.cancelWhere _ fEnabled
  | termInst fEnabled pinstFromIfmp pinst => exact h.cancelWhere _ fEnabled

theorem right_run (ops : List Op) : Right (run ops).1 (run ops).2 :=
  List.foldlRecOn (motive := fun w : Prl × List Issue => Right w.1 w.2) _ _ right_initial
    fun _ hw op _ => hw.step op

/-- An answer changes the page only if there is an active request for it, with the dbtime of the
answer, which is that of the latest issuance; then the request is active no more. -/
def AnsweredOnce (p : Prl) (issues : List Issue) (a : Answer) (page : List UInt8) : Prop :=
  (p.errDoPatch a page).fPatched = true ∨ (p.errDoPatch a page).page ≠ page →
    ∃ token data i, a.token = some token ∧ a.data = some data ∧ p.Requests a.ifmp a.pgno i ∧
      (p.rgrequests i).dbtimeOfPatchRequest = token.dbtime ∧
      latestIssue issues a.ifmp a.pgno = some ⟨⟨a.ifmp, a.pgno, token.dbtime⟩, true⟩ ∧
      (p.errDoPatch a page).page = data ∧
      ∀ j, ¬ (p.errDoPatch a page).prl.Requests a.ifmp a.pgno j

theorem Right.answeredOnce (h : Right p issues) (a : Answer) (page : List UInt8) :
    AnsweredOnce p issues a page := by
  intro hpatched
  rcases p.errDoPatch_cases a page with
    ⟨hnot, -, hpage⟩ | ⟨token, data, i, htoken, hdata, hrequests, hid, hpage, hprl⟩
  · rcases hpatched with hpatched | hpatched
    · rw [hnot] at hpatched
      cases hpatched
    · exact absurd hpage hpatched
  · refine ⟨token, data, i, htoken, hdata, hrequests, congrArg PatchRequestId.dbtime hid, ?_, hpage,
      fun j hj => ?_⟩
    · have hlatest := h.current i hrequests.1
      rwa [hrequests.2.1, hrequests.2.2, hid] at hlatest
    · rw [hprl] at hj
      unfold Prl.Requests at hj
      rw [Prl.recalc_rgrequests, Prl.setRequest_apply] at hj
      split at hj
      case isTrue => exact Bool.noConfusion hj.1
      case isFalse hji => exact hji (h.unique a.ifmp a.pgno j i hj hrequests)

/-- After every operation of every sequence, no page has two active requests, the highest index and
the flag are those of the active requests, and an answer is applied only to the latest issuance. -/
theorem requests_answered_once (ops : List Op) :
    Unique (run ops).1 ∧ Summarised (run ops).1 ∧
      ∀ a page, AnsweredOnce (run ops).1 (run ops).2 a page :=
  have hright := right_run ops
  ⟨hright.unique, hright.summarised, hright.answeredOnce⟩

end EseLinux.PatchRequestList
