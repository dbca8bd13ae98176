import Mathlib.Algebra.Order.BigOperators.Group.List
import EseLinux.LoserTree
import EseLinux.SortedThin
import EseLinux.SortRun

/-!
Merging runs.  A tournament over the current records of the runs gives the least one; each round
reads the next record of the run the last champion came from.
-/

namespace EseLinux.ExternalSort

open LoserTree SortedThin Function Std List

/-- What a node of the merge tree points to: the sentinel before all records, a record, or the
sentinel behind all records. -/
inductive Contender where
  | negInf
  | srec (srec : Srec)
  | inf

def fBeats : Contender → Contender → Bool
  | .inf, _ => false
  | _, .negInf => false
  | _, .inf => true
  | .negInf, _ => true
  | .srec loser, .srec champ => isortiCmpKeyData loser champ = .lt

structure Flags where
  fRemoveDuplicateKey : Bool
  fRemoveDuplicateKeyData : Bool

def fSORTIDuplicate (flags : Flags) (srec srec' : Srec) : Bool :=
  if flags.fRemoveDuplicateKey then isortiCmpKey srec srec' = .eq
  else if flags.fRemoveDuplicateKeyData then isortiCmpKeyData srec srec' = .eq
  else false

structure Merge where
  crun : Nat
  rgmtnode : Nat → Entry Contender
  rgprcb : Nat → Rcb

def Merge.champ (mrg : Merge) : Contender := (mrg.rgmtnode 0).value

def errSORTIMergeStart (runs : List Run) : Merge where
  crun := runs.length
  rgmtnode irun := ⟨.negInf, irun⟩
  rgprcb irun := errSORTIRunOpen (runs.getD irun ⟨fun _ _ => 0, 0⟩)

def contenderOf : Option Srec → Contender
  | none => .inf
  | some srec => .srec srec

section Model

variable (cbFree : Nat) (flags : Flags)

/-- The next record of the last champion's run comes in at the bottom of the tree. -/
def errSORTIMergeNextChamp (mrg : Merge) : Merge :=
  let irun := (mrg.rgmtnode 0).src
  let r := errSORTIRunNext cbFree (mrg.rgprcb irun)
  { mrg with
    rgmtnode := replace fBeats mrg.crun mrg.rgmtnode (contenderOf r.1)
    rgprcb := update mrg.rgprcb irun r.2 }

def Merge.rounds (mrg : Merge) : Nat :=
  ((range mrg.crun).map fun irun => (mrg.rgprcb irun).cbRemaining + 1).sum + 1

/-- Reads past the sentinels the tree begins with.  A result `none` of this and the next loop is
that they did not end within the rounds given. -/
def mergeFirstLoop : Nat → Merge → Option (Option Srec × Merge)
  | 0, _ => none
  | rounds + 1, mrg =>
    match mrg.champ with
    | .srec srec => some (some srec, mrg)
    | .inf => some (none, mrg)
    | .negInf =>
      match (errSORTIMergeNextChamp cbFree mrg).champ with
      | .inf => some (none, errSORTIMergeNextChamp cbFree mrg)
      | _ => mergeFirstLoop rounds (errSORTIMergeNextChamp cbFree mrg)

def mergeNextLoop : Nat → Merge → Option (Option Srec × Merge)
  | 0, _ => none
  | rounds + 1, mrg =>
    match mrg.champ, (errSORTIMergeNextChamp cbFree mrg).champ with
    | _, .inf => some (none, errSORTIMergeNextChamp cbFree mrg)
    | .srec last, .srec srec =>
      if fSORTIDuplicate flags srec last then
        mergeNextLoop rounds (errSORTIMergeNextChamp cbFree mrg)
      else some (some srec, errSORTIMergeNextChamp cbFree mrg)
    | _, _ => none

def errSORTIMergeNext (mrg : Merge) : Option (Option Srec × Merge) :=
  match mrg.champ with
  | .negInf => mergeFirstLoop cbFree (mrg.crun + 1) mrg
  | _ => mergeNextLoop cbFree flags mrg.rounds mrg

def Yields : Merge → List Srec → Prop
  | mrg, [] => ∃ mrg', errSORTIMergeNext cbFree flags mrg = some (none, mrg')
  | mrg, srec :: srecs =>
    ∃ mrg', errSORTIMergeNext cbFree flags mrg = some (some srec, mrg') ∧ Yields mrg' srecs

end Model

theorem not_beats_iff (srec srec' : Srec) :
    fBeats (.srec srec) (.srec srec') = false ↔ (isortiCmpKeyData srec' srec).isLE = true := by
  simp only [fBeats, decide_eq_false_iff_not]
  rw [Ordering.isLE_iff_ne_gt]
  exact not_congr OrientedCmp.gt_iff_lt.symm

theorem fBeats_orders : Orders fBeats .negInf where
  trans {x y z} hyx hzy := by
    rcases x with _ | x | _
    · cases z <;> rfl
    · rcases z with _ | z | _
      · rcases y with _ | y | _
        · exact hyx
        · exact hzy
        · exact hzy
      · rcases y with _ | y | _
        · cases hyx
        · rw [not_beats_iff] at hyx hzy ⊢
          exact TransCmp.isLE_trans hyx hzy
        · cases hzy
      · rfl
    · rcases y with _ | y | _
      · cases hyx
      · cases hyx
      · rcases z with _ | z | _
        · cases hzy
        · cases hzy
        · rfl
  asymm {x y} h := by
    rcases x with _ | x | _ <;> rcases y with _ | y | _
    case srec.srec =>
      rw [not_beats_iff]
      have hlt : isortiCmpKeyData x y = .lt := of_decide_eq_true h
      rw [hlt]
      rfl
    all_goals first | rfl | cases h
  least x := by cases x <;> rfl
  sole {x} h := by
    cases x with
    | negInf => rfl
    | srec srec => cases h
    | inf => cases h

variable {srec : Srec}

theorem isortiCmpKey_eq_eq {srec' : Srec} :
    isortiCmpKey srec srec' = .eq ↔ srec.key = srec'.key := by
  rw [isortiCmpKey, KeyOrder.cmpKey_eq_compare]
  exact LawfulEqOrd.compare_eq_iff_eq

theorem isLE_key {srec' : Srec} (h : (isortiCmpKeyData srec srec').isLE = true) :
    (compare srec.key srec'.key).isLE = true := by
  rw [isortiCmpKeyData, isortiCmpKey, KeyOrder.cmpKey_eq_compare] at h
  rcases hcmp : compare srec.key srec'.key with _ | _ | _
  · rfl
  · rfl
  · rw [hcmp] at h
    cases h

theorem classes_duplicate (flags : Flags) : Classes isortiCmpKeyData (fSORTIDuplicate flags) := by
  by_cases hkey : flags.fRemoveDuplicateKey = true
  · apply classes_of_value (f := Srec.key)
    · intro x y
      rw [fSORTIDuplicate, if_pos hkey, decide_eq_true_iff, isortiCmpKey_eq_eq]
    · intro x y z hxy hyz hzx
      have hle := isLE_key hyz
      rw [hzx] at hle
      exact LawfulEqOrd.eq_of_compare (OrientedCmp.isLE_antisymm hle (isLE_key hxy))
  · by_cases hdata : flags.fRemoveDuplicateKeyData = true
    · apply classes_of_value (f := id)
      · intro x y
        rw [fSORTIDuplicate, if_neg hkey, if_pos hdata, decide_eq_true_iff]
        exact LawfulEqCmp.compare_eq_iff_eq
      · intro x y z hxy hyz hzx
        rw [show z = x from hzx] at hyz
        exact LawfulEqCmp.eq_of_compare (OrientedCmp.isLE_antisymm hyz hxy)
    · have hnone : fSORTIDuplicate flags = fun _ _ => false := by
        funext x y
        rw [fSORTIDuplicate, if_neg hkey, if_neg hdata]
      rw [hnone]
      exact ⟨fun h => h, fun h _ => h, fun _ _ h => h⟩

/-- A run's part in a merge, from its current contender: the records it has yet to give. -/
inductive Gives (cbFree : Nat) (rcb : Rcb) : Contender → List Srec → Prop
  | unread {srecs : List Srec} (h : rcb.Reads cbFree srecs) : Gives cbFree rcb .negInf srecs
  | current (srec : Srec) {srecs : List Srec} (h : rcb.Reads cbFree srecs) :
      Gives cbFree rcb (.srec srec) (srec :: srecs)
  | ended (h : rcb.Reads cbFree []) : Gives cbFree rcb .inf []

def Fits (cbFree : Nat) (srecs : List Srec) : Prop :=
  ∀ srec ∈ srecs, srec.cbRec ≤ cbFree ∧ srec.cbRec < 65536

/-- A merge in which run `irun` takes part with the contender `cur irun` and has the records
`pend irun` to give. -/
structure Merging (cbFree : Nat) (mrg : Merge) (cur : Nat → Contender) (pend : Nat → List Srec) :
    Prop where
  crun : 1 < mrg.crun
  valid : Valid fBeats .negInf mrg.crun cur mrg.rgmtnode
  gives : ∀ irun < mrg.crun, Gives cbFree (mrg.rgprcb irun) (cur irun) (pend irun)
  sorted : ∀ irun < mrg.crun, Ascending isortiCmpKeyData (pend irun)
  fits : ∀ irun < mrg.crun, Fits cbFree (pend irun)

section Correct

variable {cbFree : Nat} {flags : Flags} {mrg : Merge} {cur : Nat → Contender}
  {pend : Nat → List Srec}

variable {srecs : List Srec}

theorem Rcb.Reads.gives_next {rcb : Rcb} (h : rcb.Reads cbFree srecs) (hfits : Fits cbFree srecs) :
    Gives cbFree (errSORTIRunNext cbFree rcb).2 (contenderOf (errSORTIRunNext cbFree rcb).1)
        srecs ∧ contenderOf (errSORTIRunNext cbFree rcb).1 ≠ .negInf := by
  cases srecs with
  | nil =>
    rw [h.next_nil]
    exact ⟨.ended h, nofun⟩
  | cons srec srecs =>
    obtain ⟨hread, hrest⟩ := h.next_cons (hfits srec mem_cons_self).1
      (hfits srec mem_cons_self).2
    rw [hread]
    exact ⟨.current srec hrest, nofun⟩

theorem Merging.nextChamp (h : Merging cbFree mrg cur pend)
    (hreads : (mrg.rgprcb (mrg.rgmtnode 0).src).Reads cbFree srecs)
    (hsorted : Ascending isortiCmpKeyData srecs) (hfits : Fits cbFree srecs) :
    Merging cbFree (errSORTIMergeNextChamp cbFree mrg)
      (update cur (mrg.rgmtnode 0).src
        (contenderOf (errSORTIRunNext cbFree (mrg.rgprcb (mrg.rgmtnode 0).src)).1))
      (update pend (mrg.rgmtnode 0).src srecs) := by
  have hnext := (hreads.gives_next hfits).1
  refine ⟨h.crun, h.valid.replace fBeats_orders h.crun _, ?_, ?_, ?_⟩
  · intro irun hirun
    simp only [errSORTIMergeNextChamp]
    by_cases hsrc : irun = (mrg.rgmtnode 0).src
    · rw [hsrc, update_self, update_self, update_self]
      exact hnext
    · rw [update_of_ne hsrc, update_of_ne hsrc, update_of_ne hsrc]
      exact h.gives irun hirun
  · exact (forall_update_iff pend fun irun l => irun < mrg.crun → Ascending isortiCmpKeyData l).mpr
      ⟨fun _ => hsorted, fun irun _ => h.sorted irun⟩
  · exact (forall_update_iff pend fun irun l => irun < mrg.crun → Fits cbFree l).mpr
      ⟨fun _ => hfits, fun irun _ => h.fits irun⟩

def pending (mrg : Merge) (pend : Nat → List Srec) : List Srec :=
  (range mrg.crun).flatMap pend

theorem mem_pending : srec ∈ pending mrg pend ↔ ∃ irun < mrg.crun, srec ∈ pend irun := by
  simp [pending]

theorem Merging.champ_cases (h : Merging cbFree mrg cur pend) :
    (mrg.rgmtnode 0).src < mrg.crun ∧ mrg.champ = cur (mrg.rgmtnode 0).src ∧ ((mrg.champ = .negInf ∧
          (mrg.rgprcb (mrg.rgmtnode 0).src).Reads cbFree (pend (mrg.rgmtnode 0).src)) ∨
        (∃ srec srecs, mrg.champ = .srec srec ∧ pend (mrg.rgmtnode 0).src = srec :: srecs ∧
          (mrg.rgprcb (mrg.rgmtnode 0).src).Reads cbFree srecs ∧
          ∀ srec' ∈ pending mrg pend, (isortiCmpKeyData srec srec').isLE = true) ∨
        (mrg.champ = .inf ∧ pending mrg pend = [] ∧
          (mrg.rgprcb (mrg.rgmtnode 0).src).Reads cbFree [])) := by
  have hgives := h.gives
  have hvalid := h.valid
  have hsrc := hvalid.carries.src_lt 0 (Nat.lt_trans Nat.zero_lt_one h.crun)
  have hvalue : mrg.champ = cur (mrg.rgmtnode 0).src :=
    hvalid.carries.value 0 (Nat.lt_trans Nat.zero_lt_one h.crun)
  have hle : ∀ irun < mrg.crun, fBeats (cur irun) mrg.champ = false :=
    fun irun hirun => hvalid.champ_le fBeats_orders hirun
  refine ⟨hsrc, hvalue, ?_⟩
  have hchamp := hgives _ hsrc
  rw [← hvalue] at hchamp
  generalize hc : mrg.champ = champ at *
  generalize hp : pend (mrg.rgmtnode 0).src = srecs at *
  cases hchamp with
  | unread hreads => exact .inl ⟨rfl, hreads⟩
  | current srec hreads =>
    refine .inr (.inl ⟨srec, _, rfl, rfl, hreads, ?_⟩)
    intro srec' hmem
    obtain ⟨irun, hirun, hmem⟩ := mem_pending.mp hmem
    have hbeats := hle irun hirun
    have hrun := hgives irun hirun
    have hasc := h.sorted irun hirun
    generalize cur irun = c at *
    generalize pend irun = l at *
    cases hrun with
    | unread => cases hbeats
    | current first hfirst =>
      rw [not_beats_iff] at hbeats
      rcases mem_cons.mp hmem with rfl | hmem
      · exact hbeats
      · exact TransCmp.isLE_trans hbeats ((pairwise_cons.mp hasc).1 srec' hmem)
    | ended => cases hmem
  | ended hreads =>
    refine .inr (.inr ⟨rfl, ?_, hreads⟩)
    apply eq_nil_iff_forall_not_mem.mpr
    intro srec' hmem
    obtain ⟨irun, hirun, hmem⟩ := mem_pending.mp hmem
    have hbeats := hle irun hirun
    have hrun := hgives irun hirun
    generalize cur irun = c at *
    generalize pend irun = l at *
    cases hrun with
    | unread => cases hbeats
    | current first hfirst => cases hbeats
    | ended => cases hmem

theorem Merging.champ_srec (h : Merging cbFree mrg cur pend) (hchamp : mrg.champ = .srec srec) :
    (mrg.rgmtnode 0).src < mrg.crun ∧ ∃ srecs, pend (mrg.rgmtnode 0).src = srec :: srecs ∧
      (mrg.rgprcb (mrg.rgmtnode 0).src).Reads cbFree srecs ∧
      ∀ srec' ∈ pending mrg pend, (isortiCmpKeyData srec srec').isLE = true := by
  obtain ⟨hsrc, -, ⟨hneg, -⟩ | ⟨first, srecs, hfirst, hrest⟩ | ⟨hinf, -⟩⟩ := h.champ_cases
  · rw [hneg] at hchamp
    cases hchamp
  · rw [hfirst] at hchamp
    cases hchamp
    exact ⟨hsrc, srecs, hrest⟩
  · rw [hinf] at hchamp
    cases hchamp

theorem Merging.champ_next_ne (h : Merging cbFree mrg cur pend)
    (hchamp : mrg.champ = .srec srec) {c : Contender} {mrg' : Merge} {pend' : Nat → List Srec}
    (h' : Merging cbFree mrg' (update cur (mrg.rgmtnode 0).src c) pend')
    (hcrun : mrg'.crun = mrg.crun) (hc : c ≠ .negInf) : mrg'.champ ≠ .negInf := by
  obtain ⟨hsrc, hvalue, -⟩ := h'.champ_cases
  rw [hvalue]
  by_cases hat : (mrg'.rgmtnode 0).src = (mrg.rgmtnode 0).src
  · rw [hat, update_self]
    exact hc
  · rw [update_of_ne hat]
    intro hneg
    have hle := h.valid.champ_le fBeats_orders (hcrun ▸ hsrc)
    rw [← Merge.champ, hchamp, hneg] at hle
    cases hle

def unread (crun : Nat) (cur : Nat → Contender) : Finset Nat :=
  (Finset.range crun).filter fun irun => fBeats .negInf (cur irun) = false

theorem unread_update_lt {crun irun : Nat} (hirun : irun < crun) (hcur : cur irun = .negInf)
    {c : Contender} (hc : c ≠ .negInf) :
    (unread crun (update cur irun c)).card < (unread crun cur).card := by
  apply Finset.card_lt_card
  rw [Finset.ssubset_iff_of_subset]
  · refine ⟨irun, ?_, ?_⟩
    · rw [unread, Finset.mem_filter, hcur]
      exact ⟨Finset.mem_range.mpr hirun, rfl⟩
    · rw [unread, Finset.mem_filter, update_self]
      rintro ⟨-, hleast⟩
      exact hc (fBeats_orders.sole hleast)
  · intro j hj
    rw [unread, Finset.mem_filter] at hj ⊢
    refine ⟨hj.1, ?_⟩
    by_cases hji : j = irun
    · rw [hji, hcur]
      rfl
    · have hleast := hj.2
      rwa [update_of_ne hji] at hleast

def recordOf : Contender → Option Srec
  | .srec srec => some srec
  | _ => none

theorem Merging.mergeFirst (h : Merging cbFree mrg cur pend) {rounds : Nat}
    (hrounds : (unread mrg.crun cur).card < rounds) :
    ∃ mrg' cur', Merging cbFree mrg' cur' pend ∧ mrg'.crun = mrg.crun ∧ mrg'.champ ≠ .negInf ∧
      mergeFirstLoop cbFree rounds mrg = some (recordOf mrg'.champ, mrg') := by
  induction rounds generalizing mrg cur with
  | zero => omega
  | succ rounds ih =>
    rw [mergeFirstLoop]
    obtain ⟨hsrc, hvalue, ⟨hchamp, hreads⟩ | ⟨srec, srecs, hchamp, -⟩ | ⟨hchamp, -⟩⟩ :=
      h.champ_cases
    · have hnext := h.nextChamp hreads (h.sorted _ hsrc) (h.fits _ hsrc)
      rw [update_eq_self] at hnext
      have hlt := unread_update_lt hsrc (hvalue.symm.trans hchamp)
        (hreads.gives_next (h.fits _ hsrc)).2
      have hrest := ih hnext (hlt.trans_le (Nat.le_of_lt_succ hrounds))
      rw [hchamp]
      dsimp only
      rcases hc : (errSORTIMergeNextChamp cbFree mrg).champ with _ | srec | _
      · exact hrest
      · exact hrest
      · refine ⟨_, _, hnext, rfl, ?_, ?_⟩
        · rw [hc]
          nofun
        · simp only [hc, recordOf]
    · refine ⟨mrg, cur, h, rfl, ?_, ?_⟩ <;> rw [hchamp]
      · nofun
      · rfl
    · refine ⟨mrg, cur, h, rfl, ?_, ?_⟩ <;> rw [hchamp]
      · nofun
      · rfl

theorem flatMap_update_perm {n i : Nat} (hi : i < n) (hpend : pend i = srec :: srecs) :
    ((range n).flatMap pend).Perm
      (srec :: (range n).flatMap (update pend i srecs)) := by
  induction n with
  | zero => omega
  | succ n ih =>
    rw [range_succ, flatMap_append, flatMap_append, flatMap_singleton,
      flatMap_singleton]
    by_cases hin : i = n
    · have hsame : (range n).flatMap (update pend i srecs) = (range n).flatMap pend := by
        apply flatMap_congr
        intro j hj
        rw [update_of_ne]
        have := mem_range.mp hj
        omega
      rw [hsame, ← hin, update_self, hpend]
      exact perm_middle
    · rw [update_of_ne (Ne.symm hin)]
      exact (ih (by omega)).append_right _

theorem Merging.length_pending_lt (h : Merging cbFree mrg cur pend) :
    (pending mrg pend).length < mrg.rounds := by
  have hstream (srecs : List Srec) : srecs.length ≤ (stream srecs).length := by
    induction srecs with
    | nil => exact le_rfl
    | cons srec srecs ih =>
      rw [stream_cons, length_append, length_cons, srec.bytes_length]
      unfold Srec.cbRec cbSrecHeader
      omega
  rw [pending, length_flatMap, Merge.rounds, Nat.lt_add_one_iff]
  apply sum_le_sum
  intro irun hirun
  have hgives := h.gives irun (mem_range.mp hirun)
  generalize cur irun = c at hgives
  generalize pend irun = srecs at hgives
  cases hgives with
  | unread hreads =>
    rw [hreads.cbRemaining]
    exact (hstream _).trans (Nat.le_succ _)
  | current srec hreads =>
    rw [hreads.cbRemaining, length_cons]
    exact Nat.succ_le_succ (hstream _)
  | ended => exact Nat.zero_le _

def LoopYields (cbFree : Nat) (flags : Flags) (rounds : Nat) (mrg : Merge) : List Srec → Prop
  | [] => ∃ mrg', mergeNextLoop cbFree flags rounds mrg = some (none, mrg')
  | srec :: srecs => ∃ mrg', mergeNextLoop cbFree flags rounds mrg = some (some srec, mrg') ∧
      Yields cbFree flags mrg' srecs

theorem yields_of_loopYields (hchamp : mrg.champ ≠ .negInf)
    (h : LoopYields cbFree flags mrg.rounds mrg srecs) : Yields cbFree flags mrg srecs := by
  have heq : errSORTIMergeNext cbFree flags mrg = mergeNextLoop cbFree flags mrg.rounds mrg := by
    rw [errSORTIMergeNext]
    rcases hc : mrg.champ with _ | srec | _
    · exact absurd hc hchamp
    · rfl
    · rfl
  cases srecs with
  | nil =>
    rw [Yields, heq]
    exact h
  | cons srec srecs =>
    rw [Yields, heq]
    exact h

theorem Merging.loopYields (h : Merging cbFree mrg cur pend) (flags : Flags)
    (hchamp : mrg.champ = .srec srec) : ∃ srecs, Ascending isortiCmpKeyData (srec :: srecs) ∧
      (pending mrg pend).Perm (srec :: srecs) ∧
      ∀ rounds, (pending mrg pend).length ≤ rounds →
        LoopYields cbFree flags rounds mrg (thinFrom (fSORTIDuplicate flags) srec srecs) := by
  induction hn : (pending mrg pend).length generalizing mrg cur pend srec with
  | zero =>
    obtain ⟨hsrc, tail, hpend, -⟩ := h.champ_srec hchamp
    have hmem : srec ∈ pending mrg pend :=
      mem_pending.mpr ⟨_, hsrc, by rw [hpend]; exact mem_cons_self⟩
    rw [eq_nil_of_length_eq_zero hn] at hmem
    cases hmem
  | succ n ih =>
    obtain ⟨hsrc, tail, hpend, hreads, hleast⟩ := h.champ_srec hchamp
    have hasc := h.sorted _ hsrc
    have hfits := h.fits _ hsrc
    rw [hpend] at hasc hfits
    have htail : Fits cbFree tail := fun srec' hmem => hfits srec' (mem_cons_of_mem _ hmem)
    have hnext := h.nextChamp hreads (pairwise_cons.mp hasc).2 htail
    have hne := h.champ_next_ne hchamp hnext rfl (hreads.gives_next htail).2
    have hperm : (pending mrg pend).Perm (srec :: pending (errSORTIMergeNextChamp cbFree mrg)
        (update pend (mrg.rgmtnode 0).src tail)) := flatMap_update_perm hsrc hpend
    have hlen := hperm.length_eq
    rw [hn, length_cons, Nat.succ_inj] at hlen
    rcases hc : (errSORTIMergeNextChamp cbFree mrg).champ with _ | srec' | _
    · exact absurd hc hne
    · obtain ⟨srecs, hsorted, hrest, hyields⟩ := ih hnext hc hlen.symm
      refine ⟨srec' :: srecs, pairwise_cons.mpr ⟨?_, hsorted⟩,
        hperm.trans (hrest.cons srec), ?_⟩
      · intro later hmem
        exact hleast later ((hperm.trans (hrest.cons srec)).mem_iff.mpr
          (mem_cons_of_mem _ hmem))
      · intro rounds hrounds
        obtain ⟨rounds, rfl⟩ : ∃ r, rounds = r + 1 := ⟨rounds - 1, by omega⟩
        rw [thinFrom]
        have hloop : mergeNextLoop cbFree flags (rounds + 1) mrg =
            if fSORTIDuplicate flags srec' srec then
              mergeNextLoop cbFree flags rounds (errSORTIMergeNextChamp cbFree mrg)
            else some (some srec', errSORTIMergeNextChamp cbFree mrg) := by
          simp only [mergeNextLoop, hchamp, hc]
        split
        · rename_i hdup
          rw [if_pos hdup] at hloop
          have hsame := hyields rounds (by omega)
          cases hthin : thinFrom (fSORTIDuplicate flags) srec' srecs with
          | nil =>
            rw [hthin] at hsame
            rw [LoopYields, hloop]
            exact hsame
          | cons x xs =>
            rw [hthin] at hsame
            rw [LoopYields, hloop]
            exact hsame
        · rename_i hdup
          rw [if_neg hdup] at hloop
          refine ⟨_, hloop, yields_of_loopYields hne (hyields _ ?_)⟩
          rw [hlen]
          exact hnext.length_pending_lt.le
    · obtain ⟨-, -, ⟨hneg, -⟩ | ⟨first, srecs, hfirst, -⟩ | ⟨-, hempty, -⟩⟩ := hnext.champ_cases
      · exact absurd hneg hne
      · rw [hc] at hfirst
        cases hfirst
      · rw [hempty] at hperm
        refine ⟨[], pairwise_singleton _ _, hperm, ?_⟩
        intro rounds hrounds
        obtain ⟨rounds, rfl⟩ : ∃ r, rounds = r + 1 := ⟨rounds - 1, by omega⟩
        refine ⟨errSORTIMergeNextChamp cbFree mrg, ?_⟩
        simp only [mergeNextLoop, hc]

def HoldsAll (cbFree : Nat) (runs : List Run) (lists : List (List Srec)) : Prop :=
  Forall₂ (fun run srecs => run.Holds cbFree srecs ∧ Ascending isortiCmpKeyData srecs ∧
    Fits cbFree srecs) runs lists

theorem flatMap_getD_range {β : Type*} (lists : List (List β)) :
    (range lists.length).flatMap (fun irun => lists.getD irun []) = lists.flatten := by
  rw [flatMap_def]
  congr 1
  apply ext_getElem
  · simp
  · intro i hi hi'
    simp [hi']

theorem merging_start {runs : List Run} {lists : List (List Srec)}
    (h : HoldsAll cbFree runs lists) (hcrun : 1 < runs.length) :
    Merging cbFree (errSORTIMergeStart runs) (fun _ => .negInf) fun irun => lists.getD irun [] := by
  have hlen := h.length_eq
  have hall : ∀ irun < runs.length,
      (runs.getD irun ⟨fun _ _ => 0, 0⟩).Holds cbFree (lists.getD irun []) ∧
        Ascending isortiCmpKeyData (lists.getD irun []) ∧ Fits cbFree (lists.getD irun []) := by
    intro irun hirun
    rw [getD_eq_getElem _ _ hirun, getD_eq_getElem _ _ (hlen ▸ hirun)]
    exact (forall₂_iff_get.mp h).2 irun hirun (hlen ▸ hirun)
  exact {
    crun := hcrun
    valid := valid_init fBeats_orders _
    gives := fun irun hirun =>
      .unread ⟨(hall irun hirun).1.cbRun, 0, .start, (hall irun hirun).1.bytes⟩
    sorted := fun irun hirun => (hall irun hirun).2.1
    fits := fun irun hirun => (hall irun hirun).2.2 }

theorem mergeStart_yields (flags : Flags) {runs : List Run} {lists : List (List Srec)}
    (h : HoldsAll cbFree runs lists) (hcrun : 1 < runs.length) :
    ∃ srecs, Ascending isortiCmpKeyData srecs ∧ srecs.Perm lists.flatten ∧
      Yields cbFree flags (errSORTIMergeStart runs) (thin (fSORTIDuplicate flags) srecs) := by
  have hstart := merging_start h hcrun
  have hunread : (unread runs.length fun _ => Contender.negInf).card < runs.length + 1 := by
    have hle := Finset.card_filter_le (Finset.range runs.length)
      fun irun => fBeats .negInf ((fun _ => Contender.negInf) irun) = false
    rw [Finset.card_range] at hle
    exact Nat.lt_succ_of_le hle
  have hall :
      pending (errSORTIMergeStart runs) (fun irun => lists.getD irun []) = lists.flatten := by
    rw [pending, ← flatMap_getD_range, ← h.length_eq]
    rfl
  obtain ⟨mrg, cur, hmrg, hsame, hne, hfirst⟩ := hstart.mergeFirst hunread
  have hpending : pending mrg (fun irun => lists.getD irun []) = lists.flatten := by
    rw [← hall, pending, hsame]
    rfl
  have hnext : errSORTIMergeNext cbFree flags (errSORTIMergeStart runs) =
      some (recordOf mrg.champ, mrg) := hfirst
  rcases hc : mrg.champ with _ | srec | _
  · exact absurd hc hne
  · obtain ⟨srecs, hsorted, hperm, hyields⟩ := hmrg.loopYields flags hc
    rw [hpending] at hperm
    refine ⟨srec :: srecs, hsorted, hperm.symm, mrg, ?_, ?_⟩
    · rw [hnext, hc]
      rfl
    · exact yields_of_loopYields hne (hyields _ hmrg.length_pending_lt.le)
  · obtain ⟨-, -, ⟨hneg, -⟩ | ⟨first, srecs, hsrec, -⟩ | ⟨-, hempty, -⟩⟩ := hmrg.champ_cases
    · exact absurd hneg hne
    · rw [hc] at hsrec
      cases hsrec
    · rw [hpending] at hempty
      refine ⟨[], .nil, hempty ▸ .nil, mrg, ?_⟩
      rw [hnext, hc]
      rfl

end Correct

end EseLinux.ExternalSort
