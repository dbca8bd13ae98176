import EseLinux.SortRun

/-!
The buffers behind a run that is read.  Pages are latched 16 at a time and given back when they are
used up, and a record that crosses two pages is put together in a buffer of its own; the record that
the call before has returned is still there after the next one.
-/

namespace EseLinux.ExternalSort

open ByteMemory Function

def cpgClusterSize : Nat := 16

/-- Where a record is returned: at an offset on a page of the run, or in an assembly buffer. -/
inductive Psrec where
  | page (ipage ib : Nat)
  | assy (pv : Nat)
deriving DecidableEq, Repr

/-- A run being read, with what its sort keeps for it.  A latch names the page of the run it is on;
assembly buffers are numbered as they are allocated. -/
structure RunReader where
  rgbfl : Nat → Option Nat
  ipbf : Nat
  ibInMac : Nat
  ibInMax : Nat
  cbRemaining : Nat
  pvAssy : Option Nat
  pvAssyLast : Option Nat
  bflLast : Option Nat
  assy : Nat → Memory
  cassy : Nat

section Model

variable (cbFree : Nat) (run : Run)

/-- The pages that `SORTIRunEnd` leaves to the run. -/
def Run.cpgUsed : Nat := (run.cbRun + cbFree - 1) / cbFree

/-- `ErrSORTIRunOpen`, for a sort that keeps no buffer. -/
def RunReader.open (assy : Nat → Memory) : RunReader where
  rgbfl _ := none
  ipbf := cpgClusterSize
  ibInMac := 0
  ibInMax := 0
  cbRemaining := run.cbRun
  pvAssy := none
  pvAssyLast := none
  bflLast := none
  assy := assy
  cassy := 0

def RunReader.release (s : RunReader) : RunReader :=
  { s with pvAssyLast := s.pvAssy, pvAssy := none, bflLast := none }

def RunReader.giveUp (s : RunReader) : RunReader :=
  { s with bflLast := s.rgbfl s.ipbf, rgbfl := update s.rgbfl s.ipbf none }

/-- What there is of a record on the page in use, in a new assembly buffer. -/
def RunReader.begin (s : RunReader) (page : Memory) (cbUnread : Nat) : RunReader :=
  { s with
    pvAssy := some s.cassy
    assy := update s.assy s.cassy (ofBytes (slice page s.ibInMac cbUnread))
    cassy := s.cassy + 1
    cbRemaining := s.cbRemaining - cbUnread }

/-- The next page: one that is latched, or the first of the next cluster. -/
def RunReader.turn (s : RunReader) : RunReader :=
  let pgnoNext := if s.ipbf < cpgClusterSize then (s.rgbfl s.ipbf).elim 0 (· + 1) else 0
  let s := if s.ipbf < cpgClusterSize then s.giveUp else s
  if s.ipbf + 1 < cpgClusterSize then
    { s with ipbf := s.ipbf + 1, ibInMac := 0, ibInMax := cbFree }
  else
    let cpgRead := min (run.cpgUsed cbFree - pgnoNext) cpgClusterSize
    { s with
      rgbfl := fun ipbf => if ipbf < cpgRead then some (pgnoNext + ipbf) else s.rgbfl ipbf
      ipbf := 0
      ibInMac := 0
      ibInMax := cbFree }

def RunReader.finish (s : RunReader) (pv : Nat) (page : Memory) (cbUnread : Nat) : RunReader :=
  let m := s.assy pv
  let m := if cbUnread < cbSRECReadMin then
    store m cbUnread (slice page 0 (cbSRECReadMin - cbUnread)) else m
  let cbToRead := cbSRECSizePsrec m 0 - cbUnread
  { s with
    assy := update s.assy pv (store m cbUnread (slice page 0 cbToRead))
    ibInMac := cbToRead
    cbRemaining := s.cbRemaining - cbToRead }

/-- The page in use; `none` where no page is latched. -/
def RunReader.current (s : RunReader) : Option Nat :=
  if s.ipbf < cpgClusterSize then s.rgbfl s.ipbf else none

/-- A record at the front of the page in use, or behind the one read last. -/
def RunReader.take (s : RunReader) (ipage : Nat) : Option Psrec × RunReader :=
  let cbRec := cbSRECSizePsrec (run.pages ipage) s.ibInMac
  (some (.page ipage s.ibInMac),
    { s with ibInMac := s.ibInMac + cbRec, cbRemaining := s.cbRemaining - cbRec })

/-- `ErrSORTIRunNext`; `none` where a page is used that is not latched. No record is returned at the
end of the run. If the run is empty no page has been latched, and what stands behind the latches is
taken for one; here that is nothing. -/
def RunReader.next (s : RunReader) : Option (Option Psrec × RunReader) :=
  let s := s.release
  if s.cbRemaining = 0 then
    some (none, if s.current = none then s else s.giveUp)
  else
    let cbUnread := s.ibInMax - s.ibInMac
    if cbUnread = 0 then
      (s.turn cbFree run).current.map fun ipage => (s.turn cbFree run).take run ipage
    else
      s.current.bind fun ipage =>
        if cbUnread > cbSRECReadMin ∧ cbSRECSizePsrec (run.pages ipage) s.ibInMac ≤ cbUnread then
          some (s.take run ipage)
        else
          let s' := (s.begin (run.pages ipage) cbUnread).turn cbFree run
          s'.current.map fun ipage' =>
            (some (.assy s.cassy), s'.finish s.cassy (run.pages ipage') cbUnread)

/-- What a pointer to a record finds: nothing, once its page or its buffer has been given back. -/
def RunReader.deref (s : RunReader) : Psrec → Option Srec
  | .page ipage ib =>
    if (∃ ipbf, ipbf < cpgClusterSize ∧ s.rgbfl ipbf = some ipage) ∨ s.bflLast = some ipage then
      some (psrec (run.pages ipage) ib)
    else none
  | .assy pv =>
    if s.pvAssy = some pv ∨ s.pvAssyLast = some pv then some (psrec (s.assy pv) 0) else none

end Model

section Turn

variable {cbFree : Nat} {run : Run} {s : RunReader} {ipage : Nat}

structure RunReader.Latched (cbFree : Nat) (run : Run) (s : RunReader) (ipage : Nat) : Prop where
  ipbf : s.ipbf < cpgClusterSize
  ibInMax : s.ibInMax = cbFree
  used : ipage < run.cpgUsed cbFree
  latch : ∀ k, s.ipbf + k < cpgClusterSize → ipage + k < run.cpgUsed cbFree →
    s.rgbfl (s.ipbf + k) = some (ipage + k)

theorem RunReader.Latched.rgbfl_eq (h : s.Latched cbFree run ipage) :
    s.rgbfl s.ipbf = some ipage :=
  h.latch 0 h.ipbf h.used

theorem RunReader.Latched.current_eq (h : s.Latched cbFree run ipage) : s.current = some ipage := by
  rw [current, if_pos h.ipbf, h.rgbfl_eq]

theorem RunReader.turn_frame (cbFree : Nat) (run : Run) (s : RunReader) :
    (s.turn cbFree run).cbRemaining = s.cbRemaining ∧ (s.turn cbFree run).pvAssy = s.pvAssy ∧
      (s.turn cbFree run).pvAssyLast = s.pvAssyLast ∧ (s.turn cbFree run).assy = s.assy ∧
      (s.turn cbFree run).cassy = s.cassy ∧ (s.turn cbFree run).ibInMac = 0 := by
  simp only [turn]
  split <;> split <;> exact ⟨rfl, rfl, rfl, rfl, rfl, rfl⟩

theorem RunReader.latched_cluster {pgnoNext : Nat} (hused : pgnoNext < run.cpgUsed cbFree) :
    RunReader.Latched cbFree run
      { s with
        rgbfl := fun ipbf =>
          if ipbf < min (run.cpgUsed cbFree - pgnoNext) cpgClusterSize then some (pgnoNext + ipbf)
          else s.rgbfl ipbf
        ipbf := 0
        ibInMac := 0
        ibInMax := cbFree } pgnoNext := by
  refine ⟨(by decide : 0 < cpgClusterSize), rfl, hused, fun k hk hkused => ?_⟩
  show (if 0 + k < _ then some (pgnoNext + (0 + k)) else _) = _
  rw [zero_add, if_pos (by omega)]

theorem RunReader.Latched.turn (h : s.Latched cbFree run ipage)
    (hused : ipage + 1 < run.cpgUsed cbFree) :
    (s.turn cbFree run).Latched cbFree run (ipage + 1) ∧
      (s.turn cbFree run).bflLast = some ipage := by
  rw [RunReader.turn, if_pos h.ipbf, if_pos h.ipbf, h.rgbfl_eq, Option.elim_some]
  by_cases hmore : s.giveUp.ipbf + 1 < cpgClusterSize
  · rw [if_pos hmore]
    refine ⟨⟨hmore, rfl, hused, fun k hk hkused => ?_⟩, h.rgbfl_eq⟩
    have hk' : s.ipbf + (1 + k) < cpgClusterSize := by
      rw [← add_assoc]
      exact hk
    have hne : s.ipbf + 1 + k ≠ s.ipbf := by omega
    show update s.rgbfl s.ipbf none (s.ipbf + 1 + k) = _
    rw [update_of_ne hne]
    have hlatch := h.latch (1 + k) hk' (by omega)
    rwa [← add_assoc, ← add_assoc] at hlatch
  · rw [if_neg hmore]
    exact ⟨RunReader.latched_cluster (s := s.giveUp) hused, h.rgbfl_eq⟩

theorem RunReader.turn_first (hipbf : s.ipbf = cpgClusterSize) (hused : 0 < run.cpgUsed cbFree) :
    (s.turn cbFree run).Latched cbFree run 0 := by
  have hnot : ¬ s.ipbf < cpgClusterSize := by omega
  have hnot' : ¬ s.ipbf + 1 < cpgClusterSize := by omega
  rw [RunReader.turn, if_neg hnot, if_neg hnot]
  rw [if_neg hnot']
  exact RunReader.latched_cluster hused

end Turn

section Matches

variable {cbFree : Nat} {run : Run} {s : RunReader} {rcb : Rcb}

/-- The reader has the page that `rcb` is on latched, or none yet, and reads on at the same
place. -/
structure RunReader.Matches (cbFree : Nat) (run : Run) (s : RunReader) (rcb : Rcb) : Prop where
  pages : rcb.pages = run.pages
  remaining : s.cbRemaining = rcb.cbRemaining
  place : (rcb.cpage = 0 ∧ s.ipbf = cpgClusterSize ∧ s.ibInMax - s.ibInMac = 0) ∨
    ∃ ipage, rcb.cpage = ipage + 1 ∧ s.ibInMac = rcb.ibInMac ∧ s.Latched cbFree run ipage

theorem RunReader.Matches.cbUnread (h : s.Matches cbFree run rcb) :
    s.ibInMax - s.ibInMac = cbLeft cbFree rcb.cpage rcb.ibInMac := by
  rcases h.place with ⟨hcpage, -, hunread⟩ | ⟨ipage, hcpage, hib, hlatched⟩
  · rw [hunread, cbLeft, if_pos hcpage]
  · rw [cbLeft, if_neg (by omega), hlatched.ibInMax, hib]

/-- The record that the last call has returned is on the page in use or in the last buffer. -/
def RunReader.Returned (s : RunReader) : Psrec → Prop
  | .page ipage _ => s.current = some ipage
  | .assy pv => s.pvAssy = some pv ∧ pv < s.cassy

variable {ipage ib : Nat}

theorem RunReader.deref_page_of_current (h : s.current = some ipage) :
    s.deref run (.page ipage ib) = some (psrec (run.pages ipage) ib) := by
  rw [current] at h
  split at h
  case isTrue hipbf => exact if_pos (.inl ⟨s.ipbf, hipbf, h⟩)
  · cases h

theorem RunReader.Latched.take_spec (h : s.Latched cbFree run ipage) :
    (s.take run ipage).2.Latched cbFree run ipage ∧
      (s.take run ipage).2.deref run (.page ipage s.ibInMac) =
        some (psrec (run.pages ipage) s.ibInMac) := by
  have hlatched : (s.take run ipage).2.Latched cbFree run ipage :=
    ⟨h.ipbf, h.ibInMax, h.used, h.latch⟩
  exact ⟨hlatched, deref_page_of_current hlatched.current_eq⟩

theorem RunReader.deref_kept {s' : RunReader}
    (hpage : ∀ ipage, s.current = some ipage → s'.current = some ipage ∨ s'.bflLast = some ipage)
    (hassy : s'.pvAssyLast = s.pvAssy) (hmem : ∀ pv, pv < s.cassy → s'.assy pv = s.assy pv)
    {old : Psrec} (hold : s.Returned old) : s'.deref run old = s.deref run old := by
  cases old with
  | page ipage ib =>
    rw [deref_page_of_current (s := s) hold]
    rcases hpage ipage hold with hcurrent | hlast
    · exact deref_page_of_current hcurrent
    · exact if_pos (.inr hlast)
  | assy pv =>
    obtain ⟨hpv, hlt⟩ := hold
    have hnew : s'.deref run (.assy pv) = some (psrec (s'.assy pv) 0) :=
      if_pos (.inr (hassy.trans hpv))
    rw [hnew, hmem pv hlt]
    exact (if_pos (.inl hpv)).symm

theorem RunReader.next_end (hzero : s.cbRemaining = 0) :
    ∃ s', s.next cbFree run = some (none, s') ∧
      ∀ old, s.Returned old → s'.deref run old = s.deref run old := by
  have hrelease : s.release.cbRemaining = 0 := hzero
  rw [RunReader.next]
  rw [if_pos hrelease]
  refine ⟨_, rfl, fun old hold => deref_kept (fun ipage hcurrent => ?_) ?_ (fun pv _ => ?_) hold⟩
  · have hsome : s.release.current = some ipage := hcurrent
    rw [hsome, if_neg (by simp)]
    right
    rw [current] at hcurrent
    split at hcurrent
    · exact hcurrent
    · cases hcurrent
  · split <;> rfl
  · split <;> rfl

theorem RunReader.finish_spec {t : RunReader} {pv cbUnread : Nat} {page : Memory}
    (h : t.assy pv = ofBytes (slice page ib cbUnread)) (next : Memory) :
    (t.finish pv next cbUnread).assy pv = (assemble (slice page ib cbUnread) next).1 ∧
      (t.finish pv next cbUnread).ibInMac = (assemble (slice page ib cbUnread) next).2 ∧
      (t.finish pv next cbUnread).cbRemaining =
        t.cbRemaining - (assemble (slice page ib cbUnread) next).2 := by
  simp only [finish, assemble, slice_length, h, update_self, and_self]

theorem RunReader.Matches.turned (h : s.Matches cbFree run rcb) {t : RunReader}
    (hrgbfl : t.rgbfl = s.rgbfl) (hipbf : t.ipbf = s.ipbf) (hmax : t.ibInMax = s.ibInMax)
    (hmore : rcb.cpage < run.cpgUsed cbFree) :
    (t.turn cbFree run).Latched cbFree run rcb.cpage ∧
      ∀ ipage, s.current = some ipage → (t.turn cbFree run).bflLast = some ipage := by
  rcases h.place with ⟨hcpage, hnone, -⟩ | ⟨ipage, hcpage, -, hlatched⟩
  · rw [hcpage] at hmore ⊢
    refine ⟨turn_first (hipbf.trans hnone) hmore, fun ipage hcurrent => ?_⟩
    rw [current, if_neg (by omega)] at hcurrent
    cases hcurrent
  · have ht : t.Latched cbFree run ipage := by
      refine ⟨hipbf ▸ hlatched.ipbf, hmax.trans hlatched.ibInMax, hlatched.used, ?_⟩
      rw [hrgbfl, hipbf]
      exact hlatched.latch
    rw [hcpage] at hmore ⊢
    obtain ⟨hturned, hlast⟩ := ht.turn hmore
    refine ⟨hturned, fun ipage' hcurrent => ?_⟩
    rw [hlatched.current_eq] at hcurrent
    cases hcurrent
    exact hlast

theorem RunReader.Matches.next (h : s.Matches cbFree run rcb) (hcb : 0 < rcb.cbRemaining)
    (hmore : ¬ (cbSRECReadMin < cbLeft cbFree rcb.cpage rcb.ibInMac ∧
      cbSRECSizePsrec (rcb.pages (rcb.cpage - 1)) rcb.ibInMac ≤
        cbLeft cbFree rcb.cpage rcb.ibInMac) → rcb.cpage < run.cpgUsed cbFree) :
    ∃ psrec s', s.next cbFree run = some (some psrec, s') ∧
      s'.Matches cbFree run (errSORTIRunNext cbFree rcb).2 ∧
      s'.deref run psrec = (errSORTIRunNext cbFree rcb).1 ∧ s'.Returned psrec ∧
      ∀ old, s.Returned old → s'.deref run old = s.deref run old := by
  have hcb' : ¬ s.release.cbRemaining = 0 := by
    show ¬ s.cbRemaining = 0
    rw [h.remaining]
    omega
  have hunread : s.release.ibInMax - s.release.ibInMac = cbLeft cbFree rcb.cpage rcb.ibInMac :=
    h.cbUnread
  rw [RunReader.next]
  rw [if_neg hcb', hunread]
  simp only [errSORTIRunNext, if_neg (by omega : rcb.cbRemaining ≠ 0)]
  generalize hcbUnread : cbLeft cbFree rcb.cpage rcb.ibInMac = cbUnread at *
  by_cases hzero : cbUnread = 0
  · -- the record is at the front of the next page
    have hnot : ¬ (cbSRECReadMin < cbUnread ∧
        cbSRECSizePsrec (rcb.pages (rcb.cpage - 1)) rcb.ibInMac ≤ cbUnread) := by omega
    obtain ⟨hturned, hlast⟩ := h.turned (t := s.release) rfl rfl rfl (hmore hnot)
    obtain ⟨hremaining, hpvAssy, hpvAssyLast, hmem, hcassy, hib⟩ := s.release.turn_frame cbFree run
    rw [if_pos hzero, if_neg hnot, if_pos hzero, hturned.current_eq, Option.map_some]
    obtain ⟨htaken, hderef⟩ := hturned.take_spec
    refine ⟨_, _, rfl, ⟨h.pages, ?_, .inr ⟨rcb.cpage, rfl, ?_, htaken⟩⟩, ?_, htaken.current_eq, ?_⟩
    · rw [hremaining, hib, h.pages, ← h.remaining]
      rfl
    · rw [hib, h.pages, Nat.zero_add]
    · rw [hib, ← h.pages] at hderef
      rw [hib]
      exact hderef
    · intro old hold
      refine deref_kept (fun ipage hipage => .inr ?_) ?_ (fun pv _ => ?_) hold
      · exact hlast ipage hipage
      · exact hpvAssyLast
      · exact congrFun hmem pv
  · -- some of the record is on the page in use
    rw [if_neg hzero]
    obtain ⟨ipage, hcpage, hib, hlatched⟩ : ∃ ipage, rcb.cpage = ipage + 1 ∧
        s.ibInMac = rcb.ibInMac ∧ s.Latched cbFree run ipage := by
      rcases h.place with ⟨hcpage, -⟩ | hplace
      · rw [cbLeft, if_pos hcpage] at hcbUnread
        omega
      · exact hplace
    have hcurrent : s.release.current = some ipage := hlatched.current_eq
    have hpage : rcb.pages (rcb.cpage - 1) = run.pages ipage := by
      rw [h.pages, hcpage, Nat.add_sub_cancel]
    have hibInMac : s.release.ibInMac = rcb.ibInMac := hib
    rw [hcurrent, Option.bind_some, hibInMac]
    rw [hpage] at hmore ⊢
    by_cases hwhole : cbSRECReadMin < cbUnread ∧
        cbSRECSizePsrec (run.pages ipage) rcb.ibInMac ≤ cbUnread
    · rw [if_pos hwhole, if_pos hwhole]
      have hlatched' : s.release.Latched cbFree run ipage :=
        ⟨hlatched.ipbf, hlatched.ibInMax, hlatched.used, hlatched.latch⟩
      obtain ⟨htaken, hderef⟩ := hlatched'.take_spec
      rw [hibInMac] at hderef
      refine ⟨_, _, rfl, ⟨h.pages, ?_, .inr ⟨ipage, hcpage, ?_, htaken⟩⟩, ?_, htaken.current_eq, ?_⟩
      · show s.cbRemaining - cbSRECSizePsrec _ s.ibInMac = _
        rw [h.remaining, hib]
      · show s.ibInMac + cbSRECSizePsrec _ s.ibInMac = _
        rw [hib]
      · rw [hibInMac]
        exact hderef
      · intro old hold
        refine deref_kept (fun ipage' hipage => .inl ?_) ?_ (fun pv _ => ?_) hold
        · rw [hlatched.current_eq] at hipage
          rw [← hipage]
          exact htaken.current_eq
        · rfl
        · rfl
    · -- the record is put together from two pages
      rw [if_neg hwhole, if_neg hwhole, if_neg hzero]
      obtain ⟨hturned, hlast⟩ :=
        h.turned (t := s.release.begin (run.pages ipage) cbUnread) rfl rfl rfl
        (hmore hwhole)
      obtain ⟨hremaining, hpvAssy, hpvAssyLast, hmem, hcassy, -⟩ :=
        (s.release.begin (run.pages ipage) cbUnread).turn_frame cbFree run
      rw [hturned.current_eq, Option.map_some]
      generalize (s.release.begin (run.pages ipage) cbUnread).turn cbFree run = t at *
      have hbegun : t.assy s.cassy = ofBytes (slice (run.pages ipage) rcb.ibInMac cbUnread) := by
        rw [hmem, ← hib]
        exact update_self ..
      obtain ⟨hassemble, hcbToRead, hleft⟩ := finish_spec hbegun (run.pages rcb.cpage)
      refine ⟨_, _, rfl, ⟨h.pages, ?_, .inr ⟨rcb.cpage, rfl, ?_, ?_⟩⟩, ?_, ?_, ?_⟩
      · have hbefore : t.cbRemaining = rcb.cbRemaining - cbUnread := by
          rw [hremaining, ← h.remaining]
          rfl
        rw [h.pages]
        exact hleft.trans (by rw [hbefore])
      · rw [h.pages]
        exact hcbToRead
      · exact ⟨hturned.ipbf, hturned.ibInMax, hturned.used, hturned.latch⟩
      · rw [h.pages]
        refine (if_pos (.inl hpvAssy)).trans ?_
        exact congrArg (fun m => some (psrec m 0)) hassemble
      · refine ⟨hpvAssy, ?_⟩
        show s.cassy < t.cassy
        rw [hcassy]
        exact Nat.lt_succ_self s.cassy
      · intro old hold
        refine deref_kept (fun ipage' hipage => .inr ?_) ?_ (fun pv hpv => ?_) hold
        · exact hlast ipage' hipage
        · exact hpvAssyLast
        · have hne : pv ≠ s.cassy := by omega
          show update t.assy s.cassy _ pv = _
          rw [update_of_ne hne, hmem]
          exact update_of_ne hne ..

end Matches

section ReadBack

variable {cbFree : Nat} {run : Run}

/-- Calls of `ErrSORTIRunNext` return the records and then none, and what a call has returned is
found after it and after the next call. -/
inductive ReadsBack (cbFree : Nat) (run : Run) : RunReader → List Srec → Prop
  | done {s s' : RunReader} (hnext : s.next cbFree run = some (none, s')) :
      ReadsBack cbFree run s []
  | record {s s' s'' : RunReader} {psrec : Psrec} {psrec' : Option Psrec} {srec : Srec}
      {srecs : List Srec} (hnext : s.next cbFree run = some (some psrec, s'))
      (hfound : s'.deref run psrec = some srec) (hagain : s'.next cbFree run = some (psrec', s''))
      (hkept : s''.deref run psrec = some srec) (hrest : ReadsBack cbFree run s' srecs) :
      ReadsBack cbFree run s (srec :: srecs)

variable {rcb : Rcb} {pos : Nat}

theorem cpage_lt_cpgUsed {srec : Srec} (hplace : Place cbFree rcb.cpage rcb.ibInMac pos)
    (hfront : slice (flat cbFree rcb.pages) pos srec.cbRec = srec.bytes)
    (hremaining : srec.cbRec ≤ rcb.cbRemaining) (htotal : pos + rcb.cbRemaining = run.cbRun)
    (hsize : srec.cbRec < 65536) (hcbFree : 0 < cbFree)
    (hnot : ¬ (cbSRECReadMin < cbLeft cbFree rcb.cpage rcb.ibInMac ∧
      cbSRECSizePsrec (rcb.pages (rcb.cpage - 1)) rcb.ibInMac ≤
        cbLeft cbFree rcb.cpage rcb.ibInMac)) : rcb.cpage < run.cpgUsed cbFree := by
  have hheader : 4 ≤ srec.cbRec := by
    unfold Srec.cbRec cbSrecHeader
    omega
  have hshort : cbLeft cbFree rcb.cpage rcb.ibInMac < srec.cbRec := by
    by_contra hge
    have htwo : slice (flat cbFree rcb.pages) pos 2 = srec.bytes.take 2 :=
      slice_take (by rw [srec.bytes_length]; exact hfront) (by rw [srec.bytes_length]; omega)
    have hpage : slice (rcb.pages (rcb.cpage - 1)) rcb.ibInMac 2 = srec.bytes.take 2 :=
      (hplace.slice_page rcb.pages (by omega)).trans htwo
    have hmin : cbSRECReadMin = 2 := rfl
    rw [cbSRECSizePsrec_of_slice hpage hsize] at hnot
    omega
  have hend := hplace.add_cbLeft
  rw [Run.cpgUsed, Nat.lt_iff_add_one_le, Nat.le_div_iff_mul_le hcbFree, add_mul, one_mul]
  omega

structure Reading (cbFree : Nat) (run : Run) (s : RunReader) (srecs : List Srec) (rcb : Rcb)
    (pos : Nat) : Prop where
  agrees : s.Matches cbFree run rcb
  place : Place cbFree rcb.cpage rcb.ibInMac pos
  remaining : rcb.cbRemaining = (stream srecs).length
  bytes : slice (flat cbFree rcb.pages) pos rcb.cbRemaining = stream srecs
  total : pos + rcb.cbRemaining = run.cbRun

variable {srecs : List Srec} {s : RunReader}

theorem Reading.next_cons {srec : Srec}
    (h : Reading cbFree run s (srec :: srecs) rcb pos) (hcbFree : cbFree ≤ 32768)
    (hfit : srec.cbRec < cbFree) : ∃ psrec s', s.next cbFree run = some (some psrec, s') ∧
      Reading cbFree run s' srecs (errSORTIRunNext cbFree rcb).2 (pos + srec.cbRec) ∧
      s'.deref run psrec = some srec ∧ s'.Returned psrec ∧
      ∀ old, s.Returned old → s'.deref run old = s.deref run old := by
  have hlen := srec.bytes_length
  have hbytes := h.bytes
  have hstream : rcb.cbRemaining = srec.cbRec + (stream srecs).length := by
    rw [h.remaining, stream_cons, List.length_append, hlen]
  obtain ⟨hfront, hrest⟩ := slice_append_inj hbytes
  rw [hlen] at hfront hrest
  have hheader : 4 ≤ srec.cbRec := by
    unfold Srec.cbRec cbSrecHeader
    omega
  obtain ⟨hread, hpages, hcb, hplace⟩ :=
    runNext_spec h.place hfront (by omega) (by omega) (by omega)
  obtain ⟨psrec, s', hnext, hmatches, hderef, hreturned, hkept⟩ := h.agrees.next (by omega)
    (cpage_lt_cpgUsed h.place hfront (by omega) h.total (by omega) (by omega))
  have hleft : (errSORTIRunNext cbFree rcb).2.cbRemaining = (stream srecs).length := by omega
  have htotal := h.total
  refine ⟨psrec, s', hnext, ⟨hmatches, hplace, hleft, ?_, by omega⟩, hderef.trans hread, hreturned,
    hkept⟩
  rw [hpages, hleft]
  exact hrest

theorem Reading.readsBack (hcbFree : cbFree ≤ 32768) (hfits : ∀ srec ∈ srecs, srec.cbRec < cbFree)
    (h : Reading cbFree run s srecs rcb pos) : ReadsBack cbFree run s srecs := by
  induction srecs generalizing s rcb pos with
  | nil =>
    obtain ⟨s', hnext, -⟩ := RunReader.next_end (h.agrees.remaining.trans h.remaining)
    exact .done hnext
  | cons srec srecs ih =>
    have hfits' := fun srec' hmem => hfits srec' (List.mem_cons_of_mem srec hmem)
    obtain ⟨psrec, s', hnext, h', hfound, hreturned, -⟩ :=
      h.next_cons hcbFree (hfits srec List.mem_cons_self)
    obtain ⟨psrec', s'', hagain, hkept⟩ : ∃ psrec' s'', s'.next cbFree run = some (psrec', s'') ∧
        ∀ old, s'.Returned old → s''.deref run old = s'.deref run old := by
      rcases srecs with _ | ⟨srec', srecs⟩
      · obtain ⟨s'', hagain, hkept⟩ := RunReader.next_end (h'.agrees.remaining.trans h'.remaining)
        exact ⟨none, s'', hagain, hkept⟩
      · obtain ⟨psrec', s'', hagain, -, -, -, hkept⟩ :=
          h'.next_cons hcbFree (hfits' srec' List.mem_cons_self)
        exact ⟨some psrec', s'', hagain, hkept⟩
    exact .record hnext hfound hagain ((hkept psrec hreturned).trans hfound) (ih hfits' h')

theorem holds_foldl_runInsert {old : List Srec} (hfits : ∀ srec ∈ srecs, srec.cbRec < cbFree)
    {out : RunOut} (h : out.Holds cbFree old) :
    (srecs.foldl (errSORTIRunInsert cbFree) out).Holds cbFree (old ++ srecs) := by
  induction srecs generalizing out old with
  | nil => rwa [List.append_nil]
  | cons srec srecs ih =>
    have hinsert := holds_runInsert h (le_of_lt (hfits srec List.mem_cons_self))
    have hrest := ih (fun srec' hmem => hfits srec' (List.mem_cons_of_mem _ hmem)) hinsert
    rwa [List.append_assoc] at hrest

end ReadBack

/-- Records written with `ErrSORTIRunInsert`, each smaller than the data area of a sort page, are
read back in order, and a record is still there after the call that follows the one that returned
it.  No page is larger than 32 KiB. -/
theorem run_readsBack {cbFree : Nat} (hcbFree : cbFree ≤ 32768) (pages : Pages)
    (assy : Nat → Memory) {srecs : List Srec} (hfits : ∀ srec ∈ srecs, srec.cbRec < cbFree) :
    let run := sortiRunEnd (srecs.foldl (errSORTIRunInsert cbFree) (errSORTIRunStart pages))
    ReadsBack cbFree run (RunReader.open run assy) srecs := by
  have hholds := (holds_foldl_runInsert hfits (holds_runStart pages)).runEnd
  intro run
  have hreading : Reading cbFree run (RunReader.open run assy) srecs (errSORTIRunOpen run) 0 :=
    ⟨⟨rfl, rfl, .inl ⟨rfl, rfl, rfl⟩⟩, .start, hholds.cbRun, hholds.bytes, zero_add _⟩
  exact hreading.readsBack hcbFree hfits

/-- Two records on pages of ten bytes: the second one begins on the first page, in the middle of the
size of its key. -/
theorem two_records_readsBack :
    let srecs : List Srec := [⟨[1, 2, 3], []⟩, ⟨[4], [5, 6]⟩]
    (∀ srec ∈ srecs, srec.cbRec < 10) ∧
      let run := sortiRunEnd (srecs.foldl (errSORTIRunInsert 10) (errSORTIRunStart fun _ _ => 0))
      ReadsBack 10 run (RunReader.open run fun _ _ => 0) srecs :=
  ⟨by decide, run_readsBack (by decide) _ _ (by decide)⟩

end EseLinux.ExternalSort
