import EseLinux.SortRecord

/-!
Runs of sort records on pages.  Records follow one another without gaps and may cross page
boundaries; a reader assembles a record that does from the two pages it is on.
-/

namespace EseLinux.ExternalSort

open ByteMemory DigitList Function List

abbrev Pages := Nat → Memory

def storePage (pages : Pages) (ipage ib : Nat) (bs : List UInt8) : Pages :=
  update pages ipage (store (pages ipage) ib bs)

/-- The output of a run: how many of its pages have been begun, and where the next byte goes on the
last of them. -/
structure RunOut where
  pages : Pages
  cpage : Nat
  ibOutMac : Nat
  cbRun : Nat

/-- What is left of the last page taken; before the first there is none. -/
def cbLeft (cbFree cpage ib : Nat) : Nat := if cpage = 0 then 0 else cbFree - ib

def errSORTIRunStart (pages : Pages) : RunOut := ⟨pages, 0, 0, 0⟩

section Writer

variable (cbFree : Nat)

/-- The part of a record that fits on the current page, then the rest on a new one. -/
def errSORTIRunInsert (out : RunOut) (srec : Srec) : RunOut :=
  let cb := min (cbLeft cbFree out.cpage out.ibOutMac) srec.cbRec
  let pages := storePage out.pages (out.cpage - 1) out.ibOutMac (srec.bytes.take cb)
  if cb < srec.cbRec then
    { pages := storePage pages out.cpage 0 (srec.bytes.drop cb)
      cpage := out.cpage + 1
      ibOutMac := srec.cbRec - cb
      cbRun := out.cbRun + srec.cbRec }
  else { out with pages, ibOutMac := out.ibOutMac + cb, cbRun := out.cbRun + srec.cbRec }

end Writer

structure Run where
  pages : Pages
  cbRun : Nat

def sortiRunEnd (out : RunOut) : Run := ⟨out.pages, out.cbRun⟩

/-- A run being read: how many of its pages have been taken, where the next byte is on the last of
them, and the bytes of data still to come. -/
structure Rcb where
  pages : Pages
  cpage : Nat
  ibInMac : Nat
  cbRemaining : Nat

def errSORTIRunOpen (run : Run) : Rcb := ⟨run.pages, 0, 0, run.cbRun⟩

section Reader

variable (cbFree : Nat)

def cbSRECReadMin : Nat := 2

/-- The record begins on the page before and ends on this one; its size may itself be split. -/
def assemble (rgb : List UInt8) (page : Memory) : Memory × Nat :=
  let assy := ofBytes rgb
  let assy := if rgb.length < cbSRECReadMin then
    store assy rgb.length (slice page 0 (cbSRECReadMin - rgb.length)) else assy
  let cbToRead := cbSRECSizePsrec assy 0 - rgb.length
  (store assy rgb.length (slice page 0 cbToRead), cbToRead)

def errSORTIRunNext (rcb : Rcb) : Option Srec × Rcb :=
  if rcb.cbRemaining = 0 then (none, rcb)
  else
    let page := rcb.pages (rcb.cpage - 1)
    let cbUnread := cbLeft cbFree rcb.cpage rcb.ibInMac
    let cbRec := cbSRECSizePsrec page rcb.ibInMac
    let next := rcb.pages rcb.cpage
    if cbSRECReadMin < cbUnread ∧ cbRec ≤ cbUnread then
      (some (psrec page rcb.ibInMac),
        { rcb with ibInMac := rcb.ibInMac + cbRec, cbRemaining := rcb.cbRemaining - cbRec })
    else if cbUnread = 0 then
      (some (psrec next 0), { rcb with
          cpage := rcb.cpage + 1
          ibInMac := cbSRECSizePsrec next 0
          cbRemaining := rcb.cbRemaining - cbSRECSizePsrec next 0 })
    else
      let assy := assemble (slice page rcb.ibInMac cbUnread) next
      (some (psrec assy.1 0), { rcb with
          cpage := rcb.cpage + 1
          ibInMac := assy.2
          cbRemaining := rcb.cbRemaining - cbUnread - assy.2 })

end Reader

def flat (cbFree : Nat) (pages : Pages) : Memory := fun i => pages (i / cbFree) (i % cbFree)

variable {ib n : Nat} {bs : List UInt8}

section Flat

variable {cbFree ipage : Nat}

theorem div_mod_of_page (hib : ib < cbFree) :
    (ipage * cbFree + ib) / cbFree = ipage ∧ (ipage * cbFree + ib) % cbFree = ib := by
  have hpos : 0 < cbFree := by omega
  rw [mul_comm, Nat.mul_add_div hpos, Nat.mul_add_mod, Nat.div_eq_of_lt hib, Nat.mod_eq_of_lt hib]
  exact ⟨rfl, rfl⟩

theorem flat_apply (pages : Pages) (hib : ib < cbFree) :
    flat cbFree pages (ipage * cbFree + ib) = pages ipage ib := by
  rw [flat, (div_mod_of_page hib).1, (div_mod_of_page hib).2]

theorem slice_page (pages : Pages) (ipage : Nat) (h : ib + n ≤ cbFree) :
    slice (pages ipage) ib n = slice (flat cbFree pages) (ipage * cbFree + ib) n := by
  apply map_congr_left
  intro k hk
  rw [add_assoc, flat_apply pages]
  have := mem_range.mp hk
  omega

theorem flat_storePage (pages : Pages) (h : ib + bs.length ≤ cbFree) (hpos : 0 < cbFree) :
    flat cbFree (storePage pages ipage ib bs) =
      store (flat cbFree pages) (ipage * cbFree + ib) bs := by
  funext i
  obtain ⟨jpage, jb, hjb, rfl⟩ : ∃ jpage jb, jb < cbFree ∧ i = jpage * cbFree + jb :=
    ⟨i / cbFree, i % cbFree, Nat.mod_lt i hpos, (Nat.div_add_mod' i cbFree).symm⟩
  rw [flat_apply _ hjb, store, flat_apply _ hjb, storePage]
  by_cases hpage : jpage = ipage
  · rw [hpage, update_self, store, Nat.add_sub_add_left]
    have hin : ib ≤ jb ∧ jb < ib + bs.length ↔ ipage * cbFree + ib ≤ ipage * cbFree + jb ∧
        ipage * cbFree + jb < ipage * cbFree + ib + bs.length := by omega
    simp only [hin]
  · rw [update_of_ne hpage, if_neg]
    rintro ⟨hle, hlt⟩
    rcases Nat.lt_or_gt_of_ne hpage with hbefore | hbehind
    · have := Nat.mul_le_mul_right cbFree (Nat.succ_le_of_lt hbefore)
      rw [Nat.succ_mul] at this
      omega
    · have := Nat.mul_le_mul_right cbFree (Nat.succ_le_of_lt hbehind)
      rw [Nat.succ_mul] at this
      omega

end Flat

def stream (srecs : List Srec) : List UInt8 := (srecs.map Srec.bytes).flatten

theorem stream_cons (srec : Srec) (srecs : List Srec) :
    stream (srec :: srecs) = srec.bytes ++ stream srecs := rfl

theorem stream_append (srecs srecs' : List Srec) :
    stream (srecs ++ srecs') = stream srecs ++ stream srecs' := by
  simp [stream]

/-- The byte at an offset of the last page taken is the `pos`-th. -/
inductive Place (cbFree : Nat) : Nat → Nat → Nat → Prop
  | start : Place cbFree 0 0 0
  | page (ipage ib : Nat) (hib : ib ≤ cbFree) : Place cbFree (ipage + 1) ib (ipage * cbFree + ib)

variable {pos : Nat} {srec : Srec} {srecs : List Srec} {out : RunOut}

section Write

variable {cbFree cpage : Nat}

namespace Place

variable (h : Place cbFree cpage ib pos)
include h

theorem add_cbLeft : pos + cbLeft cbFree cpage ib = cpage * cbFree := by
  cases h with
  | start => rw [cbLeft, if_pos rfl, Nat.zero_mul]
  | page ipage ib hib =>
    rw [cbLeft, if_neg (Nat.succ_ne_zero _), Nat.succ_mul]
    omega

theorem advance (hn : n ≤ cbLeft cbFree cpage ib) : Place cbFree cpage (ib + n) (pos + n) := by
  cases h with
  | start =>
    obtain rfl : n = 0 := Nat.le_zero.mp hn
    exact .start
  | page ipage ib hib =>
    rw [cbLeft, if_neg (Nat.succ_ne_zero _)] at hn
    rw [add_assoc]
    exact .page ipage (ib + n) (by omega)

theorem turn (hn : n ≤ cbFree) :
    Place cbFree (cpage + 1) n (pos + cbLeft cbFree cpage ib + n) := by
  rw [h.add_cbLeft]
  exact .page cpage n hn

theorem slice_page (pages : Pages) (hn : n ≤ cbLeft cbFree cpage ib) :
    slice (pages (cpage - 1)) ib n = slice (flat cbFree pages) pos n := by
  cases h with
  | start =>
    obtain rfl : n = 0 := Nat.le_zero.mp hn
    rfl
  | page ipage ib hib =>
    rw [cbLeft, if_neg (Nat.succ_ne_zero _)] at hn
    exact ExternalSort.slice_page pages ipage (by omega)

theorem slice_next (pages : Pages) (hn : n ≤ cbFree) :
    slice (pages cpage) 0 n = slice (flat cbFree pages) (pos + cbLeft cbFree cpage ib) n := by
  rw [h.add_cbLeft]
  exact ExternalSort.slice_page pages cpage (by omega)

end Place

structure RunOut.Holds (cbFree : Nat) (out : RunOut) (srecs : List Srec) : Prop where
  cbRun : out.cbRun = (stream srecs).length
  place : Place cbFree out.cpage out.ibOutMac out.cbRun
  bytes : slice (flat cbFree out.pages) 0 out.cbRun = stream srecs

theorem holds_runStart (pages : Pages) : (errSORTIRunStart pages).Holds cbFree [] where
  cbRun := rfl
  place := .start
  bytes := rfl

theorem slice_store_append (m : Memory) (bs' : List UInt8)
    (h : slice m 0 bs.length = bs) : slice (store m bs.length bs') 0
    (bs.length + bs'.length) = bs ++ bs' := by
  have hkept := (store_agreeOn m bs.length bs' 0 bs.length (.inl (by omega))).slice_eq
  rw [← slice_append, hkept, h, zero_add, slice_store]

theorem flat_storePage_place {pages : Pages} (h : Place cbFree cpage ib pos)
    (hpos : 0 < cbFree) (hlen : bs.length ≤ cbLeft cbFree cpage ib) :
    flat cbFree (storePage pages (cpage - 1) ib bs) = store (flat cbFree pages) pos bs := by
  cases h with
  | start =>
    obtain rfl := eq_nil_of_length_eq_zero (Nat.le_zero.mp hlen)
    rw [storePage, store_nil, store_nil, update_eq_self]
  | page ipage ib hib =>
    rw [cbLeft, if_neg (Nat.succ_ne_zero _)] at hlen
    exact flat_storePage pages (by omega) hpos

theorem runInsert_spec (h : Place cbFree out.cpage out.ibOutMac out.cbRun)
    (hsize : srec.cbRec ≤ cbFree) :
    flat cbFree (errSORTIRunInsert cbFree out srec).pages =
        store (flat cbFree out.pages) out.cbRun srec.bytes ∧
      Place cbFree (errSORTIRunInsert cbFree out srec).cpage
        (errSORTIRunInsert cbFree out srec).ibOutMac (errSORTIRunInsert cbFree out srec).cbRun ∧
      (errSORTIRunInsert cbFree out srec).cbRun = out.cbRun + srec.cbRec := by
  have hlen := srec.bytes_length
  have hheader : 0 < srec.cbRec := by
    unfold Srec.cbRec cbSrecHeader
    omega
  have hleft := h.add_cbLeft
  simp only [errSORTIRunInsert]
  generalize hroom : cbLeft cbFree out.cpage out.ibOutMac = cbRoom at hleft ⊢
  have hfirst : flat cbFree (storePage out.pages (out.cpage - 1) out.ibOutMac
      (srec.bytes.take (min cbRoom srec.cbRec))) =
      store (flat cbFree out.pages) out.cbRun (srec.bytes.take (min cbRoom srec.cbRec)) := by
    apply flat_storePage_place h (by omega)
    rw [length_take, hroom]
    omega
  split
  · -- the rest goes to the front of the next page, where the bytes before it end
    rename_i hlt
    have hcb : min cbRoom srec.cbRec = cbRoom := by omega
    rw [hcb] at hfirst ⊢
    refine ⟨?_, ?_, rfl⟩
    · have hnext : flat cbFree (storePage (storePage out.pages (out.cpage - 1) out.ibOutMac
          (srec.bytes.take cbRoom)) out.cpage 0 (srec.bytes.drop cbRoom)) = _ :=
        flat_storePage _ (by rw [length_drop]; omega) (by omega)
      have htake : (srec.bytes.take cbRoom).length = cbRoom := by
        rw [length_take]
        omega
      have hback := store_append (flat cbFree out.pages) out.cbRun (srec.bytes.take cbRoom)
        (srec.bytes.drop cbRoom)
      rw [take_append_drop, htake, hleft] at hback
      rw [hnext, hfirst, add_zero, hback]
    · have hplace := h.turn (n := srec.cbRec - cbRoom) (by omega)
      rwa [hroom, show out.cbRun + cbRoom + (srec.cbRec - cbRoom) = out.cbRun + srec.cbRec by omega]
        at hplace
  · rename_i hge
    have hcb : min cbRoom srec.cbRec = srec.cbRec := by omega
    rw [hcb] at hfirst ⊢
    rw [take_of_length_le hlen.le] at hfirst ⊢
    exact ⟨hfirst, h.advance (by omega), rfl⟩

theorem holds_runInsert (h : out.Holds cbFree srecs) (hsize : srec.cbRec ≤ cbFree) :
    (errSORTIRunInsert cbFree out srec).Holds cbFree (srecs ++ [srec]) := by
  obtain ⟨hflat, hplace, hcbRun⟩ := runInsert_spec h.place hsize
  have hstream : stream (srecs ++ [srec]) = stream srecs ++ srec.bytes := by
    rw [stream_append, stream_cons]
    exact congrArg _ (append_nil _)
  have hlen : out.cbRun + srec.cbRec = (stream srecs).length + srec.bytes.length := by
    rw [h.cbRun, srec.bytes_length]
  refine ⟨?_, hplace, ?_⟩
  · rw [hcbRun, hstream, length_append, hlen]
  · have hbytes := h.bytes
    rw [h.cbRun] at hbytes hflat
    rw [hcbRun, hlen, hflat, hstream]
    exact slice_store_append _ _ hbytes

end Write

section Read

variable {cbFree : Nat}

structure Rcb.Reads (cbFree : Nat) (rcb : Rcb) (srecs : List Srec) : Prop where
  cbRemaining : rcb.cbRemaining = (stream srecs).length
  bytes : ∃ pos, Place cbFree rcb.cpage rcb.ibInMac pos ∧
    slice (flat cbFree rcb.pages) pos rcb.cbRemaining = stream srecs

structure Run.Holds (cbFree : Nat) (run : Run) (srecs : List Srec) : Prop where
  cbRun : run.cbRun = (stream srecs).length
  bytes : slice (flat cbFree run.pages) 0 run.cbRun = stream srecs

theorem RunOut.Holds.runEnd (h : out.Holds cbFree srecs) :
    (sortiRunEnd out).Holds cbFree srecs := ⟨h.cbRun, h.bytes⟩

variable {rcb : Rcb}

theorem Rcb.Reads.next_nil (h : rcb.Reads cbFree []) :
    errSORTIRunNext cbFree rcb = (none, rcb) := if_pos h.cbRemaining

theorem slice_take {m : Memory} {a : Nat}
    (h : slice m a bs.length = bs) (hn : n ≤ bs.length) : slice m a n = bs.take n := by
  rw [← take_slice m hn, h]

theorem slice_drop {m : Memory} {a : Nat} (h : slice m a bs.length = bs) (hn : n ≤ bs.length) :
    slice m (a + n) (bs.length - n) = bs.drop n := by
  rw [← drop_slice m hn, h]

theorem assemble_spec {page : Memory} (hpos : 0 < n) (hn : n < srec.cbRec)
    (hsize : srec.cbRec < 65536) (hpage : slice page 0 (srec.cbRec - n) = srec.bytes.drop n) :
    psrec (assemble (srec.bytes.take n) page).1 0 = srec ∧
      (assemble (srec.bytes.take n) page).2 = srec.cbRec - n := by
  have hlen := srec.bytes_length
  have htake : (srec.bytes.take n).length = n := by
    rw [length_take]
    omega
  have hmin : cbSRECReadMin = 2 := rfl
  simp only [assemble, htake]
  generalize hassy : (if n < cbSRECReadMin then
    store (ofBytes (srec.bytes.take n)) n (slice page 0 (cbSRECReadMin - n)) else
    ofBytes (srec.bytes.take n)) = assy
  have hold : slice (ofBytes (srec.bytes.take n)) 0 n = srec.bytes.take n := by
    have h := slice_ofBytes (srec.bytes.take n)
    rwa [htake] at h
  -- whichever way, the buffer has the first part and at least the size
  have hparts : slice assy 0 n = srec.bytes.take n ∧ slice assy 0 2 = srec.bytes.take 2 := by
    by_cases hshort : n < cbSRECReadMin
    · rw [if_pos hshort] at hassy
      have hmore : slice page 0 (cbSRECReadMin - n) = (srec.bytes.drop n).take (2 - n) := by
        rw [hmin]
        apply slice_take
        · rw [length_drop, hlen]
          exact hpage
        · rw [length_drop]
          omega
      rw [← hassy, hmore]
      constructor
      · rw [(store_agreeOn _ n _ 0 n (.inl (by omega))).slice_eq]
        exact hold
      · have h := slice_store_append _ ((srec.bytes.drop n).take (2 - n)) (slice_ofBytes
          (srec.bytes.take n))
        have hrest : ((srec.bytes.drop n).take (2 - n)).length = 2 - n := by
          rw [length_take, length_drop]
          omega
        rw [htake, hrest, Nat.add_sub_cancel' (by omega), ← take_add,
          Nat.add_sub_cancel' (by omega)] at h
        exact h
    · rw [if_neg hshort] at hassy
      rw [← hassy]
      refine ⟨hold, ?_⟩
      have h := slice_take (n := 2) (slice_ofBytes (srec.bytes.take n)) (by omega)
      rwa [take_take, min_eq_left (by omega)] at h
  have hcbRec := cbSRECSizePsrec_of_slice hparts.2 hsize
  rw [hcbRec, hpage]
  refine ⟨?_, rfl⟩
  apply (psrec_of_slice _ hsize).1
  have hbegin : slice assy 0 (srec.bytes.take n).length = srec.bytes.take n := by
    rw [htake]
    exact hparts.1
  have h := slice_store_append assy (srec.bytes.drop n) hbegin
  rwa [htake, length_drop, hlen, Nat.add_sub_cancel' hn.le, take_append_drop] at h

theorem runNext_spec (hplace : Place cbFree rcb.cpage rcb.ibInMac pos)
    (hfront : slice (flat cbFree rcb.pages) pos srec.cbRec = srec.bytes)
    (hremaining : srec.cbRec ≤ rcb.cbRemaining) (hfit : srec.cbRec ≤ cbFree)
    (hsize : srec.cbRec < 65536) : (errSORTIRunNext cbFree rcb).1 = some srec ∧
      (errSORTIRunNext cbFree rcb).2.pages = rcb.pages ∧
      (errSORTIRunNext cbFree rcb).2.cbRemaining = rcb.cbRemaining - srec.cbRec ∧
      Place cbFree (errSORTIRunNext cbFree rcb).2.cpage (errSORTIRunNext cbFree rcb).2.ibInMac
        (pos + srec.cbRec) := by
  have hlen := srec.bytes_length
  have hheader : 4 ≤ srec.cbRec := by
    unfold Srec.cbRec cbSrecHeader
    omega
  have htwo : slice (flat cbFree rcb.pages) pos 2 = srec.bytes.take 2 :=
    slice_take (by rw [hlen]; exact hfront) (by omega)
  have hmin : cbSRECReadMin = 2 := rfl
  simp only [errSORTIRunNext, if_neg (by omega : rcb.cbRemaining ≠ 0)]
  have hnext := fun {n} => hplace.slice_next (n := n) rcb.pages
  have hpage := fun {n} => hplace.slice_page (n := n) rcb.pages
  have hadvance := fun {n} => hplace.advance (n := n)
  have hturned := fun {n} => hplace.turn (n := n)
  generalize hunread : cbLeft cbFree rcb.cpage rcb.ibInMac = cbUnread at *
  split
  · rename_i hwhole
    have hcbRec := cbSRECSizePsrec_of_slice ((hpage (by omega)).trans htwo) hsize
    rw [hcbRec] at hwhole ⊢
    refine ⟨congrArg some (psrec_of_slice ?_ hsize).1, rfl, rfl, hadvance hwhole.2⟩
    rw [hpage hwhole.2]
    exact hfront
  · rename_i hsplit
    split
    · rename_i hzero
      have hfirst := hnext hfit
      rw [hzero, add_zero, hfront] at hfirst
      obtain ⟨hread, hcbRec⟩ := psrec_of_slice hfirst hsize
      rw [hcbRec]
      refine ⟨congrArg some hread, rfl, rfl, ?_⟩
      have := hturned hfit
      rwa [hzero, add_zero] at this
    · rename_i hsome
      have hshort : cbUnread < srec.cbRec := by
        by_contra hge
        refine hsplit ⟨by omega, ?_⟩
        rw [cbSRECSizePsrec_of_slice ((hpage (by omega)).trans htwo) hsize]
        omega
      have hbegin : slice (rcb.pages (rcb.cpage - 1)) rcb.ibInMac cbUnread =
          srec.bytes.take cbUnread := by
        rw [hpage le_rfl]
        exact slice_take (by rw [hlen]; exact hfront) (by omega)
      have hend : slice (rcb.pages rcb.cpage) 0 (srec.cbRec - cbUnread) =
          srec.bytes.drop cbUnread := by
        rw [hnext (by omega), ← hlen]
        exact slice_drop (by rw [hlen]; exact hfront) (by omega)
      obtain ⟨hread, hcb⟩ := assemble_spec (by omega) hshort hsize hend
      rw [hbegin, hcb]
      refine ⟨congrArg some hread, rfl, ?_, ?_⟩
      · show rcb.cbRemaining - cbUnread - (srec.cbRec - cbUnread) = _
        omega
      · have hplace' := hturned (n := srec.cbRec - cbUnread) (by omega)
        rwa [show pos + cbUnread + (srec.cbRec - cbUnread) = pos + srec.cbRec by omega] at hplace'

theorem Rcb.Reads.next_cons (h : rcb.Reads cbFree (srec :: srecs)) (hfit : srec.cbRec ≤ cbFree)
    (hsize : srec.cbRec < 65536) : (errSORTIRunNext cbFree rcb).1 = some srec ∧
      (errSORTIRunNext cbFree rcb).2.Reads cbFree srecs := by
  obtain ⟨hremaining, pos, hplace, hbytes⟩ := h
  have hlen := srec.bytes_length
  have hstream : rcb.cbRemaining = srec.cbRec + (stream srecs).length := by
    rw [hremaining, stream_cons, length_append, hlen]
  obtain ⟨hfront, hrest⟩ := slice_append_inj hbytes
  rw [hlen] at hfront hrest
  obtain ⟨hread, hpages, hcb, hplace'⟩ := runNext_spec hplace hfront (by omega) hfit hsize
  have hleft : (errSORTIRunNext cbFree rcb).2.cbRemaining = (stream srecs).length := by omega
  exact ⟨hread, hleft, _, hplace', by rw [hpages, hleft]; exact hrest⟩

end Read

end EseLinux.ExternalSort
