import EseLinux.LogDiff

/-!
`LGSetLVDiffs`: the differences between two images of a chunk of a long value.  The cursors into
both images always stand at the same offset, so the model has one.
-/

namespace EseLinux.LogDiff

open EditScript

def cbLong : Nat := 4

def cbSizeT : Nat := 8

section Model

variable (old new : List UInt8)

def cbMinSize : Nat := if new.length < old.length then new.length else old.length

/-- Skip the words that are the same, up to `ibMaxLong`. -/
def skipLongs (ibMaxLong : Nat) : Nat → Nat → Nat
  | 0, ib => ib
  | fuel + 1, ib =>
    if ib < ibMaxLong ∧ part old ib cbLong = part new ib cbLong then
      skipLongs ibMaxLong fuel (ib + cbLong)
    else ib

/-- From the first byte that differs to where the images agree for a whole `SIZE_T`: the cursor
behind it, and the size of the difference. -/
def resync : Nat → Nat → Nat → Nat × Nat
  | 0, ib, cbNewData => (ib, cbNewData)
  | fuel + 1, ib, cbNewData =>
    if cbMinSize old new ≤ ib + cbSizeT then
      (cbMinSize old new, cbNewData + (cbMinSize old new - ib))
    else if part old ib cbSizeT = part new ib cbSizeT then (ib + cbSizeT, cbNewData)
    else resync fuel (ib + cbSizeT) (cbNewData + cbSizeT)

/-- The main loop. The result is the differences, the cursor, and `fEndIsReached`. -/
def lvDiffLoop (fDiff2 : Bool) : Nat → Nat → List UInt8 → Bool → Option (List UInt8 × Nat × Bool)
  | 0, ib, diff, fEndIsReached => some (diff, ib, fEndIsReached)
  | fuel + 1, ib, diff, fEndIsReached =>
    if ib < cbMinSize old new then
      if old.getD ib 0 = new.getD ib 0 then lvDiffLoop fDiff2 fuel (ib + 1) diff fEndIsReached
      else
        let ibOld := ib
        let (ib, cbNewData) := resync old new (cbMinSize old new) ib 0
        let fTruncate := decide (new.length < old.length)
        let fEnd := decide (ib = cbMinSize old new)
        -- the last difference takes the longer image's tail along
        let cbOldData := if fEnd && fTruncate then cbNewData + (old.length - cbMinSize old new)
          else cbNewData
        let cbNewData := if fEnd && !fTruncate then cbNewData + (new.length - cbMinSize old new)
          else cbNewData
        match flgAppendDiff fDiff2 diff new.length ibOld cbOldData (part new ibOld cbNewData) with
        | none => none
        | some diff => lvDiffLoop fDiff2 fuel ib diff (fEndIsReached || fEnd)
    else some (diff, ib, fEndIsReached)

/-- The differences, or `none` on overflow. -/
def lgSetLVDiffs (fDiff2 : Bool) : Option (List UInt8) :=
  let cbMin := cbMinSize old new
  let ib := skipLongs old new (cbMin - cbMin % cbLong) (cbMin / cbLong) 0
  match lvDiffLoop old new fDiff2 cbMin ib [] (decide (old.length = new.length)) with
  | none => none
  | some (diff, ib, fEndIsReached) =>
    if diff = [] ∨ fEndIsReached = false then
      if diff = [] ∧ new.length = old.length then some []
      else flgAppendDiff fDiff2 diff new.length cbMin (old.length - cbMin)
        (part new ib (new.length - cbMin))
    else some diff

end Model

section Cursor

variable {cbPage : Nat} {images : Images cbPage} {diff : List UInt8} {ib : Nat}

theorem cbMinSize_le (old new : List UInt8) :
    cbMinSize old new ≤ old.length ∧ cbMinSize old new ≤ new.length := by
  rw [cbMinSize]
  split <;> omega

theorem part_one {xs : List UInt8} {i : Nat} (h : i < xs.length) : part xs i 1 = [xs.getD i 0] := by
  rw [part, List.drop_eq_getElem_cons h, List.take_succ_cons, List.take_zero,
    List.getD_eq_getElem _ _ h]

theorem skipLongs_logged {m : Nat} (hm : m ≤ cbMinSize images.old images.new)
    (hmod : m % cbLong = 0) (fuel : Nat) (hib : ib ≤ m) (hibMod : ib % cbLong = 0)
    (h : Logged images diff ib ib) :
    let ib' := skipLongs images.old images.new m fuel ib
    ib' ≤ m ∧ Logged images diff ib' ib' := by
  obtain ⟨hold, hnew⟩ := cbMinSize_le images.old images.new
  induction fuel generalizing ib with
  | zero => exact ⟨hib, h⟩
  | succ fuel ih =>
    rw [skipLongs]
    split
    case isTrue heq =>
      rw [cbLong] at hmod hibMod heq ⊢
      apply ih
      · omega
      · rw [cbLong]
        omega
      · exact h.keep (by omega) (by omega) heq.2
    · exact ⟨hib, h⟩

theorem resync_cases {old new : List UInt8} (fuel : Nat) {ibOld cb : Nat} (hib : ib = ibOld + cb)
    (hlt : ib < cbMinSize old new) (hfuel : cbMinSize old new - ib ≤ fuel) :
    let out := resync old new fuel ib cb
    (out.1 = cbMinSize old new ∧ ibOld + out.2 = out.1) ∨
      (out.1 < cbMinSize old new ∧ ib < out.1 ∧ out.1 = ibOld + out.2 + cbSizeT ∧
        part old (ibOld + out.2) cbSizeT = part new (ibOld + out.2) cbSizeT) := by
  induction fuel generalizing ib cb with
  | zero => omega
  | succ fuel ih =>
    rw [resync, cbSizeT]
    split
    · left
      exact ⟨rfl, by dsimp only; omega⟩
    case isFalse hinside =>
      split
      case isTrue heq =>
        right
        rw [← hib]
        exact ⟨by omega, by omega, rfl, heq⟩
      · rcases @ih (ib + 8) (cb + 8) (by omega) (by omega) (by omega) with
          hend | ⟨hlt', hgt, heq⟩
        · exact .inl hend
        · exact .inr ⟨hlt', by omega, heq⟩

end Cursor

section Loop

variable {cbPage : Nat} {images : Images cbPage} {diff : List UInt8} {ib : Nat}

/-- The loop is done: both images are used up, or nothing has been said yet about the tail of the
longer one. -/
def Reached (images : Images cbPage) (diff : List UInt8) (fEndIsReached : Bool) : Prop :=
  if fEndIsReached then Logged images diff images.old.length images.new.length
  else Logged images diff (cbMinSize images.old images.new) (cbMinSize images.old images.new)

def Running (images : Images cbPage) (ib : Nat) (diff : List UInt8) (fEndIsReached : Bool) : Prop :=
  (fEndIsReached = decide (images.old.length = images.new.length) ∧ Logged images diff ib ib) ∨
    (ib = cbMinSize images.old images.new ∧ Reached images diff fEndIsReached)

variable {fEnd : Bool}

theorem Running.reached (h : Running images ib diff fEnd)
    (hib : ib = cbMinSize images.old images.new) : Reached images diff fEnd := by
  rcases h with ⟨hfEnd, hlogged⟩ | ⟨-, hreached⟩
  · rw [hib] at hlogged
    rw [Reached]
    split
    case isTrue hend =>
      have hsame : images.old.length = images.new.length := by
        rw [hfEnd] at hend
        exact of_decide_eq_true hend
      have hmin : cbMinSize images.old images.new = images.old.length := by
        rw [cbMinSize, if_neg (by omega)]
      rw [hmin] at hlogged
      rwa [← hsame]
    · exact hlogged
  · exact hreached

theorem running_diff {cbMax cb ib' cbMin : Nat} {diff' : List UInt8}
    (hcbMin : cbMinSize images.old images.new = cbMin) (h : Logged images diff ib ib)
    (hfEnd : fEnd = decide (images.old.length = images.new.length)) (hlt : ib < cbMin)
    (hout : resync images.old images.new cbMin ib 0 = (ib', cb))
    (happend : flgAppendDiff (fDiff2 cbPage) diff cbMax ib
      (if decide (ib' = cbMin) && decide (images.new.length < images.old.length) then
        cb + (images.old.length - cbMin) else cb)
      (part images.new ib
        (if decide (ib' = cbMin) && !decide (images.new.length < images.old.length) then
          cb + (images.new.length - cbMin) else cb)) = some diff') :
    ib < ib' ∧ ib' ≤ cbMin ∧ Running images ib' diff' (fEnd || decide (ib' = cbMin)) := by
  obtain ⟨hold, hnew⟩ := cbMinSize_le images.old images.new
  have hmin : cbMinSize images.old images.new =
    if images.new.length < images.old.length then images.new.length else images.old.length := rfl
  have hcases := @resync_cases ib images.old images.new cbMin ib 0 (add_zero ib).symm
    (by rwa [hcbMin]) (by rw [hcbMin]; exact Nat.sub_le _ _)
  rw [hcbMin] at hold hnew hmin hcases
  rw [hout] at hcases
  dsimp only at hcases
  rcases hcases with ⟨hend, hcb⟩ | ⟨hinside, hgt, hnext, hequal⟩
  · refine ⟨by omega, by omega, .inr ⟨hend.trans hcbMin.symm, ?_⟩⟩
    rw [decide_eq_true hend, Bool.true_and, Bool.true_and] at happend
    rw [decide_eq_true hend, Bool.or_true, Reached, if_pos rfl]
    by_cases htruncate : images.new.length < images.old.length
    · rw [if_pos htruncate] at hmin
      rw [decide_eq_true htruncate, if_pos rfl, if_neg (by decide)] at happend
      have hlogged := h.append happend rfl (by omega) (by omega)
      rwa [show ib + (cb + (images.old.length - cbMin)) = images.old.length by omega,
        show ib + cb = images.new.length by omega] at hlogged
    · rw [if_neg htruncate] at hmin
      rw [decide_eq_false htruncate, if_neg (by decide), if_pos (by decide)] at happend
      have hlogged := h.append happend rfl (by omega) (by omega)
      rwa [show ib + (cb + (images.new.length - cbMin)) = images.new.length by omega,
        show ib + cb = images.old.length by omega] at hlogged
  · rw [decide_eq_false hinside.ne, Bool.false_and, Bool.false_and, if_neg (by decide),
      if_neg (by decide)] at happend
    rw [decide_eq_false hinside.ne, Bool.or_false]
    have hlogged := h.append happend rfl (by omega) (by omega)
    refine ⟨hgt, by omega, .inl ⟨hfEnd, ?_⟩⟩
    rw [hnext]
    exact hlogged.keep (by omega) (by omega) hequal

theorem lvDiffLoop_reached (fuel : Nat) {out : List UInt8 × Nat × Bool}
    (hib : ib ≤ cbMinSize images.old images.new)
    (hfuel : cbMinSize images.old images.new - ib ≤ fuel) (h : Running images ib diff fEnd)
    (hloop : lvDiffLoop images.old images.new (fDiff2 cbPage) fuel ib diff fEnd = some out) :
    out.2.1 = cbMinSize images.old images.new ∧ Reached images out.1 out.2.2 := by
  obtain ⟨hold, hnew⟩ := cbMinSize_le images.old images.new
  induction fuel generalizing ib diff fEnd with
  | zero =>
    obtain rfl := Option.some.inj hloop
    have hend : ib = cbMinSize images.old images.new := by omega
    exact ⟨hend, h.reached hend⟩
  | succ fuel ih =>
    rw [lvDiffLoop] at hloop
    split at hloop
    case isTrue hlt =>
      obtain ⟨hfEnd, hlogged⟩ : fEnd = decide (images.old.length = images.new.length) ∧
          Logged images diff ib ib := by
        rcases h with hrunning | ⟨hend, -⟩
        · exact hrunning
        · omega
      split at hloop
      case isTrue hbyte =>
        refine ih (by omega) (by omega) (.inl ⟨hfEnd, hlogged.keep ?_ ?_ ?_⟩) hloop
        · omega
        · omega
        · rw [part_one (by omega), part_one (by omega), hbyte]
      · generalize hout : resync images.old images.new (cbMinSize images.old images.new) ib 0 =
          out' at hloop
        dsimp only at hloop
        split at hloop
        · cases hloop
        case h_2 happend =>
          obtain ⟨hgt, hle, hrunning⟩ := running_diff rfl hlogged hfEnd hlt hout happend
          exact ih hle (by omega) hrunning hloop
    · obtain rfl := Option.some.inj hloop
      have hend : ib = cbMinSize images.old images.new := by omega
      exact ⟨hend, h.reached hend⟩

end Loop

section Whole

variable {cbPage : Nat} (images : Images cbPage) {diff : List UInt8}

theorem errLGGetAfterImage_nil :
    errLGGetAfterImage (fDiff2 cbPage) cbPage [] images.old = some images.old := by
  have hlt := images.old_lt
  rw [errLGGetAfterImage, errLGGetAfterImageIn, afterImageLoop, if_pos rfl]
  simp only [Patch.finish, Patch.start, List.nil_append, List.drop_zero]
  exact if_neg (by omega)

variable {images}

theorem Logged.after_end (h : Logged images diff images.old.length images.new.length) :
    errLGGetAfterImage (fDiff2 cbPage) cbPage diff images.old = some images.new :=
  h.finish (by rw [List.drop_length, List.drop_length])

theorem Logged.eq_of_nil (h : errLGGetAfterImage (fDiff2 cbPage) cbPage [] images.old =
    some images.new) : images.old = images.new :=
  Option.some.inj ((errLGGetAfterImage_nil images).symm.trans h)

theorem afterImage_of_lvDiffs
    (h : lgSetLVDiffs images.old images.new (fDiff2 cbPage) = some diff) :
    errLGGetAfterImage (fDiff2 cbPage) cbPage diff images.old = some images.new := by
  obtain ⟨hold, hnew⟩ := cbMinSize_le images.old images.new
  have hmin : cbMinSize images.old images.new =
    if images.new.length < images.old.length then images.new.length else images.old.length := rfl
  obtain ⟨hskip, hlogged⟩ := skipLongs_logged
    (Nat.sub_le _ (cbMinSize images.old images.new % cbLong)) (by rw [cbLong]; omega)
    (cbMinSize images.old images.new / cbLong) (Nat.zero_le _) rfl (logged_start images)
  simp only [lgSetLVDiffs] at h
  generalize skipLongs images.old images.new _ _ 0 = ib at hskip hlogged h
  split at h
  · cases h
  case h_2 diff' ib' fEnd hloop =>
    obtain ⟨hib', hreached⟩ := lvDiffLoop_reached _ (by omega) (by omega) (.inl ⟨rfl, hlogged⟩)
      hloop
    dsimp only at hib' hreached
    rw [Reached] at hreached
    split at h
    case isTrue hopen =>
      split at h
      case isTrue hsame =>
        obtain rfl := Option.some.inj h
        have hmin' : cbMinSize images.old images.new = images.old.length := by
          rw [hmin, if_neg (by omega)]
        have hend : Logged images [] images.old.length images.new.length := by
          rw [hsame.1, hmin', hsame.2, ite_self] at hreached
          rwa [hsame.2]
        exact hend.after_end
      case isFalse hdiffer =>
        -- only the tail of the longer image is left
        have htail : Logged images diff' (cbMinSize images.old images.new)
            (cbMinSize images.old images.new) := by
          cases fEnd with
          | false => exact hreached
          | true =>
            have hnil : diff' = [] := hopen.resolve_right (by decide)
            have hlogged' : Logged images diff' _ _ := hreached
            have heq := Logged.eq_of_nil (hnil ▸ hlogged'.after_end)
            exact absurd ⟨hnil, by rw [heq]⟩ hdiffer
        rw [hib'] at h
        have hend := htail.append h rfl (by omega) (by omega)
        rw [Nat.add_sub_cancel' hold, Nat.add_sub_cancel' hnew] at hend
        exact hend.after_end
    case isFalse hdone =>
      obtain rfl := Option.some.inj h
      have hfEnd : fEnd = true := by
        cases fEnd
        · exact absurd (.inr rfl) hdone
        · rfl
      rw [if_pos hfEnd] at hreached
      exact hreached.after_end

end Whole

/-- The differences of two images of a chunk rebuild the new image from the old one, and there are
none only if the images are the same. -/
theorem lgSetLVDiffs_roundTrip {cbPage : Nat} (images : Images cbPage) (diff : List UInt8)
    (h : lgSetLVDiffs images.old images.new (fDiff2 cbPage) = some diff) :
    errLGGetAfterImage (fDiff2 cbPage) cbPage diff images.old = some images.new ∧
      (diff = [] → images.old = images.new) := by
  have hafter := afterImage_of_lvDiffs h
  refine ⟨hafter, fun hnil => ?_⟩
  rw [hnil] at hafter
  exact Logged.eq_of_nil hafter

/-- A chunk of twenty zeros in which one byte changes and which loses its last byte. -/
def chunkImages : Images 4096 where
  old := List.replicate 20 0
  new := List.replicate 9 0 ++ 7 :: List.replicate 9 0
  page_le := by decide
  old_lt := by decide
  new_lt := by decide

theorem chunkImages_roundTrip :
    ∃ diff, lgSetLVDiffs chunkImages.old chunkImages.new (fDiff2 4096) = some diff ∧
      errLGGetAfterImage (fDiff2 4096) 4096 diff chunkImages.old = some chunkImages.new := by
  have hdiff : lgSetLVDiffs chunkImages.old chunkImages.new (fDiff2 4096) =
    some [9, 0, 10, 11, 7, 0, 0, 0, 0, 0, 0, 0, 0, 0] := by decide
  exact ⟨_, hdiff, (lgSetLVDiffs_roundTrip chunkImages _ hdiff).1⟩

end EseLinux.LogDiff
