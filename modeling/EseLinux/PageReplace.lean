import EseLinux.PageReorganize
import EseLinux.PageWrite

/-!
`Replace_` and `ReplaceFlags_` keep the layout invariant and every line but the replaced one.
-/

namespace EseLinux.PageReplace

open ByteMemory PageEdit PageFormat PageLayout PageReorganize PageTags PageWrite SlotLayout

/-- The page satisfies the invariant, has the tags of `p`, and only tag `k` may read
differently. -/
structure OnlyLine (p : Page) (k : Nat) (q : Page) : Prop where
  inv : LayoutInv q
  itagMicFree : q.itagMicFree = p.itagMicFree
  ctagReserved : q.ctagReserved = p.ctagReserved
  lineEq : ∀ j, j < p.itagMicFree → j ≠ k → line q j = line p j

variable {p : Page}

theorem OnlyLine.trans {q r : Page} {k : Nat} (h : OnlyLine p k q) (h' : OnlyLine q k r) :
    OnlyLine p k r where
  inv := h'.inv
  itagMicFree := h'.itagMicFree.trans h.itagMicFree
  ctagReserved := h'.ctagReserved.trans h.ctagReserved
  lineEq j hj hne := (h'.lineEq j (by rwa [h.itagMicFree]) hne).trans (h.lineEq j hj hne)

theorem onlyLine_of_edited {x : Page} {k lo hi mic free : Nat} {s : Slot} (hinv : LayoutInv p)
    (hk : k < p.itagMicFree) (h : Edited p k lo hi x s mic free)
    (hwin : p.cbPageHeader + hi + 4 * p.itagMicFree ≤ p.cbBuffer)
    (hout : ∀ j, j < p.itagMicFree → j ≠ k → p.tagCb j ≠ 0 →
      p.tagIb j + p.tagCb j ≤ lo ∨ hi ≤ p.tagIb j)
    (hvalid : Layout.Valid cbTag p.cbBufferData ⟨(slots p).set k s, mic, free⟩) :
    OnlyLine p k x := by
  have hkOn := hinv.tagOnPage hk
  have hslots : slots x = (slots p).set k s :=
    slots_eq_set s h.itagMicFree (fun j hj hne =>
      h.slot_of_ne hkOn (hinv.tagOnPage hj) hne (pbFromIb_le_ptag hwin hj)) h.slotEq
  refine ⟨⟨hinv.normal.of_sameShape h.shape, ?_⟩, h.itagMicFree, h.ctagReserved, ?_⟩
  · have hdata : x.cbBufferData = p.cbBufferData := by
      simp only [Page.cbBufferData, h.shape.cbBuffer, h.shape.cbPageHeader]
    simp only [layout, hslots, h.ibMicFree, h.cbFree, hdata]
    exact hvalid
  · intro j hj hne
    exact h.line_of_ne hkOn (hinv.tagOnPage hj) hne (pbFromIb_le_ptag hwin hj)
      (hinv.data_le_ptag hj hk) (hout j hj hne)

theorem ushort_of_nonneg (i : Int) (n : Nat) (h : i = n) (hn : n < 65536) : ushort i = n := by
  simp only [ushort]
  omega

variable (env : Env)

section Window

variable {p : Page} {k : Nat}

/-- The window of an edit that stays inside line `k` itself. -/
def ownWindow (p : Page) (k : Nat) : Nat × Nat :=
  if p.tagCb k = 0 then (0, 0) else (p.tagIb k, p.tagIb k + p.tagCb k)

theorem mem_ownWindow (hcb : p.tagCb k ≠ 0) :
    (ownWindow p k).1 ≤ p.tagIb k ∧ p.tagIb k + p.tagCb k ≤ (ownWindow p k).2 := by
  simp [ownWindow, hcb]

variable (hinv : LayoutInv p) (hk : k < p.itagMicFree)
include hinv hk

theorem ownWindow_fits : p.cbPageHeader + (ownWindow p k).2 + 4 * p.itagMicFree ≤ p.cbBuffer := by
  have hfits := hinv.fits
  have hbelow := hinv.below hk
  simp only [ownWindow]
  split
  case isTrue => simp only; omega
  case isFalse hcb =>
    omega

theorem ownWindow_le_ptag : p.pbFromIb (ownWindow p k).2 ≤ p.ptagFromItag k :=
  pbFromIb_le_ptag (ownWindow_fits hinv hk) hk

theorem ownWindow_apart {j : Nat} (hj : j < p.itagMicFree) (hne : j ≠ k) (hcb : p.tagCb j ≠ 0) :
    p.tagIb j + p.tagCb j ≤ (ownWindow p k).1 ∨ (ownWindow p k).2 ≤ p.tagIb j := by
  simp only [ownWindow]
  split
  case isTrue => exact Or.inr (Nat.zero_le _)
  case isFalse hcbk => exact hinv.apart hj hk hne hcb hcbk

theorem scrubTag_edited (ch : UInt8) :
    Edited p k (ownWindow p k).1 (ownWindow p k).2 (scrubTag env p k ch) (slot p k)
      p.ibMicFree p.cbFree := by
  simp only [scrubTag]
  split
  · refine (Edited.start p k _ _).writeData (ownWindow_le_ptag hinv hk) _
      (frame_fill _ _ _ _ fun a hlo hhi => ?_)
    have hown := mem_ownWindow (p := p) (k := k) (by omega)
    simp only [Page.pbFromIb] at *
    omega
  · exact Edited.start p k _ _

end Window

theorem replaceFlags_spec (hinv : LayoutInv p) (k fFlags : Nat)
    (hk : k < p.itagMicFree) : OnlyLine p k (replaceFlags p k fFlags) := by
  have hedit := (Edited.start p k (ownWindow p k).1 (ownWindow p k).2).tagSetFlags
    (hinv.tagOnPage hk) (ownWindow_le_ptag hinv hk) fFlags mem_ownWindow
  have hset : (slots p).set k (slot p k) = slots p := by
    have hlen : k < (slots p).length := by rwa [slots_length]
    have hget : slot p k = (slots p)[k] := (slots_getElem p k hlen).symm
    rw [hget, List.set_getElem_self]
  refine onlyLine_of_edited hinv hk hedit (ownWindow_fits hinv hk)
    (fun _ => ownWindow_apart hinv hk) ?_
  rw [hset]
  exact hinv.valid

variable {cbTotal : Nat}

section InPlace

variable {p : Page} {k : Nat}

/-- The line stays where it is: it shrinks, or it is the last one and can grow. -/
def StaysInPlace (p : Page) (k cbTotal : Nat) : Prop :=
  cbTotal ≤ p.tagCb k ∨
    (p.tagIb k + p.tagCb k = p.ibMicFree ∧ (cbTotal : Int) - p.tagCb k ≤ p.cbContiguousFree)

instance (p : Page) (k cbTotal : Nat) : Decidable (StaysInPlace p k cbTotal) :=
  inferInstanceAs (Decidable (_ ∨ _))

/-- The window of an in-place replacement: the line's old and new bytes. -/
def replaceWindow (p : Page) (k cbTotal : Nat) : Nat × Nat :=
  if p.tagCb k = 0 ∧ cbTotal = 0 then (0, 0)
  else (p.tagIb k, p.tagIb k + max (p.tagCb k) cbTotal)

variable (hinv : LayoutInv p) (hk : k < p.itagMicFree)
include hinv hk

theorem replaceWindow_fits (hstays : StaysInPlace p k cbTotal) :
    p.cbPageHeader + (replaceWindow p k cbTotal).2 + 4 * p.itagMicFree ≤ p.cbBuffer := by
  have hfits := hinv.fits
  have hbelow := hinv.below hk
  have hcont := hinv.contiguous
  simp only [StaysInPlace, hcont] at hstays
  simp only [replaceWindow]
  split
  case isTrue => simp only; omega
  case isFalse hne => simp only; omega

theorem replaceWindow_apart
    (hstays : StaysInPlace p k cbTotal) {j : Nat} (hj : j < p.itagMicFree) (hne : j ≠ k)
    (hcb : p.tagCb j ≠ 0) : p.tagIb j + p.tagCb j ≤ (replaceWindow p k cbTotal).1 ∨
      (replaceWindow p k cbTotal).2 ≤ p.tagIb j := by
  have hbelow := hinv.below hj hcb
  have happ : p.tagCb k ≠ 0 →
      p.tagIb j + p.tagCb j ≤ p.tagIb k ∨ p.tagIb k + p.tagCb k ≤ p.tagIb j :=
    hinv.apart hj hk hne hcb
  simp only [StaysInPlace] at hstays
  simp only [replaceWindow]
  split
  case isTrue => exact Or.inr (Nat.zero_le _)
  case isFalse => simp only; omega

theorem replaceInPlace_edited (hfree : cbTotal ≤ p.tagCb k + p.cbFree) (lo hi : Nat) :
    Edited p k lo hi (replaceInPlace p k ((p.tagCb k : Int) - cbTotal)) (slot p k)
      (if p.tagIb k + p.tagCb k = p.ibMicFree then p.tagIb k + cbTotal else p.ibMicFree)
      (p.cbFree + p.tagCb k - cbTotal) := by
  have hfits := hinv.fits
  have hacc := hinv.accounting
  have hmax := hinv.normal.cbBuffer_lt
  have hkOn := hinv.tagOnPage hk
  have hstart := Edited.start p k lo hi
  have hused : p.tagCb k ≤ used (slots p) := cb_le_used (slot_mem hk)
  have hcbFree : ushort ((p.cbFree : Int) + ((p.tagCb k : Int) - cbTotal)) =
      p.cbFree + p.tagCb k - cbTotal :=
    ushort_of_nonneg _ _ (by omega) (by omega)
  simp only [replaceInPlace]
  split
  case isTrue hlast =>
    have hmic : ushort ((p.ibMicFree : Int) - ((p.tagCb k : Int) - cbTotal)) =
        p.tagIb k + cbTotal :=
      ushort_of_nonneg _ _ (by omega) (by omega)
    have hset := hstart.setIbMicFree hkOn (ushort ((p.ibMicFree : Int) -
      ((p.tagCb k : Int) - cbTotal)))
    have hres := hset.setCbFree hkOn (ushort ((p.cbFree : Int) + ((p.tagCb k : Int) - cbTotal)))
    rw [hmic, hcbFree, Nat.mod_eq_of_lt (by omega), Nat.mod_eq_of_lt (by omega)] at hres
    rw [hset.cbFree, hmic, hcbFree]
    exact hres
  case isFalse hlast =>
    have hres := hstart.setCbFree hkOn
      (ushort ((p.cbFree : Int) + ((p.tagCb k : Int) - cbTotal)))
    rw [hcbFree, Nat.mod_eq_of_lt (by omega)] at hres
    rw [hcbFree]
    exact hres

theorem cbDataTotal_of_fits {rgdata : List Data}
    (hfree : cbDataTotal rgdata ≤ p.tagCb k + p.cbFree) :
    cbDataTotal rgdata % 65536 = cbDataTotal rgdata ∧
      Int.bmod ((p.tagCb k : Int) - (cbDataTotal rgdata : Nat)) 65536 =
        (p.tagCb k : Int) - (cbDataTotal rgdata : Nat) := by
  have hacc := hinv.accounting
  have hmax := hinv.normal.cbBuffer_lt
  have hused : p.tagCb k ≤ used (slots p) := cb_le_used (slot_mem hk)
  exact ⟨Nat.mod_eq_of_lt (by omega), Int.bmod_eq_of_le (by omega) (by omega)⟩

/-- The end of `Replace_`: the flags, the copy, and the scrubbing of the bytes that the line gives
up. -/
def finishReplace (env : Env) (x : Page) (k : Nat) (rgdata : List Data) (fFlags : Nat)
    (cbDiff : Int) : Page :=
  let q := copyData (x.tagSetFlags k fFlags) k rgdata
  if 0 < cbDiff ∧ env.fRuntimeScrubbingEnabled then
    q.setBuf (fill q.buf (q.pbFromIb (q.tagIb k + q.tagCb k)) cbDiff.toNat chPAGEReplaceFill)
  else q

variable (rgdata : List Data) (fFlags : Nat) (hfree : cbDataTotal rgdata ≤ p.tagCb k + p.cbFree)
  (hstays : StaysInPlace p k (cbDataTotal rgdata))
include hfree hstays

theorem replace_inPlace_eq : replace env p k rgdata fFlags = some (finishReplace env
      ((replaceInPlace p k ((p.tagCb k : Int) - cbDataTotal rgdata)).tagSetCb k
        (cbDataTotal rgdata)) k rgdata fFlags ((p.tagCb k : Int) - cbDataTotal rgdata)) := by
  obtain ⟨hmod, hdiff⟩ := cbDataTotal_of_fits hinv hk hfree
  have hcond : 0 ≤ (p.tagCb k : Int) - (cbDataTotal rgdata : Nat) ∨
      (p.tagIb k + p.tagCb k = p.ibMicFree ∧
        -((p.tagCb k : Int) - (cbDataTotal rgdata : Nat)) ≤ p.cbContiguousFree) := by
    simp only [StaysInPlace] at hstays
    omega
  simp only [replace, finishReplace, hmod, hdiff, if_pos hcond, Option.bind_eq_bind,
    Option.bind_some, Option.pure_def]
  split <;> rfl

theorem replace_inPlace_spec : ∃ q, replace env p k rgdata fFlags = some q ∧ OnlyLine p k q := by
  have hkOn := hinv.tagOnPage hk
  have hfits := replaceWindow_fits hinv hk hstays
  have hwin := pbFromIb_le_ptag hfits hk
  have hin : cbDataTotal rgdata ≠ 0 → (replaceWindow p k (cbDataTotal rgdata)).1 ≤ p.tagIb k ∧
        p.tagIb k + cbDataTotal rgdata ≤ (replaceWindow p k (cbDataTotal rgdata)).2 := by
    intro hne
    simp [replaceWindow, hne]
  have hcounters := replaceInPlace_edited hinv hk hfree
    (replaceWindow p k (cbDataTotal rgdata)).1 (replaceWindow p k (cbDataTotal rgdata)).2
  have hwritten := ((hcounters.tagSetCb hkOn (cbDataTotal rgdata)
    (hinv.normal.lt_two_pow (by omega))).tagSetFlags hkOn hwin fFlags hin).copyData hkOn hwin
    rgdata rfl hin
  have hvalid := hinv.valid_resize hk (cbDataTotal rgdata) hfree (by
    intro hgrow
    have hcont := hinv.contiguous
    simp only [StaysInPlace, hcont] at hstays
    omega)
  refine ⟨_, replace_inPlace_eq env hinv hk rgdata fFlags hfree hstays,
    onlyLine_of_edited hinv hk ?_ hfits (fun _ => replaceWindow_apart hinv hk hstays) hvalid⟩
  simp only [finishReplace]
  split
  case isTrue hscrub =>
    refine hwritten.writeData hwin _ ?_
    have hib := congrArg Slot.ib hwritten.slotEq
    have hcb := congrArg Slot.cb hwritten.slotEq
    simp only [slot] at hib hcb
    rw [hib, hcb, hwritten.shape.pbFromIb]
    refine frame_fill _ _ _ _ fun a hlo hhi => ?_
    have hne : ¬ (p.tagCb k = 0 ∧ cbDataTotal rgdata = 0) := by omega
    simp only [replaceWindow, if_neg hne, Page.pbFromIb] at *
    omega
  case isFalse => exact hwritten

end InPlace

section Moved

variable {p : Page} {k : Nat}

/-- The page that `replaceMoved` returns, with the size of the line set. -/
def movedTag (y : Page) (k cbTotal : Nat) : Page :=
  (((y.tagSetIb k y.ibMicFree).setIbMicFree (y.ibMicFree + cbTotal)).setCbFree
    (y.cbFree - cbTotal)).tagSetCb k cbTotal

structure MovedTo (p : Page) (k cbTotal : Nat) (y : Page) : Prop where
  only : OnlyLine p k y
  shape : SameShape p y
  free : y.cbFree = p.cbFree + p.tagCb k
  empty : y.tagCb k = 0
  room : y.cbPageHeader + (y.ibMicFree + cbTotal) + 4 * y.itagMicFree ≤ y.cbBuffer

theorem movedTag_edited {y : Page} (hmoved : MovedTo p k cbTotal y)
    (hk : k < p.itagMicFree) (hfree : cbTotal ≤ p.tagCb k + p.cbFree) :
    Edited y k y.ibMicFree (y.ibMicFree + cbTotal) (movedTag y k cbTotal) ⟨y.ibMicFree, cbTotal⟩
      (y.ibMicFree + cbTotal) (y.cbFree - cbTotal) := by
  have hinv := hmoved.only.inv
  have hyk : k < y.itagMicFree := by rwa [hmoved.only.itagMicFree]
  have hkOn := hinv.tagOnPage hyk
  have hmax := hinv.normal.cbBuffer_lt
  have hroom := hmoved.room
  have hyfree := hmoved.free
  have hacc := hinv.accounting
  have hib := (Edited.start y k y.ibMicFree (y.ibMicFree + cbTotal)).tagSetIb hkOn
    y.ibMicFree (hinv.normal.lt_two_pow (by omega))
  have hmicSet := hib.setIbMicFree hkOn (y.ibMicFree + cbTotal)
  have hplaced := hmicSet.setCbFree hkOn (y.cbFree - cbTotal)
  rw [Nat.mod_eq_of_lt (by omega), Nat.mod_eq_of_lt (by omega)] at hplaced
  exact hplaced.tagSetCb hkOn cbTotal (hinv.normal.lt_two_pow (by omega))

variable (hinv : LayoutInv p) (hk : k < p.itagMicFree)
include hinv hk

theorem vacateTag_spec : OnlyLine p k (vacateTag env p k) ∧ slot (vacateTag env p k) k = ⟨0, 0⟩ ∧
      (vacateTag env p k).cbFree = p.cbFree + p.tagCb k ∧
      SameShape p (vacateTag env p k) := by
  have hacc := hinv.accounting
  have hmax := hinv.normal.cbBuffer_lt
  have hused : p.tagCb k ≤ used (slots p) := cb_le_used (slot_mem hk)
  have hkOn := hinv.tagOnPage hk
  have hwin := ownWindow_le_ptag hinv hk
  have hzero : 0 < 2 ^ cbitTagIbCb p := Nat.two_pow_pos _
  have hscrubbed := scrubTag_edited env hinv hk chPAGEReplaceFill
  have hcleared := (((hscrubbed.setCbFree hkOn (p.cbFree + p.tagCb k)).tagSetIb hkOn 0
    hzero).tagSetCb hkOn 0 hzero).tagSetFlags hkOn hwin 0 (fun hne => absurd rfl hne)
  rw [Nat.mod_eq_of_lt (by omega)] at hcleared
  have hpage : vacateTag env p k = ((((scrubTag env p k chPAGEReplaceFill).setCbFree
      (p.cbFree + p.tagCb k)).tagSetIb k 0).tagSetCb k 0).tagSetFlags k 0 := by
    have hcb := congrArg Slot.cb hscrubbed.slotEq
    simp only [slot] at hcb
    simp only [vacateTag, hscrubbed.cbFree, hcb]
  rw [← hpage] at hcleared
  exact ⟨onlyLine_of_edited hinv hk hcleared (ownWindow_fits hinv hk)
    (fun _ => ownWindow_apart hinv hk) (hinv.valid_clear hk 0), hcleared.slotEq, hcleared.cbFree,
    hcleared.shape⟩

variable (rgdata : List Data) (fFlags : Nat) (hfree : cbDataTotal rgdata ≤ p.tagCb k + p.cbFree)
  (hmoves : ¬ StaysInPlace p k (cbDataTotal rgdata))
include hfree hmoves

theorem replace_moved_eq : ∃ y, MovedTo p k (cbDataTotal rgdata) y ∧
      freeSpace env (vacateTag env p k) (cbDataTotal rgdata) = some y ∧
      replace env p k rgdata fFlags = some (finishReplace env
        (movedTag y k (cbDataTotal rgdata)) k rgdata fFlags
        ((p.tagCb k : Int) - cbDataTotal rgdata)) := by
  obtain ⟨hmod, hdiff⟩ := cbDataTotal_of_fits hinv hk hfree
  have hcond : ¬ (0 ≤ (p.tagCb k : Int) - (cbDataTotal rgdata : Nat) ∨
      (p.tagIb k + p.tagCb k = p.ibMicFree ∧
        -((p.tagCb k : Int) - (cbDataTotal rgdata : Nat)) ≤ p.cbContiguousFree)) := by
    simp only [StaysInPlace] at hmoves
    omega
  have hgrows : ¬ (0 < (p.tagCb k : Int) - (cbDataTotal rgdata : Nat) ∧
      env.fRuntimeScrubbingEnabled = true) := by omega
  obtain ⟨hvac, hvacSlot, hvacFree, hvacShape⟩ := vacateTag_spec env hinv hk
  obtain ⟨y, hy, hrep, hroom, -⟩ := freeSpace_spec env hvac.inv (cbDataTotal rgdata)
    (by omega)
  have hcont := hrep.inv.contiguous
  have hymax := hrep.inv.normal.cbBuffer_lt
  have hmoved : MovedTo p k (cbDataTotal rgdata) y :=
    { only := hvac.trans ⟨hrep.inv, hrep.itagMicFree, hrep.ctagReserved,
        fun j hj _ => hrep.lineEq j hj⟩
      shape := hvacShape.trans hrep.shape
      free := hrep.cbFree.trans hvacFree
      empty := by
        rw [hrep.cbEq k (by rwa [hvac.itagMicFree])]
        exact congrArg Slot.cb hvacSlot
      room := by
        omega }
  refine ⟨y, hmoved, hy, ?_⟩
  have hyk : k < y.itagMicFree := by rwa [hmoved.only.itagMicFree]
  have hkOn := hrep.inv.tagOnPage hyk
  have hyfree := hmoved.free
  have hacc := hrep.inv.accounting
  have hcbFree : ushort ((y.cbFree : Int) - (cbDataTotal rgdata : Nat)) =
      y.cbFree - cbDataTotal rgdata := ushort_of_nonneg _ _ (by omega) (by omega)
  have hib := (Edited.start y k 0 0).tagSetIb hkOn y.ibMicFree
    (hrep.inv.normal.lt_two_pow (by have hfits := hrep.inv.fits; omega))
  have hmic : (y.tagSetIb k y.ibMicFree).ibMicFree = y.ibMicFree := hib.ibMicFree
  have hfree' : ((y.tagSetIb k y.ibMicFree).setIbMicFree
      (y.ibMicFree + cbDataTotal rgdata)).cbFree = y.cbFree :=
    (hib.setIbMicFree hkOn (y.ibMicFree + cbDataTotal rgdata)).cbFree
  simp only [replace, finishReplace, movedTag, hmod, hdiff, if_neg hcond, if_neg hgrows,
    replaceMoved, hy, Option.bind_eq_bind, Option.bind_some, Option.pure_def, hmic, hfree',
    hcbFree]

theorem replace_moved_spec : ∃ q, replace env p k rgdata fFlags = some q ∧ OnlyLine p k q := by
  obtain ⟨y, hmoved, -, heq⟩ := replace_moved_eq env hinv hk rgdata fFlags hfree hmoves
  have hyinv := hmoved.only.inv
  have hyk : k < y.itagMicFree := by rwa [hmoved.only.itagMicFree]
  have hkOn := hyinv.tagOnPage hyk
  have hroom := hmoved.room
  have hyfree := hmoved.free
  have hwin := pbFromIb_le_ptag hroom hyk
  have hwritten := ((movedTag_edited hmoved hk hfree).tagSetFlags hkOn hwin fFlags
    (fun _ => ⟨le_rfl, le_rfl⟩)).copyData hkOn hwin rgdata rfl
    (fun _ => ⟨le_rfl, le_rfl⟩)
  have honly := onlyLine_of_edited hyinv hyk hwritten hroom
    (fun j hj _ hcb => Or.inl (hyinv.below hj hcb))
    (hyinv.valid_place hyk _ hmoved.empty (by omega) (by omega))
  have hgrows : ¬ (0 < (p.tagCb k : Int) - (cbDataTotal rgdata : Nat) ∧
      env.fRuntimeScrubbingEnabled = true) := by
    simp only [StaysInPlace] at hmoves
    omega
  rw [finishReplace, if_neg hgrows] at heq
  exact ⟨_, heq, hmoved.only.trans honly⟩

end Moved

theorem replace_spec (hinv : LayoutInv p) (k : Nat)
    (hk : k < p.itagMicFree) (rgdata : List Data) (fFlags : Nat)
    (hfree : cbDataTotal rgdata ≤ p.tagCb k + p.cbFree) :
    ∃ q, replace env p k rgdata fFlags = some q ∧ OnlyLine p k q := by
  by_cases hstays : StaysInPlace p k (cbDataTotal rgdata)
  · exact replace_inPlace_spec env hinv hk rgdata fFlags hfree hstays
  · exact replace_moved_spec env hinv hk rgdata fFlags hfree hstays

end EseLinux.PageReplace
