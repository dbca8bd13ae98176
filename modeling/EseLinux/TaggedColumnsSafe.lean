import EseLinux.TaggedColumnsCheck

/-!
A record that passes `FIsValidTagfields` is safe to read exactly if every column that has a header
byte is long enough to hold it.
-/

namespace EseLinux.TaggedColumns

open ByteMemory OffsetTable List

namespace TagFields

/-- The column that a `TAGFLD` is for. -/
def column (t : TagFields) (itagfld : Nat) : Column := ⟨t.fid itagfld, t.fDerived itagfld⟩

variable {t : TagFields}

theorem fValidateFrom_spec {n i fidPrev : Nat} {fSaw : Bool}
    (h : t.fValidateFrom n i fSaw fidPrev = true) :
    (∀ j, i ≤ j → j < i + n → t.fValidColumn j = true) ∧
      ∀ j, i ≤ j → j + 1 < i + n → (t.column j).rank < (t.column (j + 1)).rank := by
  induction n generalizing i fSaw fidPrev with
  | zero => exact ⟨fun j hlo hhi => absurd hhi (by omega), fun j hlo hhi => absurd hhi (by omega)⟩
  | succ n ih =>
    simp only [fValidateFrom, Bool.and_eq_true] at h
    obtain ⟨⟨⟨-, -⟩, hcolumn⟩, hrest⟩ := h
    obtain ⟨hcolumns, hsorted⟩ := ih hrest
    refine ⟨fun j hlo hhi => ?_, fun j hlo hhi => ?_⟩
    · rcases Nat.eq_or_lt_of_le hlo with rfl | hlt
      · exact hcolumn
      · exact hcolumns j hlt (by omega)
    · rcases Nat.eq_or_lt_of_le hlo with rfl | hlt
      · -- the order of this column and the next is checked in the next round
        obtain ⟨n, rfl⟩ := Nat.exists_eq_succ_of_ne_zero (show n ≠ 0 by omega)
        simp only [fValidateFrom, Bool.and_eq_true] at hrest
        have horder := hrest.1.1.2
        have hfid : t.fid i < 65536 := word_lt _ _
        simp only [column, Column.rank]
        cases hd : t.fDerived i <;> cases hd' : t.fDerived (i + 1) <;>
          simp [hd, hd'] at horder ⊢ <;> omega
      · exact hsorted j hlt (by omega)

structure Checked (t : TagFields) : Prop where
  columns : ∀ i, i < t.cTaggedColumns → t.fValidColumn i = true
  sorted : ∀ i, i + 1 < t.cTaggedColumns → (t.column i).rank < (t.column (i + 1)).rank

section Checked

variable {i j : Nat}

theorem Checked.ib_le (h : Checked t) (hi : i < t.cTaggedColumns) : t.ib i ≤ t.ibNext i := by
  have hcolumn := h.columns i hi
  simp only [fValidColumn, Bool.and_eq_true, decide_eq_true_eq] at hcolumn
  exact hcolumn.1.1

theorem Checked.ibNext_le (h : Checked t) (hi : i < t.cTaggedColumns) :
    t.ibNext i ≤ t.cbTaggedColumns := by
  obtain ⟨k, hk⟩ : ∃ k, i + k + 1 = t.cTaggedColumns := ⟨t.cTaggedColumns - i - 1, by omega⟩
  induction k generalizing i with
  | zero =>
    rw [ibNext, if_neg (by omega)]
  | succ k ih =>
    have hlt : i + 1 < t.cTaggedColumns := by omega
    have hnext : t.ibNext i = t.ib (i + 1) := by rw [ibNext, if_pos hlt]
    rw [hnext]
    exact (h.ib_le hlt).trans (ih hlt (by omega))

theorem Checked.pbData_add_cbData (h : Checked t) (hi : i < t.cTaggedColumns) :
    t.pbData i + t.cbData i = t.ibNext i := by
  have hle := h.ib_le hi
  rw [pbData, cbData]
  omega

theorem Checked.rank_lt (h : Checked t) (hij : i < j) (hj : j < t.cTaggedColumns) :
    (t.column i).rank < (t.column j).rank := by
  induction j with
  | zero => exact absurd hij (Nat.not_lt_zero i)
  | succ j ih =>
    have hstep := h.sorted j hj
    rcases Nat.eq_or_lt_of_le (Nat.le_of_lt_succ hij) with rfl | hlt
    · exact hstep
    · exact (ih hlt (by omega)).trans hstep

theorem Checked.itagfldFind (h : Checked t) (hi : i < t.cTaggedColumns) :
    t.itagfldFind (t.fid i) (t.fDerived i) = i ∧ t.fIsEqual i (t.fid i) (t.fDerived i) = true := by
  have hfid (k : Nat) : t.fid k < 65536 := word_lt _ _
  have hkey (k : Nat) : cmpKey (t.fid k) (t.ibWord k) = (t.column k).rank := cmpKey_eq (hfid k)
  refine ⟨?_, by simp [fIsEqual]⟩
  refine lowerBound_eq (Nat.le_refl _) (Nat.zero_le _) (by omega) fun k _ hk => ?_
  have hnew : cmpKey (t.fid i) (newIbWord (t.fDerived i)) = (t.column i).rank :=
    cmpKey_new (t.column i) (hfid i)
  rw [decide_eq_true_iff, hkey, hnew]
  constructor
  · intro hlt
    rcases Nat.lt_trichotomy k i with hki | rfl | hik
    · exact hki
    · exact absurd hlt (Nat.lt_irrefl _)
    · exact absurd (h.rank_lt hik (by omega)) (Nat.lt_asymm hlt)
  · exact fun hki => h.rank_lt hki hi

end Checked

variable {hdr : UInt8}

section Read

variable {pb cb k : Nat}

theorem twoValues_within (h : TwoValues.fIsValid t.buf pb cb = true) :
    2 ≤ cb ∧ TwoValues.pbData pb + TwoValues.cbFirstValue t.buf pb +
      TwoValues.cbSecondValue t.buf pb cb = pb + cb := by
  rw [TwoValues.fIsValid, decide_eq_true_eq, cbColumnMost] at h
  simp only [TwoValues.pbData, TwoValues.cbSecondValue]
  omega

section

variable (h : MultiValues.fIsValid t.buf pb cb = true)
include h

theorem multiValues_fIsValid : (5 ≤ cb ∧ 4 ≤ MultiValues.ib t.buf pb 0 ∧
      MultiValues.ib t.buf pb 0 ≤ MultiValues.cbMultiValues cb ∧
      MultiValues.ib t.buf pb 0 % 2 = 0) ∧ ∀ imv, imv < MultiValues.cMultiValues t.buf pb →
      MultiValues.fValidInstance t.buf pb cb imv = true := by
  rw [MultiValues.fIsValid, Bool.and_eq_true, decide_eq_true_eq, all_eq_true] at h
  exact ⟨h.1, fun imv himv => h.2 imv (mem_range.mpr himv)⟩

theorem multiValues_ibNext {imv : Nat} (himv : imv < MultiValues.cMultiValues t.buf pb) :
    MultiValues.ib t.buf pb imv ≤ MultiValues.ibNext t.buf pb cb imv ∧
      MultiValues.ibNext t.buf pb cb imv + 1 ≤ cb := by
  obtain ⟨⟨hsize, -⟩, hinstances⟩ := multiValues_fIsValid h
  have hinstance (imv : Nat) (himv : imv < MultiValues.cMultiValues t.buf pb) :
      MultiValues.ib t.buf pb imv ≤ MultiValues.ibNext t.buf pb cb imv ∧
        MultiValues.ib t.buf pb imv ≤ MultiValues.cbMultiValues cb := by
    have hvalid := hinstances imv himv
    simp only [MultiValues.fValidInstance, Bool.and_eq_true, decide_eq_true_eq] at hvalid
    exact hvalid.1.1
  refine ⟨(hinstance imv himv).1, ?_⟩
  rw [MultiValues.ibNext]
  split
  · have hnext := (hinstance (imv + 1) ‹_›).2
    rw [MultiValues.cbMultiValues] at hnext
    omega
  · rw [MultiValues.cbMultiValues]
    omega

theorem multiValues_offsets {imv : Nat} (himv : imv < MultiValues.cMultiValues t.buf pb) :
    pb ≤ mvFormat.pword (MultiValues.pbMultiValues pb) imv ∧
      mvFormat.pword (MultiValues.pbMultiValues pb) imv + 1 < pb + cb := by
  obtain ⟨⟨hsize, hfirst, hle, heven⟩, -⟩ := multiValues_fIsValid h
  rw [MultiValues.cbMultiValues] at hle
  have hpword : mvFormat.pword (MultiValues.pbMultiValues pb) imv = pb + 1 + 2 * imv := rfl
  rw [MultiValues.cMultiValues, cbMVOffset] at himv
  rw [hpword]
  omega

theorem multiValues_count :
    2 ≤ MultiValues.cMultiValues t.buf pb ∧ MultiValues.cMultiValues t.buf pb < 65536 := by
  obtain ⟨⟨-, hfirst, -⟩, -⟩ := multiValues_fIsValid h
  have hlt : MultiValues.ib t.buf pb 0 < 65536 := lt_of_le_of_lt Nat.and_le_left (word_lt _ _)
  rw [MultiValues.cMultiValues, cbMVOffset]
  omega

end

theorem retrieveInstance_within {cbTagged : Nat}
    (htwo : Header.has hdr Header.fTwoValues = true → TwoValues.fIsValid t.buf pb cb = true)
    (hmulti : Header.has hdr Header.fTwoValues = false → MultiValues.fIsValid t.buf pb cb = true)
    (hpos : 1 ≤ k) (hle : pb + cb ≤ cbTagged) :
    (t.retrieveInstance hdr pb cb k).Within cbTagged := by
  rw [retrieveInstance]
  cases hhdr : Header.has hdr Header.fTwoValues with
  | true =>
    obtain ⟨hsize, hend⟩ := twoValues_within (htwo hhdr)
    rw [if_pos rfl]
    split
    · split <;> simp only [Retrieved.Within] <;> omega
    · trivial
  | false =>
    have hvalid := hmulti hhdr
    rw [if_neg Bool.false_ne_true]
    split
    · rename_i hcount
      have hlt := (multiValues_count hvalid).2
      have himv : ulPred k < MultiValues.cMultiValues t.buf pb := by
        rw [ulPred_eq hpos (by omega)]
        omega
      obtain ⟨hib, hnext⟩ := multiValues_ibNext hvalid himv
      rw [MultiValues.ibNext] at hib hnext
      simp only [Retrieved.Within, MultiValues.pbData, MultiValues.pbMultiValues,
        MultiValues.cbData]
      omega
    · trivial

end Read

section Column

variable {i k : Nat}

variable {m : Memory}

theorem offset_congr {m' : Memory} {pb : Nat} (imv : Nat)
    (h : ∀ a ∈ offsetReads pb imv, m a = m' a) :
    MultiValues.ib m pb imv = MultiValues.ib m' pb imv ∧
      MultiValues.fSeparatedInstance m pb imv = MultiValues.fSeparatedInstance m' pb imv := by
  have hword : word m (mvFormat.pword (MultiValues.pbMultiValues pb) imv) =
      word m' (mvFormat.pword (MultiValues.pbMultiValues pb) imv) := by
    rw [word, word, h _ mem_cons_self, h _ (mem_cons_of_mem _ mem_cons_self)]
  exact ⟨congrArg (· &&& mvFormat.mask) hword, by simp only [MultiValues.fSeparatedInstance, hword]⟩

theorem retrieveInstance_congr (hreads : ∀ a ∈ t.severalReads i hdr k, m a = t.buf a) :
    ({ t with buf := m } : TagFields).retrieveInstance hdr (t.pbData i) (t.cbData i) k =
      t.retrieveInstance hdr (t.pbData i) (t.cbData i) k := by
  simp only [severalReads] at hreads
  simp only [retrieveInstance]
  split at hreads
  case isTrue htwo =>
    simp only [if_pos htwo, TwoValues.cbFirstValue, TwoValues.cbSecondValue]
    split
    case isTrue hle => rw [hreads _ (by rw [if_pos hle]; exact mem_singleton_self _)]
    case isFalse => rfl
  case isFalse hmany =>
    have hcount : MultiValues.cMultiValues m (t.pbData i) =
        MultiValues.cMultiValues t.buf (t.pbData i) :=
      congrArg (· / cbMVOffset) (offset_congr 0 fun a ha => hreads a (mem_append_left _ ha)).1
    simp only [if_neg hmany, hcount]
    split
    case isTrue hle =>
      rw [if_pos hle] at hreads
      obtain ⟨hib, hseparated⟩ := offset_congr (ulPred k) fun a ha =>
        hreads a (mem_append_right _ (mem_append_left _ ha))
      simp only [MultiValues.pbData, MultiValues.cbData, hib, hseparated, hcount]
      split
      case isTrue hnext =>
        rw [(offset_congr _ fun a ha => hreads a (mem_append_right _ (mem_append_right _
          (by rwa [if_pos hnext])))).1]
      case isFalse => rfl
    case isFalse => rfl

/-- Besides the `TAGFLD` array, what is retrieved depends on the bytes of `headerReads` alone. -/
theorem retrieveFound_congr
    (hword : ∀ j, ({ t with buf := m } : TagFields).ibWord j = t.ibWord j)
    (hreads : ∀ a ∈ t.headerReads i k, m a = t.buf a) :
    ({ t with buf := m } : TagFields).retrieveFound i k = t.retrieveFound i k := by
  have hib (j : Nat) : ({ t with buf := m } : TagFields).ib j = t.ib j :=
    congrArg (· &&& t.format.mask) (hword j)
  have hnext : ({ t with buf := m } : TagFields).ibNext i = t.ibNext i := by
    simp only [ibNext, hib]
  grind [headerReads, retrieveFound, fNull, fExtendedInfo, header, pbData, cbData,
    retrieveInstance_congr]

theorem severalReads_inColumn {a : Nat} (htwo : Header.has hdr Header.fTwoValues = true →
      TwoValues.fIsValid t.buf (t.pbData i) (t.cbData i) = true)
    (hmany : Header.has hdr Header.fTwoValues = false →
      MultiValues.fIsValid t.buf (t.pbData i) (t.cbData i) = true)
    (hpos : 1 ≤ k) (ha : a ∈ t.severalReads i hdr k) : t.InColumn i a := by
  rw [severalReads] at ha
  split at ha
  · rename_i hhdr
    have hsize := (twoValues_within (htwo hhdr)).1
    split at ha
    · obtain rfl := mem_singleton.mp ha
      exact ⟨Nat.le_add_right _ _, by omega⟩
    · exact absurd ha not_mem_nil
  · rename_i hhdr
    have hvalid := hmany (Bool.eq_false_iff.mpr hhdr)
    have hcount := multiValues_count hvalid
    have hoffset (imv : Nat) (himv : imv < MultiValues.cMultiValues t.buf (t.pbData i))
        (hmem : a ∈ offsetReads (t.pbData i) imv) : t.InColumn i a := by
      obtain ⟨hlo, hhi⟩ := multiValues_offsets hvalid himv
      rw [offsetReads, mem_cons, mem_singleton] at hmem
      rcases hmem with rfl | rfl
      · exact ⟨hlo, by omega⟩
      · exact ⟨by omega, hhi⟩
    rw [mem_append] at ha
    rcases ha with hfirst | hrest
    · exact hoffset 0 (by omega) hfirst
    · split at hrest
      · rename_i hle
        have himv : ulPred k < MultiValues.cMultiValues t.buf (t.pbData i) := by
          rw [ulPred_eq hpos (by omega)]
          omega
        rw [mem_append] at hrest
        rcases hrest with hthis | hnext
        · exact hoffset _ himv hthis
        · split at hnext
          · exact hoffset _ ‹_› hnext
          · exact absurd hnext not_mem_nil
      · exact absurd hrest not_mem_nil

theorem Checked.header_valid (h : Checked t) (hi : i < t.cTaggedColumns)
    (hhdr : t.header i = some hdr) : t.fValidHeader i hdr = true := by
  have hcolumn := h.columns i hi
  simp only [fValidColumn, Bool.and_eq_true, hhdr] at hcolumn
  exact hcolumn.2

theorem Checked.null_size (h : Checked t) (hi : i < t.cTaggedColumns) (hnull : t.fNull i = true) :
    (t.fSmallPage = true → t.fExtendedInfo i = false) ∧
      (t.fSmallPage = false → t.cbData i = 1) := by
  have hcolumn := h.columns i hi
  simp only [fValidColumn, Bool.and_eq_true, hnull, Bool.not_true, Bool.false_or,
    decide_eq_true_eq, Bool.not_eq_true'] at hcolumn
  obtain ⟨⟨-, hflags, hnext⟩, -⟩ := hcolumn
  refine ⟨fun hsmall => by simpa [hsmall] using hflags, fun hlarge => ?_⟩
  simp only [hlarge, Bool.false_eq_true, if_false] at hnext
  rw [cbData, hnext]
  omega

theorem several_valid (h : t.fValidHeader i hdr = true)
    (hmulti : Header.has hdr Header.fMultiValues = true) :
    (Header.has hdr Header.fTwoValues = true →
      TwoValues.fIsValid t.buf (t.pbData i) (t.cbData i) = true) ∧
    (Header.has hdr Header.fTwoValues = false →
      MultiValues.fIsValid t.buf (t.pbData i) (t.cbData i) = true) := by
  simp only [fValidHeader, Bool.and_eq_true] at h
  obtain ⟨-, hcases⟩ := h
  refine ⟨fun htwo => ?_, fun htwo => ?_⟩
  · simp only [htwo, if_true, Bool.and_eq_true] at hcases
    exact hcases.2
  · simp only [htwo, Bool.false_eq_true, if_false, hmulti, if_true, Bool.and_eq_true] at hcases
    exact hcases.2

theorem Checked.retrieveFound_within (h : Checked t) (hi : i < t.cTaggedColumns)
    (hsize : t.fExtendedInfo i = true → 1 ≤ t.cbData i) (hpos : 1 ≤ k) :
    (t.retrieveFound i k).Within t.cbTaggedColumns := by
  have hend := h.pbData_add_cbData hi
  have hle := h.ibNext_le hi
  simp only [retrieveFound]
  split
  · trivial
  · cases hhdr : t.header i with
    | none =>
      simp only
      split
      · simp only [Retrieved.Within]
        omega
      · trivial
    | some hdr =>
      have hext : t.fExtendedInfo i = true := by
        rw [header] at hhdr
        split at hhdr
        · assumption
        · exact nomatch hhdr
      simp only
      split
      · rename_i hmulti
        obtain ⟨htwo, hmany⟩ := several_valid (h.header_valid hi hhdr) hmulti
        exact retrieveInstance_within htwo hmany hpos (by omega)
      · split
        · have hcb := hsize hext
          simp only [Retrieved.Within]
          omega
        · trivial

theorem Checked.headerReads_inColumn (h : Checked t) (hi : i < t.cTaggedColumns)
    (hsize : t.fExtendedInfo i = true → 1 ≤ t.cbData i) (hpos : 1 ≤ k) :
    ∀ a ∈ t.headerReads i k, t.InColumn i a := by
  intro a ha
  have hhold : (!t.fSmallPage || !t.fNull i && t.fExtendedInfo i) = true → 1 ≤ t.cbData i := by
    intro hread
    cases hsmall : t.fSmallPage with
    | true =>
      simp only [hsmall, Bool.not_true, Bool.false_or, Bool.and_eq_true] at hread
      exact hsize hread.2
    | false => exact hsize (by simp [fExtendedInfo, fExtendedInfoOf, fExtendedInfoBit, hsmall])
  rw [headerReads, mem_append] at ha
  rcases ha with hbyte | hrest
  · split at hbyte
    · rename_i hread
      obtain rfl := mem_singleton.mp hbyte
      exact ⟨le_rfl, Nat.lt_add_of_pos_right (hhold hread)⟩
    · exact absurd hbyte not_mem_nil
  · split at hrest
    · exact absurd hrest not_mem_nil
    · cases hhdr : t.header i with
      | none =>
        simp only [hhdr] at hrest
        exact absurd hrest not_mem_nil
      | some hdr =>
        have hvalid := h.header_valid hi hhdr
        simp only [hhdr] at hrest
        split at hrest
        · rename_i hmulti
          obtain ⟨htwo, hmany⟩ := several_valid hvalid hmulti
          exact severalReads_inColumn htwo hmany hpos hrest
        · exact absurd hrest not_mem_nil

theorem Checked.safe (h : Checked t)
    (hsize : ∀ i, i < t.cTaggedColumns → t.fExtendedInfo i = true → 1 ≤ t.cbData i)
    (fidFind : Nat) (fUseDerivedBit : Bool) (hpos : 1 ≤ k) (d : Defaults) :
    t.Safe fidFind fUseDerivedBit k d := by
  constructor
  · simp only [errRetrieveColumn]
    split
    · rename_i hfound
      exact h.retrieveFound_within hfound.1 (hsize _ hfound.1) hpos
    · rw [retrieveDefault]
      split
      · split
        · trivial
        · split <;> trivial
      · trivial
  · exact fun hfound => h.headerReads_inColumn hfound.1 (hsize _ hfound.1) hpos

theorem Checked.not_safe (h : Checked t) (hi : i < t.cTaggedColumns)
    (hext : t.fExtendedInfo i = true) (hempty : t.cbData i = 0) (d : Defaults) :
    ¬ t.Safe (t.fid i) (t.fDerived i) k d := by
  rintro ⟨-, hreads⟩
  obtain ⟨hfind, hequal⟩ := h.itagfldFind hi
  rw [hfind] at hreads
  have hread : t.pbData i ∈ t.headerReads i k := by
    rw [headerReads, mem_append]
    refine Or.inl ?_
    have hcond : (!t.fSmallPage || !t.fNull i && t.fExtendedInfo i) = true := by
      cases hnull : t.fNull i with
      | false => simp [hext]
      | true =>
        cases hsmall : t.fSmallPage with
        | false => rfl
        | true => exact absurd ((h.null_size hi hnull).1 hsmall) (by simp [hext])
    rw [if_pos hcond]
    exact mem_singleton_self _
  have hin := hreads ⟨hi, hequal⟩ _ hread
  rw [InColumn, hempty] at hin
  omega

end Column

end TagFields

theorem Rec.checked {r : Rec} (h : r.fIsValidTagfields = true) : r.tagFields.Checked := by
  simp only [Rec.fIsValidTagfields, Bool.and_eq_true] at h
  obtain ⟨hcolumns, hsorted⟩ := TagFields.fValidateFrom_spec h.2
  exact ⟨fun i hi => hcolumns i (Nat.zero_le i) (by omega),
    fun i hi => hsorted i (Nat.zero_le i) (by omega)⟩

/-- A record that passes the check is safe to read if and only if each column that has a header
byte has room for it. -/
theorem fIsValidTagfields_safe_iff (cbPage : Nat) (m : Memory) (prec cbRec : Nat) :
    ((recAt cbPage m prec cbRec).fIsValidTagfields = true →
      ∀ fid fDerived itagSequence d, 1 ≤ itagSequence →
        (recAt cbPage m prec cbRec).tagFields.Safe fid fDerived itagSequence d) ↔
    ((recAt cbPage m prec cbRec).fIsValidTagfields = true →
      ∀ i, i < (recAt cbPage m prec cbRec).tagFields.cTaggedColumns →
        (recAt cbPage m prec cbRec).tagFields.fExtendedInfo i = true →
        1 ≤ (recAt cbPage m prec cbRec).tagFields.cbData i) := by
  generalize recAt cbPage m prec cbRec = r
  constructor
  · intro hsafe hvalid i hi hext
    by_contra hempty
    exact (Rec.checked hvalid).not_safe hi hext (by omega) ⟨true, false, false, false⟩
      (hsafe hvalid _ _ 1 _ (le_rfl))
  · intro hsize hvalid fid fDerived itagSequence d hpos
    exact (Rec.checked hvalid).safe (hsize hvalid) fid fDerived hpos d

/-- A record on a 32K page whose only column is empty and has no room for its header byte. -/
def emptyColumn : Memory := ofBytes [0, 127, 4, 0, 0, 1, 4, 0]

/-- The record passes the check, and the column is read as minus one bytes behind the record. -/
theorem emptyColumn_unsafe :
    (recAt 32768 emptyColumn 0 8).fIsValidTagfields = true ∧
      (recAt 32768 emptyColumn 0 8).tagFields.errRetrieveColumn 256 false 1
        ⟨true, false, false, false⟩ = .data 5 (-1) .success ∧
      ¬ (recAt 32768 emptyColumn 0 8).tagFields.Safe 256 false 1 ⟨true, false, false, false⟩ := by
  have hvalid : (recAt 32768 emptyColumn 0 8).fIsValidTagfields = true := by decide
  refine ⟨hvalid, by decide, ?_⟩
  exact (Rec.checked hvalid).not_safe (i := 0) (by decide) (by decide) (by decide) _

/-- Two columns, each with a header byte. -/
def headedColumns : Memory :=
  ofBytes [0, 127, 4, 0, 0, 1, 8, 0, 1, 1, 10, 0, 0, 7, 0, 9, 9]

theorem headedColumns_safe :
    (recAt 32768 headedColumns 0 17).fIsValidTagfields = true ∧
      (recAt 32768 headedColumns 0 17).tagFields.Safe 257 false 1 ⟨true, false, false, false⟩ := by
  have hvalid : (recAt 32768 headedColumns 0 17).fIsValidTagfields = true := by decide
  refine ⟨hvalid,
    (fIsValidTagfields_safe_iff 32768 headedColumns 0 17).mpr ?_ hvalid _ _ _ _ le_rfl⟩
  intro _ i (hi : i < 2) _
  obtain rfl | rfl : i = 0 ∨ i = 1 := by omega
  · decide
  · decide

end EseLinux.TaggedColumns
