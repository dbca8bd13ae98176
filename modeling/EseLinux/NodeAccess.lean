import EseLinux.PageFormat

/-!
Reading a node of a page whose bytes may be corrupt: `CPAGE::GetPtr_` and the node accessor
`ErrNDIGetKeydataflags`, both with bounds checking, as the release build compiles them.
-/

namespace EseLinux.NodeAccess

open ByteMemory PageFormat

/-- A pointer a reader gets: null, a byte of the page buffer, or an address that is in no
buffer, such as the `(VOID *)-29` of an empty tag. -/
inductive Pv
  | null
  | invalid
  | page (a : Nat)
deriving DecidableEq, Repr

def Pv.add : Pv → Nat → Pv
  | .page a, cb => .page (a + cb)
  | pv, _ => pv

structure Line where
  pv : Pv
  cb : Nat
  fFlags : Nat
deriving DecidableEq, Repr

structure Data where
  pv : Pv
  cb : Int
deriving DecidableEq, Repr

structure KeyDataFlags where
  keyPrefix : Data
  keySuffix : Data
  data : Data
  fFlags : Nat
deriving DecidableEq, Repr

inductive NodeErr
  | pageTagCorrupted
  | nodeCorrupted
deriving DecidableEq, Repr

def pbDataStart (p : Page) : Nat := p.cbPageHeader

/-- The last byte below the tag array; a corrupt tag count may put it before the buffer. -/
def pbDataEnd (p : Page) : Int := (p.cbBuffer : Int) - p.cbTagArray - 1

def fOnPage (p : Page) (pb cb : Nat) : Bool :=
  decide (pb < p.cbBuffer ∧ (cb = 0 ∨ pb + cb ≤ p.cbBuffer))

def fOnData (p : Page) (pb cb : Nat) : Bool :=
  decide (pbDataStart p ≤ pb ∧ (pb : Int) < pbDataEnd p ∧
    pbDataStart p ≤ pb + cb - 1 ∧ (pb : Int) + cb - 1 ≤ pbDataEnd p)

def getPtr (p : Page) (itag : Nat) : Line × Option NodeErr :=
  let ptag := p.ptagFromItag itag
  if ptag < pbDataStart p ∨ p.cbBuffer < ptag + cbTag - 1 then
    (⟨.null, 0, 0⟩, some .pageTagCorrupted)
  else if p.tagCb itag = 0 then
    (⟨.invalid, 0, p.tagFFlags itag⟩,
      if p.ctagReserved ≤ itag then some .pageTagCorrupted else none)
  else
    let pbLine := p.pbFromIb (p.tagIb itag)
    if fOnData p pbLine (p.tagCb itag) then
      (⟨.page pbLine, p.tagCb itag, p.tagFFlags itag⟩, none)
    else
      let fFlagsOnPage := p.fSmallPageFormat || decide ((pbLine : Int) + 1 < pbDataEnd p)
      (⟨.page pbLine, p.tagCb itag, if fFlagsOnPage then p.tagFFlags itag else 0⟩,
        some .pageTagCorrupted)

def fNDCompressed : Nat := 4

def usNDCbKeyMask : Nat := 0x1fff

def cbKeyCount : Nat := 2

def cbPrefixOverhead : Nat := 2

def cbSplitBuffer : Nat := 16

def fCompressed (fFlags : Nat) : Bool :=
  decide (fFlags &&& fNDCompressed ≠ 0)

def cbKeyCountTotal (fFlags : Nat) : Nat :=
  cbKeyCount + if fCompressed fFlags then cbPrefixOverhead else 0

/-- The key counts of the line at `pb`: the prefix count stands only in compressed lines. -/
def cbKeyPrefix (p : Page) (pb fFlags : Nat) : Nat :=
  if fCompressed fFlags then word p.buf pb &&& usNDCbKeyMask else 0

def cbKeySuffix (p : Page) (pb fFlags : Nat) : Nat :=
  word p.buf (pb + cbKeyCountTotal fFlags - cbKeyCount) &&& usNDCbKeyMask

def ndiLineToKeydataflags (p : Page) (pb cb fFlags : Nat) : KeyDataFlags × Option NodeErr :=
  let cbTotal := cbKeyCountTotal fFlags
  let cbSuffix := cbKeySuffix p pb fFlags
  ({ keyPrefix := ⟨.null, cbKeyPrefix p pb fFlags⟩
     keySuffix := ⟨.page (pb + cbTotal), cbSuffix⟩
     data := ⟨.page (pb + cbTotal + cbSuffix), (cb : Int) - cbSuffix - cbTotal⟩
     fFlags := fFlags },
    -- the DEBUG build compares `cbSuffix` with `cb - cbTotal` instead
    if cb ≤ cbTotal ∨ cb ≤ cbSuffix then some .nodeCorrupted else none)

/-- The prefix of a compressed node stands in the external header. An external header of no
bytes is the state of a page in the middle of a split and passes. -/
def ndiSetPrefix (p : Page) (kdf : KeyDataFlags) : KeyDataFlags × Option NodeErr :=
  let (line, err) := getPtr p 0
  if err.isSome ∧ line.pv = .null then
    ({ kdf with keyPrefix := ⟨.null, 0⟩ }, err)
  else
    let keyPrefix : Data :=
      if !p.fRootPage then ⟨line.pv, kdf.keyPrefix.cb⟩
      else if p.fSpaceTree then ⟨line.pv.add cbSplitBuffer, kdf.keyPrefix.cb⟩
      else ⟨.null, 0⟩
    let errPrefix :=
      if (line.cb : Int) < keyPrefix.cb ∧ line.cb ≠ 0 then some .nodeCorrupted else none
    ({ kdf with keyPrefix := keyPrefix }, err.or errPrefix)

def nullKdf : KeyDataFlags := ⟨⟨.null, 0⟩, ⟨.null, 0⟩, ⟨.null, 0⟩, 0⟩

def errNDIGetKeydataflags (p : Page) (iline : Nat) : KeyDataFlags × Option NodeErr :=
  let (line, err) := getPtr p (iline + p.ctagReserved)
  match line.pv with
  | .page pb =>
    if err.isSome ∧ !fOnPage p pb (cbKeyCountTotal line.fFlags) then (nullKdf, err)
    else
      let (kdf, errLine) := ndiLineToKeydataflags p pb line.cb line.fFlags
      if fCompressed kdf.fFlags then
        let (kdf, errPrefix) := ndiSetPrefix p kdf
        (kdf, (err.or errLine).or errPrefix)
      else
        ({ kdf with keyPrefix := ⟨.null, 0⟩ }, err.or errLine)
  -- a line's tag is never a reserved one, so these pointers come with an error
  | _ => (nullKdf, err)

section Reads

variable {p : Page} {itag iline : Nat} {line : Line} {kdf : KeyDataFlags}

theorem getPtr_ok (h : getPtr p itag = (line, none)) :
    (p.tagCb itag = 0 ∧ itag < p.ctagReserved ∧ line = ⟨.invalid, 0, p.tagFFlags itag⟩) ∨
      (p.tagCb itag ≠ 0 ∧ fOnData p (p.pbFromIb (p.tagIb itag)) (p.tagCb itag) ∧
        line = ⟨.page (p.pbFromIb (p.tagIb itag)), p.tagCb itag, p.tagFFlags itag⟩) := by
  unfold getPtr at h
  dsimp only at h
  split at h
  · cases h
  · split at h
    · rename_i hcb
      obtain ⟨rfl, herr⟩ := Prod.mk.inj h
      split at herr
      · cases herr
      · rename_i hitag
        exact .inl ⟨hcb, Nat.lt_of_not_le hitag, rfl⟩
    · rename_i hcb
      split at h
      · rename_i hon
        obtain ⟨rfl, -⟩ := Prod.mk.inj h
        exact .inr ⟨hcb, hon, rfl⟩
      · cases h

theorem ndiSetPrefix_ok {kdf' : KeyDataFlags} (h : ndiSetPrefix p kdf = (kdf', none)) :
    ∃ keyPrefix, kdf' = { kdf with keyPrefix := keyPrefix } ∧ (¬ (p.fRootPage ∧ p.fSpaceTree) →
        keyPrefix.cb = 0 ∨
        (keyPrefix = ⟨.invalid, kdf.keyPrefix.cb⟩ ∧ p.tagCb 0 = 0) ∨
        (keyPrefix = ⟨.page (p.pbFromIb (p.tagIb 0)), kdf.keyPrefix.cb⟩ ∧
          kdf.keyPrefix.cb ≤ p.tagCb 0 ∧ fOnData p (p.pbFromIb (p.tagIb 0)) (p.tagCb 0))) := by
  obtain ⟨⟨line, err⟩, hptr⟩ : ∃ r, getPtr p 0 = r := ⟨_, rfl⟩
  simp only [ndiSetPrefix, hptr] at h
  cases err with
  | some e =>
    split at h <;> cases h
  | none =>
    simp only [Option.isSome_none, Bool.false_eq_true, false_and, if_false, Option.none_or] at h
    obtain ⟨rfl, herr⟩ := Prod.mk.inj h
    refine ⟨_, rfl, fun hroot => ?_⟩
    cases hr : p.fRootPage with
    | true =>
      have hspace : p.fSpaceTree = false := by simpa [hr] using hroot
      simp [hspace]
    | false =>
      simp only [hr, Bool.not_false, if_true, ite_eq_right_iff, reduceCtorEq, imp_false,
        not_and, not_not] at herr ⊢
      obtain ⟨hcb, -, rfl⟩ | ⟨hcb, hon, rfl⟩ := getPtr_ok hptr
      · exact .inr (.inl ⟨rfl, hcb⟩)
      · refine .inr (.inr ⟨rfl, ?_, hon⟩)
        exact Int.not_lt.mp fun hlt => hcb (herr hlt)

theorem ndiLineToKeydataflags_ok {pb cb fFlags : Nat} :
    (ndiLineToKeydataflags p pb cb fFlags).2 = none ↔
      cbKeyCountTotal fFlags < cb ∧ cbKeySuffix p pb fFlags < cb := by
  simp only [ndiLineToKeydataflags, ite_eq_right_iff, reduceCtorEq, imp_false, not_or, not_le]

theorem errNDIGetKeydataflags_ok (h : errNDIGetKeydataflags p iline = (kdf, none)) :
    let itag := iline + p.ctagReserved
    let pb := p.pbFromIb (p.tagIb itag)
    let kdfLine := (ndiLineToKeydataflags p pb (p.tagCb itag) (p.tagFFlags itag)).1
    fOnData p pb (p.tagCb itag) ∧ cbKeyCountTotal (p.tagFFlags itag) < p.tagCb itag ∧
      cbKeySuffix p pb (p.tagFFlags itag) < p.tagCb itag ∧
      (kdf = { kdfLine with keyPrefix := ⟨.null, 0⟩ } ∨ ndiSetPrefix p kdfLine = (kdf, none)) := by
  obtain ⟨⟨line, err⟩, hptr⟩ : ∃ r, getPtr p (iline + p.ctagReserved) = r := ⟨_, rfl⟩
  simp only [errNDIGetKeydataflags, hptr] at h
  obtain rfl : err = none := by
    cases err with
    | none => rfl
    | some e =>
      cases hpv : line.pv <;> simp only [hpv, Option.some_or] at h
      · cases h
      · cases h
      · split at h
        · cases h
        · split at h <;> cases h
  obtain ⟨-, hitag, -⟩ | ⟨-, hon, rfl⟩ := getPtr_ok hptr
  · omega
  · simp only [Option.isSome_none, Bool.false_eq_true, false_and, if_false, Option.none_or] at h
    split at h
    · obtain ⟨hkdf, herr⟩ := Prod.mk.inj h
      obtain ⟨hline, hkeyPrefix⟩ := Option.or_eq_none_iff.mp herr
      obtain ⟨htotal, hsuffix⟩ := ndiLineToKeydataflags_ok.mp hline
      exact ⟨hon, htotal, hsuffix, .inr (Prod.ext hkdf hkeyPrefix)⟩
    · obtain ⟨hkdf, hline⟩ := Prod.mk.inj h
      obtain ⟨htotal, hsuffix⟩ := ndiLineToKeydataflags_ok.mp hline
      exact ⟨hon, htotal, hsuffix, .inl hkdf.symm⟩

end Reads

/-- The bytes of `d` lie between `lo` and `hi`, and their number is not negative. -/
structure Within (d : Data) (lo hi : Int) : Prop where
  nonneg : 0 ≤ d.cb
  inside : d.cb = 0 ∨ ∃ a : Nat, d.pv = .page a ∧ lo ≤ a ∧ a + d.cb ≤ hi

def InData (p : Page) (d : Data) : Prop :=
  Within d (pbDataStart p) (pbDataEnd p + 1)

def InLine (p : Page) (itag : Nat) (d : Data) : Prop :=
  Within d (p.pbFromIb (p.tagIb itag)) (p.pbFromIb (p.tagIb itag) + p.tagCb itag)

/-- All three parts lie in the data area, the suffix and the data in the node's line. -/
structure NodeInBounds (p : Page) (iline : Nat) (kdf : KeyDataFlags) : Prop where
  keyPrefix : InData p kdf.keyPrefix
  keySuffix : InData p kdf.keySuffix
  data : InData p kdf.data
  suffixInLine : InLine p (iline + p.ctagReserved) kdf.keySuffix
  dataInLine : InLine p (iline + p.ctagReserved) kdf.data

def SuffixFits (p : Page) (itag : Nat) : Prop :=
  cbKeyCountTotal (p.tagFFlags itag) +
    cbKeySuffix p (p.pbFromIb (p.tagIb itag)) (p.tagFFlags itag) ≤ p.tagCb itag

instance (p : Page) (itag : Nat) : Decidable (SuffixFits p itag) :=
  inferInstanceAs (Decidable (_ ≤ _))

section Bounds

variable {p : Page} {itag : Nat} {d : Data}

theorem InLine.inData (hon : fOnData p (p.pbFromIb (p.tagIb itag)) (p.tagCb itag))
    (h : InLine p itag d) : InData p d := by
  simp only [fOnData, decide_eq_true_eq] at hon
  refine ⟨h.nonneg, h.inside.imp_right ?_⟩
  rintro ⟨a, ha, hlo, hhi⟩
  exact ⟨a, ha, by omega, by omega⟩

theorem ndiLineToKeydataflags_inLine (hfits : SuffixFits p itag) :
    let kdf := (ndiLineToKeydataflags p (p.pbFromIb (p.tagIb itag)) (p.tagCb itag)
      (p.tagFFlags itag)).1
    InLine p itag kdf.keySuffix ∧ InLine p itag kdf.data := by
  simp only [SuffixFits] at hfits
  simp only [ndiLineToKeydataflags]
  constructor
  · exact ⟨Int.natCast_nonneg _, .inr ⟨_, rfl, by omega, by simp only; omega⟩⟩
  · exact ⟨by simp only; omega, .inr ⟨_, rfl, by omega, by simp only; omega⟩⟩

/-- A successful read returns a suffix and data inside the node's line whenever the suffix
fits that line. The prefix lies in the data area too, except that the pointer of a compressed
node names nothing while the external header is empty. -/
theorem errNDIGetKeydataflags_bounds (p : Page) (iline : Nat) (kdf : KeyDataFlags)
    (h : errNDIGetKeydataflags p iline = (kdf, none)) :
    (SuffixFits p (iline + p.ctagReserved) →
      InLine p (iline + p.ctagReserved) kdf.keySuffix ∧ InData p kdf.keySuffix ∧
        InLine p (iline + p.ctagReserved) kdf.data ∧ InData p kdf.data) ∧
      (¬ (p.fRootPage ∧ p.fSpaceTree) →
        InData p kdf.keyPrefix ∨
          (p.tagCb 0 = 0 ∧ kdf.keyPrefix.pv = .invalid ∧ 0 ≤ kdf.keyPrefix.cb)) := by
  obtain ⟨hon, -, -, rfl | hkeyPrefix⟩ := errNDIGetKeydataflags_ok h
  · refine ⟨fun hfits => ?_, fun _ => .inl ⟨Int.le_refl 0, .inl rfl⟩⟩
    obtain ⟨hsuffix, hdata⟩ := ndiLineToKeydataflags_inLine hfits
    exact ⟨hsuffix, hsuffix.inData hon, hdata, hdata.inData hon⟩
  · obtain ⟨keyPrefix, rfl, hcases⟩ := ndiSetPrefix_ok hkeyPrefix
    refine ⟨fun hfits => ?_, fun hroot => ?_⟩
    · obtain ⟨hsuffix, hdata⟩ := ndiLineToKeydataflags_inLine hfits
      exact ⟨hsuffix, hsuffix.inData hon, hdata, hdata.inData hon⟩
    · obtain hcb | ⟨rfl, hempty⟩ | ⟨rfl, hle, hon0⟩ := hcases hroot
      · exact .inl ⟨Int.le_of_eq hcb.symm, .inl hcb⟩
      · exact .inr ⟨hempty, rfl, Int.natCast_nonneg _⟩
      · refine .inl (InLine.inData hon0 ⟨Int.natCast_nonneg _, .inr ⟨_, rfl, ?_, ?_⟩⟩)
        · exact Int.le_refl _
        · exact Int.add_le_add_left hle _

end Bounds

/-- A leaf page of 2K with one node: its external header has `cbHeader` bytes, and the node
counts three prefix bytes and one suffix byte. -/
def splitPage (cbHeader : UInt8) : Page where
  cbPage := 2048
  cbBuffer := 2048
  buf
    | 36 => 0x02 | 44 => 3 | 46 => 1 | 48 => 0x6b | 2040 => 7 | 2042 => 4 | 2043 => 0x80
    | 2044 => cbHeader | _ => 0
  itagMicFree := 2
  ctagReserved := 1

def splitPageKdf (pv : Pv) : KeyDataFlags :=
  ⟨⟨pv, 3⟩, ⟨.page 48, 1⟩, ⟨.page 49, 2⟩, 4⟩

theorem splitPage_prefix_nowhere :
    errNDIGetKeydataflags (splitPage 0) 0 = (splitPageKdf .invalid, none) ∧
      ¬ NodeInBounds (splitPage 0) 0 (splitPageKdf .invalid) := by
  refine ⟨by decide, fun hbounds => ?_⟩
  obtain hcb | ⟨a, ha, -⟩ := hbounds.keyPrefix.inside
  · exact absurd hcb (by decide)
  · cases ha

theorem splitPage_header_filled :
    errNDIGetKeydataflags (splitPage 4) 0 = (splitPageKdf (.page 40), none) ∧
      InLine (splitPage 4) 1 (splitPageKdf (.page 40)).data ∧
      InData (splitPage 4) (splitPageKdf (.page 40)).keyPrefix := by
  have hread : errNDIGetKeydataflags (splitPage 4) 0 = (splitPageKdf (.page 40), none) := by
    decide
  obtain ⟨hparts, hkeyPrefix⟩ := errNDIGetKeydataflags_bounds (splitPage 4) 0 _ hread
  refine ⟨hread, (hparts (by decide)).2.2.1, ?_⟩
  exact (hkeyPrefix (by decide)).resolve_right (by decide)

end EseLinux.NodeAccess
