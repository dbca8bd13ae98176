import EseLinux.NodeAccess
import EseLinux.PageLine

/-!
Nodes as readers see them: the key counts, suffix and data that a line holds, and the key with
its prefix from the external header.  Both instances of `NDIGetKeydataflags` return the node of
the line, on every page with a valid layout.
-/

namespace EseLinux.NodeLine

open ByteMemory DigitList NodeAccess PageFormat PageLayout
open EseLinux.PageTags (TagOnPage line)

def getPtrNoChecks (p : Page) (itag : Nat) : NodeAccess.Line :=
  ⟨if p.tagCb itag = 0 then .invalid else .page (p.pbFromIb (p.tagIb itag)), p.tagCb itag,
    p.tagFFlags itag⟩

def ndiSetPrefixNoChecks (p : Page) (kdf : KeyDataFlags) : KeyDataFlags :=
  let line := getPtrNoChecks p 0
  if !p.fRootPage then { kdf with keyPrefix := ⟨line.pv, kdf.keyPrefix.cb⟩ }
  else if p.fSpaceTree then
    { kdf with keyPrefix := ⟨line.pv.add cbSplitBuffer, kdf.keyPrefix.cb⟩ }
  else { kdf with keyPrefix := ⟨.null, 0⟩ }

/-- `NDIGetKeydataflags< pgnbcNoChecks >`; `none` where a `PageEnforce` fails or an address that
names no byte is read. -/
def ndiGetKeydataflags (p : Page) (iline : Nat) : Option KeyDataFlags :=
  let line := getPtrNoChecks p (iline + p.ctagReserved)
  match line.pv with
  | .page pb =>
    if line.cb ≤ cbKeyCountTotal line.fFlags ∧ line.cb ≤ cbKeySuffix p pb line.fFlags then none
    else
      let kdf := (ndiLineToKeydataflags p pb line.cb line.fFlags).1
      if fCompressed kdf.fFlags then some (ndiSetPrefixNoChecks p kdf)
      else some { kdf with keyPrefix := ⟨.null, 0⟩ }
  | _ => none

def wordOf (bs : List UInt8) (i : Nat) : Nat :=
  (bs.getD i 0).toNat + 256 * (bs.getD (i + 1) 0).toNat

/-- What a line says of its node: the length of the prefix, the suffix and the data. -/
structure Parts where
  cbPrefix : Nat
  suffix : List UInt8
  data : List UInt8
deriving DecidableEq, Repr

def cbSuffixOf (l : PageTags.Line) : Nat :=
  wordOf l.data (cbKeyCountTotal l.fFlags - cbKeyCount) &&& usNDCbKeyMask

def parts (l : PageTags.Line) : Parts where
  cbPrefix := if fCompressed l.fFlags then wordOf l.data 0 &&& usNDCbKeyMask else 0
  suffix := (l.data.drop (cbKeyCountTotal l.fFlags)).take (cbSuffixOf l)
  data := l.data.drop (cbKeyCountTotal l.fFlags + cbSuffixOf l)

def WellFormed (l : PageTags.Line) : Prop :=
  cbKeyCountTotal l.fFlags + cbSuffixOf l ≤ l.data.length

instance (l : PageTags.Line) : Decidable (WellFormed l) := inferInstanceAs (Decidable (_ ≤ _))

/-- The key that prefixes are taken from.  A root page has its space header there, the root of a
space tree also a split buffer, and only the latter has nodes with a prefix. -/
def headerKey (p : Page) : List UInt8 :=
  if !p.fRootPage then p.tagData 0
  else if p.fSpaceTree then (p.tagData 0).drop cbSplitBuffer
  else []

structure Node where
  key : List UInt8
  data : List UInt8
  fFlags : Nat
deriving DecidableEq, Repr

/-- The node of a line whose prefix comes from `header`. -/
def nodeOf (header : List UInt8) (l : PageTags.Line) : Node where
  key := header.take (parts l).cbPrefix ++ (parts l).suffix
  data := (parts l).data
  fFlags := l.fFlags

def node (p : Page) (iline : Nat) : Node := nodeOf (headerKey p) (line p (iline + p.ctagReserved))

def bytesOf (p : Page) (d : NodeAccess.Data) : List UInt8 :=
  match d.pv with
  | .page a => slice p.buf a d.cb.toNat
  | _ => []

def nodeOfKdf (p : Page) (kdf : KeyDataFlags) : Node where
  key := bytesOf p kdf.keyPrefix ++ bytesOf p kdf.keySuffix
  data := bytesOf p kdf.data
  fFlags := kdf.fFlags

theorem wordOf_slice (m : Memory) {a n i : Nat} (h : i + 2 ≤ n) :
    wordOf (slice m a n) i = word m (a + i) := by
  have h₀ : i < (slice m a n).length := by rw [slice_length]; omega
  have h₁ : i + 1 < (slice m a n).length := by rw [slice_length]; omega
  rw [wordOf, List.getD_eq_getElem _ _ h₀, List.getD_eq_getElem _ _ h₁, slice_getElem,
    slice_getElem, word, add_assoc]

section Readers

variable {p : Page} {iline itag : Nat}

theorem line_data (p : Page) (itag : Nat) :
    (line p itag).data = slice p.buf (p.pbFromIb (p.tagIb itag)) (p.tagCb itag) := rfl

theorem line_fFlags (p : Page) (itag : Nat) : (line p itag).fFlags = p.tagFFlags itag := rfl

theorem WellFormed.total_le (h : WellFormed (line p itag)) :
    cbKeyCountTotal (p.tagFFlags itag) ≤ p.tagCb itag := by
  rw [WellFormed, line_data, line_fFlags, slice_length] at h
  omega

theorem cbKeyCountTotal_ge (fFlags : Nat) : 2 ≤ cbKeyCountTotal fFlags := by
  rw [cbKeyCountTotal, cbKeyCount]
  omega

section

variable (h : WellFormed (line p itag))
include h

theorem cbKeySuffix_eq :
    cbKeySuffix p (p.pbFromIb (p.tagIb itag)) (p.tagFFlags itag) = cbSuffixOf (line p itag) := by
  have htotal := h.total_le
  have hge := cbKeyCountTotal_ge (p.tagFFlags itag)
  rw [cbSuffixOf, line_data, line_fFlags,
    wordOf_slice _ (by simp only [cbKeyCount]; omega), cbKeySuffix]
  congr 2
  simp only [cbKeyCount]
  omega

theorem WellFormed.passes : 2 ≤ p.tagCb itag ∧
      ¬ (p.tagCb itag ≤ cbKeyCountTotal (p.tagFFlags itag) ∧
        p.tagCb itag ≤ cbKeySuffix p (p.pbFromIb (p.tagIb itag)) (p.tagFFlags itag)) := by
  have hge := cbKeyCountTotal_ge (p.tagFFlags itag)
  rw [cbKeySuffix_eq h]
  rw [WellFormed, line_data, line_fFlags, slice_length] at h
  omega

theorem cbKeyPrefix_eq : cbKeyPrefix p (p.pbFromIb (p.tagIb itag)) (p.tagFFlags itag) =
      (parts (line p itag)).cbPrefix := by
  have htotal := h.total_le
  have hge := cbKeyCountTotal_ge (p.tagFFlags itag)
  have hword := wordOf_slice p.buf (a := p.pbFromIb (p.tagIb itag)) (n := p.tagCb itag) (i := 0)
    (by omega)
  rw [add_zero] at hword
  simp only [parts, line_data, line_fFlags, hword, cbKeyPrefix]

theorem ndiLineToKeydataflags_parts :
    let kdf := (ndiLineToKeydataflags p (p.pbFromIb (p.tagIb itag)) (p.tagCb itag)
      (p.tagFFlags itag)).1
    kdf.keyPrefix.cb = (parts (line p itag)).cbPrefix ∧
      bytesOf p kdf.keySuffix = (parts (line p itag)).suffix ∧
      bytesOf p kdf.data = (parts (line p itag)).data ∧ kdf.fFlags = (line p itag).fFlags := by
  have hsuffix := cbKeySuffix_eq h
  have hkeyPrefix := cbKeyPrefix_eq h
  rw [WellFormed, line_data, line_fFlags, slice_length] at h
  refine ⟨?_, ?_, ?_, rfl⟩
  · simp only [ndiLineToKeydataflags, hkeyPrefix]
  · simp only [ndiLineToKeydataflags, bytesOf, parts, hsuffix, Int.toNat_natCast]
    rw [line_data, line_fFlags, take_drop_slice _ h]
  · have hcb : ((p.tagCb itag : Int) - cbSuffixOf (line p itag) -
        cbKeyCountTotal (p.tagFFlags itag)).toNat =
        p.tagCb itag - (cbKeyCountTotal (p.tagFFlags itag) + cbSuffixOf (line p itag)) := by
      omega
    simp only [ndiLineToKeydataflags, bytesOf, parts, hsuffix, hcb]
    rw [line_data, line_fFlags, drop_slice _ h, add_assoc]

end

theorem bytesOf_prefix {pv : Pv} {cbPrefix : Nat} (hpv : pv = (getPtrNoChecks p 0).pv)
    (hle : cbPrefix ≤ (headerKey p).length) :
    (p.fRootPage = false → bytesOf p ⟨pv, cbPrefix⟩ = (headerKey p).take cbPrefix) ∧
      (p.fRootPage = true → p.fSpaceTree = true →
        bytesOf p ⟨pv.add cbSplitBuffer, cbPrefix⟩ = (headerKey p).take cbPrefix) := by
  subst hpv
  constructor
  · intro hroot
    simp only [headerKey, hroot, Bool.not_false, if_true, Page.tagData, slice_length] at hle ⊢
    rcases Nat.eq_zero_or_pos (p.tagCb 0) with hcb | hcb
    · simp [getPtrNoChecks, hcb, bytesOf]
    · have htake := take_drop_slice p.buf (a := p.pbFromIb (p.tagIb 0)) (n := p.tagCb 0) (i := 0)
        (k := cbPrefix) (by omega)
      rw [List.drop_zero, add_zero] at htake
      simp only [getPtrNoChecks, if_neg hcb.ne', bytesOf, Int.toNat_natCast, htake]
  · intro hroot hspace
    simp only [headerKey, hroot, hspace, Bool.not_true, Bool.false_eq_true, if_false, if_true,
      Page.tagData, List.length_drop, slice_length] at hle ⊢
    rcases Nat.eq_zero_or_pos (p.tagCb 0) with hcb | hcb
    · simp [getPtrNoChecks, hcb, bytesOf, Pv.add]
    · rcases Nat.eq_zero_or_pos cbPrefix with rfl | hpos
      · simp [getPtrNoChecks, hcb.ne', bytesOf, Pv.add]
      · simp only [getPtrNoChecks, if_neg hcb.ne', Pv.add, bytesOf, Int.toNat_natCast]
        rw [take_drop_slice _ (by omega)]

theorem nodeOfKdf_setPrefix {kdf : KeyDataFlags} {cbPrefix : Nat}
    (hcb : kdf.keyPrefix.cb = cbPrefix) (hle : cbPrefix ≤ (headerKey p).length) :
    nodeOfKdf p (ndiSetPrefixNoChecks p kdf) =
      ⟨(headerKey p).take cbPrefix ++ bytesOf p kdf.keySuffix, bytesOf p kdf.data, kdf.fFlags⟩ := by
  obtain ⟨hnode, hspace⟩ := bytesOf_prefix (p := p) rfl hle
  cases hroot : p.fRootPage with
  | false =>
    simp only [ndiSetPrefixNoChecks, hroot, Bool.not_false, if_true, nodeOfKdf, hcb, hnode hroot]
  | true =>
    cases htree : p.fSpaceTree with
    | true =>
      simp only [ndiSetPrefixNoChecks, hroot, htree, Bool.not_true, Bool.false_eq_true,
        if_false, if_true, nodeOfKdf, hcb, hspace hroot htree]
    | false =>
      have hkey : headerKey p = [] := by simp [headerKey, hroot, htree]
      simp [ndiSetPrefixNoChecks, hroot, htree, nodeOfKdf, hkey, bytesOf]

theorem parts_cbPrefix_of_not (h : fCompressed (p.tagFFlags itag) = false) :
    (parts (line p itag)).cbPrefix = 0 := by
  simp only [parts, line_fFlags, h, Bool.false_eq_true, if_false]

theorem ndiGetKeydataflags_node (hwf : WellFormed (line p (iline + p.ctagReserved)))
    (hle : (parts (line p (iline + p.ctagReserved))).cbPrefix ≤ (headerKey p).length) :
    ∃ kdf, ndiGetKeydataflags p iline = some kdf ∧ nodeOfKdf p kdf = node p iline := by
  obtain ⟨hkeyPrefix, hsuffix, hdata, hflags⟩ := ndiLineToKeydataflags_parts hwf
  obtain ⟨htwo, henforce⟩ := hwf.passes
  have hne : p.tagCb (iline + p.ctagReserved) ≠ 0 := by omega
  simp only [ndiGetKeydataflags, getPtrNoChecks, if_neg hne, if_neg henforce, hflags, line_fFlags]
  cases hcomp : fCompressed (p.tagFFlags (iline + p.ctagReserved)) with
  | true =>
    refine ⟨_, rfl, ?_⟩
    rw [nodeOfKdf_setPrefix hkeyPrefix hle, hsuffix, hdata, hflags]
    rfl
  | false =>
    refine ⟨_, rfl, ?_⟩
    have hzero := parts_cbPrefix_of_not hcomp
    simp only [nodeOfKdf, hsuffix, hdata, node, nodeOf, hzero, List.take_zero]
    rfl

/-- On a page with a valid layout `GetPtr_` finds the tag's line.  Only a line of one byte that
ends at the tag array is reported, which no node is. -/
theorem getPtr_line (hinv : LayoutInv p) (hitag : itag < p.itagMicFree) :
    (getPtr p itag).1.pv = (getPtrNoChecks p itag).pv ∧ (getPtr p itag).1.cb = p.tagCb itag ∧
      (2 ≤ p.tagCb itag → getPtr p itag = (getPtrNoChecks p itag, none)) ∧
      (p.tagCb itag = 0 → itag < p.ctagReserved → (getPtr p itag).2 = none) := by
  have hfits := hinv.fits
  have htag : ¬ (p.ptagFromItag itag < pbDataStart p ∨
      p.cbBuffer < p.ptagFromItag itag + cbTag - 1) := by
    simp only [pbDataStart, Page.ptagFromItag, cbTag] at *
    omega
  rw [getPtr, if_neg htag]
  rcases Nat.eq_zero_or_pos (p.tagCb itag) with hcb | hcb
  · rw [if_pos hcb]
    refine ⟨by simp [getPtrNoChecks, hcb], hcb.symm, fun h => absurd h (by omega), ?_⟩
    intro _ hlt
    exact if_neg (by omega)
  · have hbelow : p.tagIb itag + p.tagCb itag ≤ p.ibMicFree := hinv.below hitag hcb.ne'
    have hdata : 2 ≤ p.tagCb itag →
        fOnData p (p.pbFromIb (p.tagIb itag)) (p.tagCb itag) = true := by
      intro htwo
      apply decide_eq_true
      simp only [pbDataStart, pbDataEnd, Page.pbFromIb, Page.cbTagArray, cbTag]
      omega
    rw [if_neg hcb.ne']
    simp only [getPtrNoChecks, if_neg hcb.ne']
    refine ⟨?_, ?_, fun htwo => if_pos (hdata htwo), fun h => absurd h hcb.ne'⟩
    · split <;> rfl
    · split <;> rfl

theorem ndiSetPrefix_line (hinv : LayoutInv p) (hpos : 0 < p.itagMicFree) (kdf : KeyDataFlags) :
    (ndiSetPrefix p kdf).1 = ndiSetPrefixNoChecks p kdf := by
  obtain ⟨hpv, -, -, -⟩ := getPtr_line hinv hpos
  have hnull : (getPtrNoChecks p 0).pv ≠ .null := by
    rw [getPtrNoChecks]
    split <;> exact fun h => nomatch h
  simp only [ndiSetPrefix, hpv, hnull, and_false, if_false, ndiSetPrefixNoChecks]
  split
  · rfl
  · split <;> rfl

theorem errNDIGetKeydataflags_eq (hinv : LayoutInv p)
    (hline : iline + p.ctagReserved < p.itagMicFree)
    (hwf : WellFormed (line p (iline + p.ctagReserved))) :
    ndiGetKeydataflags p iline = some (errNDIGetKeydataflags p iline).1 := by
  obtain ⟨htwo, henforce⟩ := hwf.passes
  have hptr := (getPtr_line hinv hline).2.2.1 htwo
  have hne : p.tagCb (iline + p.ctagReserved) ≠ 0 := by omega
  have hkeyPrefix := ndiSetPrefix_line hinv (Nat.zero_lt_of_lt hline)
  simp only [ndiGetKeydataflags, errNDIGetKeydataflags, hptr, getPtrNoChecks, if_neg hne,
    if_neg henforce, Option.isSome_none, Bool.false_eq_true, false_and, if_false, ← hkeyPrefix]
  split <;> rfl

theorem errNDIGetKeydataflags_success (hinv : LayoutInv p)
    (hline : iline + p.ctagReserved < p.itagMicFree)
    (hwf : WellFormed (line p (iline + p.ctagReserved)))
    (hle : (parts (line p (iline + p.ctagReserved))).cbPrefix ≤ (headerKey p).length)
    (hsome : cbKeyCountTotal (p.tagFFlags (iline + p.ctagReserved)) <
      p.tagCb (iline + p.ctagReserved))
    (hlong : fCompressed (p.tagFFlags (iline + p.ctagReserved)) = true →
      cbPrefixOverhead < (parts (line p (iline + p.ctagReserved))).cbPrefix) :
    (errNDIGetKeydataflags p iline).2 = none := by
  obtain ⟨htwo, -⟩ := hwf.passes
  have hptr := (getPtr_line hinv hline).2.2.1 htwo
  have hne : p.tagCb (iline + p.ctagReserved) ≠ 0 := by omega
  obtain ⟨hkeyPrefix, -, -, hflags⟩ := ndiLineToKeydataflags_parts hwf
  have hlineOk : (ndiLineToKeydataflags p (p.pbFromIb (p.tagIb (iline + p.ctagReserved)))
      (p.tagCb (iline + p.ctagReserved)) (p.tagFFlags (iline + p.ctagReserved))).2 = none := by
    rw [ndiLineToKeydataflags_ok, cbKeySuffix_eq hwf]
    rw [WellFormed, line_data, line_fFlags, slice_length] at hwf
    have hge := cbKeyCountTotal_ge (p.tagFFlags (iline + p.ctagReserved))
    omega
  simp only [errNDIGetKeydataflags, hptr, getPtrNoChecks, if_neg hne, Option.isSome_none,
    Bool.false_eq_true, false_and, if_false, hlineOk, Option.none_or, hflags, line_fFlags]
  cases hcomp : fCompressed (p.tagFFlags (iline + p.ctagReserved)) with
  | false => rfl
  | true =>
    have hlen : (headerKey p).length ≤ p.tagCb 0 := by
      rw [headerKey]
      split
      · simp [Page.tagData]
      · split <;> simp [Page.tagData]
    have hlong' := hlong hcomp
    simp only [cbPrefixOverhead] at hlong'
    have hheader := (getPtr_line hinv (Nat.zero_lt_of_lt hline)).2.2.1 (by omega)
    simp only [if_true, ndiSetPrefix, hheader, Option.isSome_none, Bool.false_eq_true, false_and,
      if_false, Option.none_or, getPtrNoChecks, hkeyPrefix]
    refine if_neg (fun h => ?_)
    have hlt := h.1
    split at hlt
    · simp only at hlt
      omega
    · split at hlt <;> simp only at hlt <;> omega

end Readers

end EseLinux.NodeLine
