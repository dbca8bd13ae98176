import EseLinux.NodeLine
import EseLinux.PageRun

/-!
Insertion of a node: the two overloads of `NDInsert` with the pieces they hand to the page, and
that the node which is read back is the node which was inserted.
-/

namespace EseLinux.NodeInsert

open ByteMemory DigitList NodeAccess NodeLine List
open EseLinux.PageEdit (Env)
open PageFormat PageHeader PageInsert PageLayout PageLine
open EseLinux.PageTags (line)

/-- A `KEYDATAFLAGS` whose bytes stand outside the page. -/
structure Kdf where
  keyPrefix : List UInt8
  keySuffix : List UInt8
  data : List UInt8
  fFlags : Nat
deriving DecidableEq, Repr

def Kdf.key (kdf : Kdf) : List UInt8 := kdf.keyPrefix ++ kdf.keySuffix

/-- `fFlags | fNDCompressed` or `fFlags & ~fNDCompressed`. -/
def setCompressed (fFlags : Nat) (fCompressed : Bool) : Nat :=
  if fCompressed then fFlags ||| fNDCompressed else fFlags &&& (7 ^^^ fNDCompressed)

def le_cb (cb : Nat) : List UInt8 := leBytes 2 cb

/-- The pieces and the flags of the line for a node with `cbPrefix` prefix bytes. -/
def cdataNDIPrefixAndKeydataflagsToDataflags (kdf : Kdf) (cbPrefix : Nat) :
    List (List UInt8) × Nat :=
  let le_cbPrefix := cbPrefix % 65536
  let rgdataPrefix := if 0 < le_cbPrefix then [le_cb le_cbPrefix] else []
  let fFlags := setCompressed kdf.fFlags (decide (0 < le_cbPrefix))
  if kdf.keyPrefix.length ≤ le_cbPrefix then
    let cbPrefixInSuffix := le_cbPrefix - kdf.keyPrefix.length
    let cbSuffix := kdf.keySuffix.length - cbPrefixInSuffix
    (rgdataPrefix ++ [le_cb cbSuffix, kdf.keySuffix.drop cbPrefixInSuffix, kdf.data], fFlags)
  else
    let cbSuffix := kdf.keySuffix.length + (kdf.keyPrefix.length - le_cbPrefix)
    (rgdataPrefix ++
      [le_cb cbSuffix, kdf.keyPrefix.drop le_cbPrefix, kdf.keySuffix, kdf.data], fFlags)

/-- The pieces and the flags of the line for a node that is already split into prefix and
suffix. -/
def cdataNDIKeydataflagsToDataflags (kdf : Kdf) : List (List UInt8) × Nat :=
  let rgdataPrefix := if kdf.keyPrefix.length ≠ 0 then [le_cb kdf.keyPrefix.length] else []
  (rgdataPrefix ++ [le_cb kdf.keySuffix.length, kdf.keySuffix, kdf.data], kdf.fFlags)

/-- `CPAGE::Insert` of pieces from elsewhere. -/
def pageInsert (env : Env) (p : Page) (iline : Nat) (line : List (List UInt8) × Nat) :
    Option Page :=
  PageEdit.insert env p (iline + p.ctagReserved) (line.1.map PageEdit.Data.bytes) line.2

def ndInsertWithPrefix (env : Env) (p : Page) (iline : Nat) (kdf : Kdf) (cbPrefix : Nat) :
    Option Page :=
  pageInsert env p iline (cdataNDIPrefixAndKeydataflagsToDataflags kdf cbPrefix)

def ndInsert (env : Env) (p : Page) (iline : Nat) (kdf : Kdf) : Option Page :=
  pageInsert env p iline (cdataNDIKeydataflagsToDataflags kdf)

def nodeBytes (parts : Parts) : List UInt8 :=
  (if 0 < parts.cbPrefix then le_cb parts.cbPrefix else []) ++
    (le_cb parts.suffix.length ++ (parts.suffix ++ parts.data))

structure Countable (parts : Parts) : Prop where
  cbPrefix_le : parts.cbPrefix ≤ usNDCbKeyMask
  cbSuffix_le : parts.suffix.length ≤ usNDCbKeyMask

theorem nodeBytes_length (parts : Parts) :
    (nodeBytes parts).length =
      (if 0 < parts.cbPrefix then 4 else 2) + parts.suffix.length + parts.data.length := by
  rw [nodeBytes, le_cb, le_cb]
  split <;> simp <;> omega

theorem cdataNDIPrefix_flatten (kdf : Kdf) {cbPrefix : Nat} (hle : cbPrefix ≤ kdf.key.length)
    (hlt : cbPrefix < 65536) :
    (cdataNDIPrefixAndKeydataflagsToDataflags kdf cbPrefix).1.flatten =
      nodeBytes ⟨cbPrefix, kdf.key.drop cbPrefix, kdf.data⟩ := by
  have hlen : kdf.key.length = kdf.keyPrefix.length + kdf.keySuffix.length := length_append
  have hsuffix : (kdf.key.drop cbPrefix).length = kdf.key.length - cbPrefix := length_drop
  simp only [cdataNDIPrefixAndKeydataflagsToDataflags, Nat.mod_eq_of_lt hlt, nodeBytes, hsuffix]
  split
  case isTrue hshort =>
    have hcb : kdf.keySuffix.length - (cbPrefix - kdf.keyPrefix.length) =
        kdf.key.length - cbPrefix := by omega
    have hdrop : kdf.key.drop cbPrefix = kdf.keySuffix.drop (cbPrefix - kdf.keyPrefix.length) := by
      rw [Kdf.key, drop_append, drop_eq_nil_of_le hshort, nil_append]
    rw [flatten_append, hcb, hdrop]
    congr 1
    · split <;> simp
    · simp
  case isFalse hlong =>
    have hcb : kdf.keySuffix.length + (kdf.keyPrefix.length - cbPrefix) =
        kdf.key.length - cbPrefix := by omega
    have hdrop : kdf.key.drop cbPrefix = kdf.keyPrefix.drop cbPrefix ++ kdf.keySuffix := by
      rw [Kdf.key, drop_append_of_le_length (by omega)]
    rw [flatten_append, hcb, hdrop]
    congr 1
    · split <;> simp
    · simp

theorem cdataNDI_flatten (kdf : Kdf) :
    (cdataNDIKeydataflagsToDataflags kdf).1.flatten =
      nodeBytes ⟨kdf.keyPrefix.length, kdf.keySuffix, kdf.data⟩ := by
  simp only [cdataNDIKeydataflagsToDataflags, nodeBytes, flatten_append, Nat.pos_iff_ne_zero]
  congr 1
  · split <;> simp
  · simp

theorem lineOf_data (fSmallFormat : Bool) (fFlags : Nat) (b₀ b₁ : UInt8)
    (rest : List UInt8) :
    ∃ b₁', (lineOf fSmallFormat fFlags (b₀ :: b₁ :: rest)).data = b₀ :: b₁' :: rest ∧
      b₁'.toNat % 32 = b₁.toNat % 32 := by
  cases fSmallFormat with
  | true => exact ⟨b₁, rfl, rfl⟩
  | false =>
    refine ⟨_, rfl, ?_⟩
    rw [UInt8.toNat_ofNat']
    omega

theorem count_and_mask {cb : Nat} (hcb : cb ≤ usNDCbKeyMask) {b₁ : UInt8}
    (hb₁ : b₁.toNat % 32 = (UInt8.ofNat (cb / 256)).toNat % 32) :
    ((UInt8.ofNat cb).toNat + 256 * b₁.toNat) &&& usNDCbKeyMask = cb := by
  simp only [usNDCbKeyMask] at *
  rw [Nat.and_two_pow_sub_one_eq_mod _ 13, UInt8.toNat_ofNat']
  rw [UInt8.toNat_ofNat'] at hb₁
  omega

variable {fFlags : Nat} {ps : Parts}

theorem parts_lineOf (fSmallFormat : Bool) (hps : Countable ps)
    (hcomp : fCompressed fFlags = decide (0 < ps.cbPrefix)) :
    parts (lineOf fSmallFormat fFlags (nodeBytes ps)) = ps ∧
      WellFormed (lineOf fSmallFormat fFlags (nodeBytes ps)) := by
  have hflagsEq (bs : List UInt8) : (lineOf fSmallFormat fFlags bs).fFlags = fFlags := rfl
  obtain ⟨cbPrefix, suffix, data⟩ := ps
  obtain ⟨hprefixLe, hsuffixLe⟩ := hps
  rcases Nat.eq_zero_or_pos cbPrefix with rfl | hpos
  · obtain ⟨b, hdata, hb⟩ := lineOf_data fSmallFormat fFlags (UInt8.ofNat suffix.length)
      (UInt8.ofNat (suffix.length / 256)) (suffix ++ data)
    have hcount := count_and_mask hsuffixLe hb
    have hbytes : nodeBytes ⟨0, suffix, data⟩ =
        UInt8.ofNat suffix.length :: UInt8.ofNat (suffix.length / 256) :: (suffix ++ data) := rfl
    have htotal : cbKeyCountTotal fFlags = 2 := by simp [cbKeyCountTotal, hcomp, cbKeyCount]
    have hcb : cbSuffixOf (lineOf fSmallFormat fFlags (nodeBytes ⟨0, suffix, data⟩)) =
        suffix.length := by
      rw [cbSuffixOf, hflagsEq, htotal, hbytes, hdata]
      exact hcount
    refine ⟨?_, ?_⟩
    · simp only [parts, hcb, hflagsEq, htotal, hcomp]
      rw [hbytes, hdata]
      simp [← drop_drop]
    · rw [WellFormed, hcb, hflagsEq, htotal, hbytes, hdata]
      simp
      omega
  · obtain ⟨b, hdata, hb⟩ := lineOf_data fSmallFormat fFlags (UInt8.ofNat cbPrefix)
      (UInt8.ofNat (cbPrefix / 256)) (UInt8.ofNat suffix.length ::
        UInt8.ofNat (suffix.length / 256) :: (suffix ++ data))
    have hcountPrefix := count_and_mask hprefixLe hb
    have hcountSuffix := count_and_mask hsuffixLe rfl
    have hbytes : nodeBytes ⟨cbPrefix, suffix, data⟩ =
        UInt8.ofNat cbPrefix :: UInt8.ofNat (cbPrefix / 256) :: UInt8.ofNat suffix.length ::
          UInt8.ofNat (suffix.length / 256) :: (suffix ++ data) := by
      rw [nodeBytes, if_pos hpos]
      rfl
    rw [decide_eq_true hpos] at hcomp
    have htotal : cbKeyCountTotal fFlags = 4 := by
      simp [cbKeyCountTotal, hcomp, cbKeyCount, cbPrefixOverhead]
    have hcb : cbSuffixOf (lineOf fSmallFormat fFlags (nodeBytes ⟨cbPrefix, suffix, data⟩)) =
        suffix.length := by
      rw [cbSuffixOf, hflagsEq, htotal, hbytes, hdata]
      exact hcountSuffix
    refine ⟨?_, ?_⟩
    · simp only [parts, hcb, hflagsEq, htotal, hcomp, if_true]
      rw [hbytes, hdata]
      simp only [Parts.mk.injEq]
      exact ⟨hcountPrefix, by simp, by simp [← drop_drop]⟩
    · rw [WellFormed, hcb, hflagsEq, htotal, hbytes, hdata]
      simp
      omega

/-- Both readers return the node `n` at the line. -/
def Reads (p : Page) (iline : Nat) (n : Node) : Prop :=
  ∃ kdf, ndiGetKeydataflags p iline = some kdf ∧ (errNDIGetKeydataflags p iline).1 = kdf ∧
    nodeOfKdf p kdf = n

variable {p : Page}

theorem LineInserted.headerKey {q : Page} {k : Nat} {bs : List UInt8} (hk : k ≠ 0)
    (hpos : 0 < p.itagMicFree) (h : LineInserted p k fFlags bs q) :
    NodeLine.headerKey q = NodeLine.headerKey p := by
  have hzero : shiftUp k 0 = 0 := by
    rw [shiftUp, if_pos (pos_of_ne_zero hk)]
  have hline := h.lineEq 0 hpos
  rw [hzero] at hline
  have hdata : q.tagData 0 = p.tagData 0 := congrArg PageTags.Line.data hline
  rw [NodeLine.headerKey, NodeLine.headerKey, h.header.fRootPage, h.header.fSpaceTree, hdata]

/-- A node as the rest of the engine makes them: it has a suffix or data, and a prefix that is
longer than the count it costs. -/
structure Proper (ps : Parts) : Prop where
  nonempty : 0 < ps.suffix.length + ps.data.length
  prefixLong : 0 < ps.cbPrefix → cbPrefixOverhead < ps.cbPrefix

theorem reads_of_line {q : Page} (hinv : LayoutInv q) {iline : Nat}
    (hline : iline + q.ctagReserved < q.itagMicFree) {fSmallFormat : Bool} (hnew : line q
    (iline + q.ctagReserved) = lineOf fSmallFormat fFlags (nodeBytes ps)) (hps : Countable ps)
    (hcomp : fCompressed fFlags = decide (0 < ps.cbPrefix))
    (hle : ps.cbPrefix ≤ (headerKey q).length) :
    node q iline = ⟨(headerKey q).take ps.cbPrefix ++ ps.suffix, ps.data, fFlags⟩ ∧
      Reads q iline (node q iline) ∧
      (Proper ps → (errNDIGetKeydataflags q iline).2 = none) := by
  obtain ⟨hparts, hwf⟩ := parts_lineOf fSmallFormat hps hcomp
  rw [← hnew] at hparts hwf
  have hle' : (parts (line q (iline + q.ctagReserved))).cbPrefix ≤ (headerKey q).length := by
    rwa [hparts]
  obtain ⟨kdf, hkdf, hnode⟩ := ndiGetKeydataflags_node hwf hle'
  have hchecked := errNDIGetKeydataflags_eq hinv hline hwf
  rw [hkdf] at hchecked
  refine ⟨?_, ⟨kdf, hkdf, (Option.some.inj hchecked).symm, hnode⟩, ?_⟩
  · rw [node, nodeOf, hparts, hnew]
    rfl
  · intro hproper
    have hflagsEq : q.tagFFlags (iline + q.ctagReserved) = fFlags :=
      congrArg PageTags.Line.fFlags hnew
    have hcb : q.tagCb (iline + q.ctagReserved) = (nodeBytes ps).length := by
      have hlen := congrArg (fun l : PageTags.Line => l.data.length) hnew
      rwa [line_data, slice_length, lineOf_length] at hlen
    refine errNDIGetKeydataflags_success hinv hline hwf hle' ?_ ?_
    · rw [hflagsEq, hcb, nodeBytes_length, cbKeyCountTotal, hcomp]
      have hnonempty := hproper.nonempty
      simp only [decide_eq_true_eq, cbKeyCount, cbPrefixOverhead]
      split <;> omega
    · rw [hflagsEq, hcomp, hparts]
      intro hpos
      exact hproper.prefixLong (of_decide_eq_true hpos)

theorem pageInsert_reads (env : Env) (hinv : LayoutInv p) (hres : 1 ≤ p.ctagReserved)
    {iline : Nat} (hline : iline + p.ctagReserved ≤ p.itagMicFree)
    {pieces : List (List UInt8)} (hbytes : pieces.flatten = nodeBytes ps)
    (hflags : fFlags < 8) (hps : Countable ps)
    (hcomp : fCompressed fFlags = decide (0 < ps.cbPrefix))
    (hle : ps.cbPrefix ≤ (headerKey p).length) (hfree : (nodeBytes ps).length + cbTag ≤ p.cbFree) :
    ∃ q, pageInsert env p iline (pieces, fFlags) = some q ∧
      LineInserted p (iline + p.ctagReserved) fFlags (nodeBytes ps) q ∧
      Reads q iline ⟨(headerKey p).take ps.cbPrefix ++ ps.suffix, ps.data, fFlags⟩ ∧
      (Proper ps → (errNDIGetKeydataflags q iline).2 = none) := by
  have htwo : 2 ≤ (nodeBytes ps).length := by
    rw [nodeBytes_length]
    split <;> omega
  have hpos : iline + p.ctagReserved ≠ 0 := by omega
  obtain ⟨q, hq, hins⟩ := insert_line env hinv (by omega) hpos hline pieces hflags
    (by rwa [hbytes]) (by rwa [hbytes])
  rw [hbytes] at hins
  have hctag := hins.header.ctagReserved
  have hkey := LineInserted.headerKey hpos (by omega) hins
  have hnew := hins.newLine
  rw [← hctag] at hnew
  obtain ⟨hnode, hreads, hclean⟩ := reads_of_line hins.inv (by rw [hctag, hins.itagMicFree]; omega)
    hnew hps hcomp (by rwa [hkey])
  rw [hnode, hkey] at hreads
  exact ⟨q, hq, hins, hreads, hclean⟩

/-- The prefix length that the external header allows: a common prefix of the key and the key in
the header. -/
structure PrefixAllowed (p : Page) (key : List UInt8) (cbPrefix : Nat) : Prop where
  le_key : cbPrefix ≤ key.length
  common : key.take cbPrefix <+: headerKey p

theorem PrefixAllowed.take_eq {key : List UInt8} {cbPrefix : Nat}
    (h : PrefixAllowed p key cbPrefix) :
    cbPrefix ≤ (headerKey p).length ∧ (headerKey p).take cbPrefix = key.take cbPrefix := by
  have hlen := h.common.length_le
  have htake := prefix_iff_eq_take.mp h.common
  rw [length_take_of_le h.le_key] at hlen htake
  exact ⟨hlen, htake.symm⟩

theorem setCompressed_spec (h : fFlags < 8) (f : Bool) :
    setCompressed fFlags f < 8 ∧ fCompressed (setCompressed fFlags f) = f := by
  have hall : ∀ n < 8, ∀ f, setCompressed n f < 8 ∧ fCompressed (setCompressed n f) = f := by
    decide
  exact hall fFlags h f

/-- A node that is inserted by either overload of `NDInsert` is read back with its key, its data
and its flags.  The first overload chooses the prefix length and sets the flag for it; the second
takes a key that is already split, with the flag to go with it. -/
theorem ndInsert_roundTrip (env : Env) (p : Page) (hinv : LayoutInv p)
    (hres : 1 ≤ p.ctagReserved) (iline : Nat) (hline : iline + p.ctagReserved ≤ p.itagMicFree)
    (kdf : Kdf) (hflags : kdf.fFlags < 8) (cbPrefix : Nat)
    (hallowed : PrefixAllowed p kdf.key cbPrefix)
    (hcount : Countable ⟨cbPrefix, kdf.key.drop cbPrefix, kdf.data⟩)
    (hfree : (nodeBytes ⟨cbPrefix, kdf.key.drop cbPrefix, kdf.data⟩).length + cbTag ≤ p.cbFree) :
    (∃ q, ndInsertWithPrefix env p iline kdf cbPrefix = some q ∧
      Reads q iline ⟨kdf.key, kdf.data, setCompressed kdf.fFlags (decide (0 < cbPrefix))⟩ ∧
      (Proper ⟨cbPrefix, kdf.key.drop cbPrefix, kdf.data⟩ →
        (errNDIGetKeydataflags q iline).2 = none)) ∧
    (kdf.keyPrefix.length = cbPrefix → fCompressed kdf.fFlags = decide (0 < cbPrefix) →
      ∃ q, ndInsert env p iline kdf = some q ∧ Reads q iline ⟨kdf.key, kdf.data, kdf.fFlags⟩ ∧
        (Proper ⟨cbPrefix, kdf.key.drop cbPrefix, kdf.data⟩ →
          (errNDIGetKeydataflags q iline).2 = none)) := by
  obtain ⟨hle, htake⟩ := hallowed.take_eq
  have hlt : cbPrefix < 65536 := by
    have hcb := hcount.cbPrefix_le
    simp only [usNDCbKeyMask] at hcb
    omega
  obtain ⟨hsetLt, hset⟩ := setCompressed_spec hflags (decide (0 < cbPrefix))
  constructor
  · obtain ⟨q, hq, -, hreads, hclean⟩ := pageInsert_reads env hinv hres hline
      (cdataNDIPrefix_flatten kdf hallowed.le_key hlt) hsetLt hcount hset hle hfree
    rw [htake, take_append_drop] at hreads
    refine ⟨q, ?_, hreads, hclean⟩
    rw [ndInsertWithPrefix, ← hq]
    congr 1
    rw [cdataNDIPrefixAndKeydataflagsToDataflags]
    split <;> simp [Nat.mod_eq_of_lt hlt]
  · rintro rfl hcomp
    have hsuffix : kdf.key.drop kdf.keyPrefix.length = kdf.keySuffix := drop_left
    rw [hsuffix] at hcount hfree
    obtain ⟨q, hq, -, hreads, hclean⟩ := pageInsert_reads env hinv hres hline
      (cdataNDI_flatten kdf) hflags hcount hcomp hle hfree
    rw [← hsuffix] at hclean
    rw [htake, ← hsuffix, take_append_drop] at hreads
    exact ⟨q, hq, hreads, hclean⟩

/-- A 2K leaf page without nodes whose external header is the key of three bytes `abc`. -/
def prefixPage : Page where
  cbPage := 2048
  cbBuffer := 2048
  buf
    | 28 => 0xd1 | 29 => 0x07 | 32 => 3 | 34 => 1 | 35 => 0x10 | 36 => 0x02 | 40 => 0x61
    | 41 => 0x62 | 42 => 0x63 | 2044 => 3 | _ => 0
  itagMicFree := 1
  ctagReserved := 1

theorem prefixPage_inv : LayoutInv prefixPage where
  normal := ⟨by decide, rfl⟩
  valid := by decide

/-- A deleted node with the key `abcd`, of which the header holds all but the last byte. -/
def deletedKdf : Kdf := ⟨[0x61, 0x62, 0x63], [0x64], [0], 6⟩

theorem deletedKdf_roundTrip :
    ∃ q, ndInsert PageRun.reservedTagsEnv prefixPage 0 deletedKdf = some q ∧
      Reads q 0 ⟨[0x61, 0x62, 0x63, 0x64], [0], 6⟩ ∧ (errNDIGetKeydataflags q 0).2 = none := by
  have hallowed : PrefixAllowed prefixPage deletedKdf.key 3 := ⟨by decide, by decide⟩
  obtain ⟨q, hq, hreads, hclean⟩ := (ndInsert_roundTrip PageRun.reservedTagsEnv prefixPage
    prefixPage_inv (by decide) 0 (by decide) deletedKdf (by decide) 3 hallowed
    ⟨by decide, by decide⟩ (by decide)).2 rfl (by decide)
  exact ⟨q, hq, hreads, hclean ⟨by decide, fun _ => by decide⟩⟩

end EseLinux.NodeInsert
