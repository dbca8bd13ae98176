import EseLinux.NodeInsert

/-!
Changing how much of a node's key is kept in the external header: `NDGrowCbPrefix` rewrites the
node from its own bytes on the page, `NDShrinkCbPrefix` from a copy.  The header may have been
taken away in the meantime, so nodes are read here against any header.
-/

namespace EseLinux.NodePrefix

open ByteMemory NodeAccess NodeLine NodeInsert PageFormat PageHeader PageLayout PageLine PageReplace
open List
open PageEdit (Env)
open PageTags (line)

/-- What `DATA` points to on the page, without its first `cb` bytes. -/
def dropPiece (cb : Nat) : PageEdit.Data → PageEdit.Data
  | .bytes bs => .bytes (bs.drop cb)
  | .onPage pb cbData => .onPage (pb + cb) (cbData - cb)

/-- A `KEYDATAFLAGS` whose parts may stand on the page. -/
structure PieceKdf where
  keyPrefix : PageEdit.Data
  keySuffix : PageEdit.Data
  data : PageEdit.Data
  fFlags : Nat

/-- The pieces and the flags of the line for a node with `cbPrefix` prefix bytes. -/
def piecesNDIPrefixAndKeydataflags (kdf : PieceKdf) (cbPrefix : Nat) :
    List PageEdit.Data × Nat :=
  let le_cbPrefix := cbPrefix % 65536
  let rgdataPrefix := if 0 < le_cbPrefix then [.bytes (le_cb le_cbPrefix)] else []
  let fFlags := setCompressed kdf.fFlags (decide (0 < le_cbPrefix))
  if kdf.keyPrefix.cb ≤ le_cbPrefix then
    let cbPrefixInSuffix := le_cbPrefix - kdf.keyPrefix.cb
    let cbSuffix := kdf.keySuffix.cb - cbPrefixInSuffix
    (rgdataPrefix ++ [.bytes (le_cb cbSuffix), dropPiece cbPrefixInSuffix kdf.keySuffix, kdf.data],
      fFlags)
  else
    let cbSuffix := kdf.keySuffix.cb + (kdf.keyPrefix.cb - le_cbPrefix)
    (rgdataPrefix ++
      [.bytes (le_cb cbSuffix), dropPiece le_cbPrefix kdf.keyPrefix, kdf.keySuffix, kdf.data],
      fFlags)

def Kdf.pieces (kdf : Kdf) : PieceKdf :=
  ⟨.bytes kdf.keyPrefix, .bytes kdf.keySuffix, .bytes kdf.data, kdf.fFlags⟩

theorem pieces_bytes (kdf : Kdf) (cbPrefix : Nat) :
    piecesNDIPrefixAndKeydataflags (Kdf.pieces kdf) cbPrefix =
      ((cdataNDIPrefixAndKeydataflagsToDataflags kdf cbPrefix).1.map PageEdit.Data.bytes,
        (cdataNDIPrefixAndKeydataflagsToDataflags kdf cbPrefix).2) := by
  simp only [piecesNDIPrefixAndKeydataflags, cdataNDIPrefixAndKeydataflagsToDataflags, Kdf.pieces,
    PageEdit.Data.cb]
  by_cases hle : kdf.keyPrefix.length ≤ cbPrefix % 65536
  · by_cases hpos : 0 < cbPrefix % 65536 <;> simp [hle, hpos, dropPiece]
  · by_cases hpos : 0 < cbPrefix % 65536 <;> simp [hle, hpos, dropPiece]

/-- A part of the current node.  The prefix has a null or an invalid pointer if there is no external
header; nothing is read there. -/
def piece (d : NodeAccess.Data) : PageEdit.Data :=
  match d.pv with
  | .page pb => .onPage pb d.cb.toNat
  | .null | .invalid => .onPage 0 d.cb.toNat

theorem piece_cb (d : NodeAccess.Data) : (piece d).cb = d.cb.toNat := by
  rw [piece]
  split <;> rfl

def pageReplace (env : Env) (p : Page) (iline : Nat) (line : List PageEdit.Data × Nat) :
    Option Page :=
  PageEdit.replace env p (iline + p.ctagReserved) line.1 line.2

def ndGrowCbPrefix (env : Env) (p : Page) (iline cbPrefixNew : Nat) : Option Page := do
  let kdfCurr ← ndiGetKeydataflags p iline
  let kdf : PieceKdf :=
    { keyPrefix := piece kdfCurr.keyPrefix
      keySuffix := piece kdfCurr.keySuffix
      data := piece kdfCurr.data
      fFlags := setCompressed kdfCurr.fFlags true }
  pageReplace env p iline (piecesNDIPrefixAndKeydataflags kdf cbPrefixNew)

def ndShrinkCbPrefix (env : Env) (p : Page) (iline : Nat) (dataOldPrefix : List UInt8)
    (cbPrefixNew : Nat) : Option Page := do
  let kdfCurr ← ndiGetKeydataflags p iline
  -- suffix and data are copied to a buffer, the prefix is read from `dataOldPrefix`
  let kdf : Kdf :=
    { keyPrefix := dataOldPrefix.take kdfCurr.keyPrefix.cb.toNat
      keySuffix := bytesOf p kdfCurr.keySuffix
      data := bytesOf p kdfCurr.data
      fFlags := setCompressed kdfCurr.fFlags (decide (0 < cbPrefixNew)) }
  pageReplace env p iline (piecesNDIPrefixAndKeydataflags (Kdf.pieces kdf) cbPrefixNew)

def nodeParts (p : Page) (iline : Nat) : Parts := parts (line p (iline + p.ctagReserved))

def pbLine (p : Page) (iline : Nat) : Nat := p.pbFromIb (p.tagIb (iline + p.ctagReserved))

def cbCounts (ps : Parts) : Nat := if 0 < ps.cbPrefix then 4 else 2

/-- A line with a node: its counts and its suffix are there, it is flagged as compressed when it
has a prefix, and on a root page the prefix is in the header. -/
structure HasNode (p : Page) (iline : Nat) : Prop where
  inv : LayoutInv p
  reserved : 1 ≤ p.ctagReserved
  line_lt : iline + p.ctagReserved < p.itagMicFree
  wellFormed : WellFormed (line p (iline + p.ctagReserved))
  compressed : fCompressed (p.tagFFlags (iline + p.ctagReserved)) =
    decide (0 < (nodeParts p iline).cbPrefix)
  root : p.fRootPage = true → (nodeParts p iline).cbPrefix ≤ (headerKey p).length

/-- What is read of a node, with its prefix at `pv`. -/
def currentKdf (p : Page) (iline : Nat) (pv : Pv) : KeyDataFlags :=
  let ps := nodeParts p iline
  let pb := pbLine p iline + cbCounts ps
  { keyPrefix := ⟨pv, ps.cbPrefix⟩
    keySuffix := ⟨.page pb, ps.suffix.length⟩
    data := ⟨.page (pb + ps.suffix.length), ps.data.length⟩
    fFlags := p.tagFFlags (iline + p.ctagReserved) }

section Current

variable {p : Page} {iline : Nat}

section

variable (h : HasNode p iline)
include h

theorem HasNode.cbKeyCountTotal_eq :
    cbKeyCountTotal (p.tagFFlags (iline + p.ctagReserved)) = cbCounts (nodeParts p iline) := by
  rw [cbKeyCountTotal, h.compressed, cbCounts]
  by_cases hpos : 0 < (nodeParts p iline).cbPrefix
  · simp [hpos, cbKeyCount, cbPrefixOverhead]
  · simp [hpos, cbKeyCount]

theorem HasNode.itag_ne_zero : iline + p.ctagReserved ≠ 0 := by
  have hres := h.reserved
  omega

theorem HasNode.lengths :
    (nodeParts p iline).suffix.length = cbSuffixOf (line p (iline + p.ctagReserved)) ∧
      cbCounts (nodeParts p iline) + (nodeParts p iline).suffix.length +
        (nodeParts p iline).data.length = p.tagCb (iline + p.ctagReserved) := by
  have hwf := h.wellFormed
  have htotal := h.cbKeyCountTotal_eq
  rw [WellFormed, line_data, line_fFlags, slice_length, htotal] at hwf
  have hsuffix : (nodeParts p iline).suffix.length =
      cbSuffixOf (line p (iline + p.ctagReserved)) := by
    rw [nodeParts, parts, line_data, line_fFlags, htotal, length_take, length_drop,
      slice_length]
    omega
  refine ⟨hsuffix, ?_⟩
  have hdata : (nodeParts p iline).data.length = p.tagCb (iline + p.ctagReserved) -
      (cbCounts (nodeParts p iline) + cbSuffixOf (line p (iline + p.ctagReserved))) := by
    rw [nodeParts, parts, line_data, line_fFlags, htotal, length_drop, slice_length]
    rfl
  omega

theorem HasNode.line_kdf :
    (ndiLineToKeydataflags p (pbLine p iline) (p.tagCb (iline + p.ctagReserved))
        (p.tagFFlags (iline + p.ctagReserved))).1 = currentKdf p iline .null := by
  obtain ⟨hsuffix, htotal⟩ := h.lengths
  have hcbSuffix := cbKeySuffix_eq h.wellFormed
  have hcbPrefix := cbKeyPrefix_eq h.wellFormed
  have hcounts := h.cbKeyCountTotal_eq
  rw [← hsuffix] at hcbSuffix
  have hdata : (p.tagCb (iline + p.ctagReserved) : Int) - (nodeParts p iline).suffix.length -
      cbCounts (nodeParts p iline) = (nodeParts p iline).data.length := by
    omega
  simp only [ndiLineToKeydataflags, pbLine, hcounts, hcbSuffix, hcbPrefix, hdata]
  rfl

theorem HasNode.bytes :
    slice p.buf (pbLine p iline + cbCounts (nodeParts p iline)) (nodeParts p iline).suffix.length =
        (nodeParts p iline).suffix ∧
      slice p.buf (pbLine p iline + cbCounts (nodeParts p iline) +
        (nodeParts p iline).suffix.length) (nodeParts p iline).data.length =
          (nodeParts p iline).data := by
  obtain ⟨-, hreadSuffix, hreadData, -⟩ := ndiLineToKeydataflags_parts h.wellFormed
  have hkdf := h.line_kdf
  simp only [pbLine] at hkdf
  rw [hkdf] at hreadSuffix hreadData
  exact ⟨hreadSuffix, hreadData⟩

theorem HasNode.read : ∃ pv, ndiGetKeydataflags p iline = some (currentKdf p iline pv) := by
  obtain ⟨htwo, henforce⟩ := h.wellFormed.passes
  have hne : p.tagCb (iline + p.ctagReserved) ≠ 0 := by omega
  have hkdf := h.line_kdf
  simp only [pbLine] at hkdf
  simp only [ndiGetKeydataflags, getPtrNoChecks, if_neg hne, if_neg henforce, hkdf, currentKdf,
    h.compressed, decide_eq_true_eq]
  by_cases hpos : 0 < (nodeParts p iline).cbPrefix
  · rw [if_pos hpos, ndiSetPrefixNoChecks]
    cases hroot : p.fRootPage with
    | false => exact ⟨_, rfl⟩
    | true =>
      cases htree : p.fSpaceTree with
      | true => exact ⟨_, rfl⟩
      | false =>
        -- such a page has no prefix
        have hle := h.root hroot
        have hkey : headerKey p = [] := by simp [headerKey, hroot, htree]
        rw [hkey, length_nil] at hle
        omega
  · rw [if_neg hpos, Nat.eq_zero_of_not_pos hpos]
    exact ⟨_, rfl⟩

end

end Current

theorem tagFFlags_lt (p : Page) (itag : Nat) : p.tagFFlags itag < 8 := by
  have hword (a : Nat) : (word p.buf a &&& Page.mskTagFlags) >>> Page.shfTagFlags < 8 := by
    have hlt := word_lt p.buf a
    rw [PageTags.and_mskTagFlags_shiftRight _ hlt]
    omega
  rw [Page.tagFFlags]
  split
  · exact hword _
  · split
    · exact hword _
    · decide

theorem cbPrefix_le (l : PageTags.Line) : (parts l).cbPrefix ≤ usNDCbKeyMask := by
  simp only [parts]
  split
  · exact Nat.and_le_right
  · exact Nat.zero_le _

/-- The node was changed to keep `cbPrefix` bytes in the header. -/
structure PrefixChanged (p : Page) (iline : Nat) (key : List UInt8) (cbPrefix : Nat) (q : Page) :
    Prop where
  only : OnlyLine p (iline + p.ctagReserved) q
  header : SameHeader p q
  line_eq : line q (iline + p.ctagReserved) = lineOf p.fSmallPageFormat
    (setCompressed (p.tagFFlags (iline + p.ctagReserved)) (decide (0 < cbPrefix)))
    (nodeBytes ⟨cbPrefix, key.drop cbPrefix, (nodeParts p iline).data⟩)

section Change

variable {p : Page} {iline : Nat} {header : List UInt8}

theorem setCompressed_setCompressed (fFlags : Nat) (f f' : Bool) (hflags : fFlags < 8) :
    setCompressed (setCompressed fFlags f) f' = setCompressed fFlags f' := by
  have hall : ∀ n < 8, ∀ f f', setCompressed (setCompressed n f) f' = setCompressed n f' := by
    decide
  exact hall fFlags hflags f f'

theorem HasNode.key_eq (header : List UInt8) :
    (nodeOf header (line p (iline + p.ctagReserved))).key =
      header.take (nodeParts p iline).cbPrefix ++ (nodeParts p iline).suffix := rfl

theorem HasNode.key_length (hheader : (nodeParts p iline).cbPrefix ≤ header.length) :
    (nodeOf header (line p (iline + p.ctagReserved))).key.length =
      (nodeParts p iline).cbPrefix + (nodeParts p iline).suffix.length := by
  rw [HasNode.key_eq, length_append, length_take, min_eq_left hheader]

variable {cbPrefix : Nat}

theorem ndShrinkCbPrefix_changes (env : Env) (h : HasNode p iline)
    (hheader : (nodeParts p iline).cbPrefix ≤ header.length)
    (hlt : cbPrefix < (nodeParts p iline).cbPrefix)
    (hfree : (nodeBytes ⟨cbPrefix, (nodeOf header (line p (iline + p.ctagReserved))).key.drop
      cbPrefix, (nodeParts p iline).data⟩).length ≤ p.tagCb (iline + p.ctagReserved) + p.cbFree) :
    ∃ q, ndShrinkCbPrefix env p iline header cbPrefix = some q ∧
      PrefixChanged p iline (nodeOf header (line p (iline + p.ctagReserved))).key cbPrefix q := by
  have hmask := cbPrefix_le (line p (iline + p.ctagReserved))
  have hsmall : cbPrefix < 65536 := by
    simp only [nodeParts, usNDCbKeyMask] at *
    omega
  obtain ⟨pv, hread⟩ := h.read
  obtain ⟨hsuffix, hdata⟩ := h.bytes
  have hflags := tagFFlags_lt p (iline + p.ctagReserved)
  generalize hkdf : (⟨header.take (nodeParts p iline).cbPrefix, (nodeParts p iline).suffix,
    (nodeParts p iline).data,
    setCompressed (p.tagFFlags (iline + p.ctagReserved)) (decide (0 < cbPrefix))⟩ : Kdf) = kdf
  have hkey : kdf.key = (nodeOf header (line p (iline + p.ctagReserved))).key := by
    rw [← hkdf]
    rfl
  have hle : cbPrefix ≤ kdf.key.length := by
    rw [hkey, HasNode.key_length hheader]
    omega
  have hflatten := cdataNDIPrefix_flatten kdf hle hsmall
  rw [hkey, show kdf.data = (nodeParts p iline).data by rw [← hkdf]] at hflatten
  have hnewFlags : (cdataNDIPrefixAndKeydataflagsToDataflags kdf cbPrefix).2 =
      setCompressed (p.tagFFlags (iline + p.ctagReserved)) (decide (0 < cbPrefix)) := by
    rw [← hkdf]
    simp only [cdataNDIPrefixAndKeydataflagsToDataflags, Nat.mod_eq_of_lt hsmall]
    split <;> exact setCompressed_setCompressed _ _ _ hflags
  have htwo : 2 ≤ (nodeBytes ⟨cbPrefix, (nodeOf header (line p (iline + p.ctagReserved))).key.drop
      cbPrefix, (nodeParts p iline).data⟩).length := by
    rw [nodeBytes_length]
    split <;> omega
  obtain ⟨q, hq, honly, hsame, hline⟩ := replace_line env h.inv h.line_lt h.itag_ne_zero
    (cdataNDIPrefixAndKeydataflagsToDataflags kdf cbPrefix).1
    (setCompressed_spec hflags (decide (0 < cbPrefix))).1
    (Or.inl (by rw [hflatten]; exact htwo)) (by rw [hflatten]; exact hfree)
  refine ⟨q, ?_, honly, hsame, by rw [hline, hflatten]⟩
  rw [ndShrinkCbPrefix, hread]
  simp only [Option.bind_eq_bind, Option.bind_some, currentKdf, bytesOf, Int.toNat_natCast, hsuffix,
    hdata, hkdf]
  rw [pageReplace, pieces_bytes, hnewFlags]
  exact hq

def grownPieces (p : Page) (iline cbPrefix : Nat) : List PageEdit.Data :=
  let ps := nodeParts p iline
  let cbPrefixInSuffix := cbPrefix - ps.cbPrefix
  [.bytes (le_cb cbPrefix), .bytes (le_cb (ps.suffix.length - cbPrefixInSuffix)),
    .onPage (pbLine p iline + cbCounts ps + cbPrefixInSuffix)
      (ps.suffix.length - cbPrefixInSuffix),
    .onPage (pbLine p iline + cbCounts ps + ps.suffix.length) ps.data.length]

theorem ndGrowCbPrefix_eq (env : Env) (h : HasNode p iline)
    (hlt : (nodeParts p iline).cbPrefix < cbPrefix) (hsmall : cbPrefix < 65536) :
    ndGrowCbPrefix env p iline cbPrefix =
      PageEdit.replace env p (iline + p.ctagReserved) (grownPieces p iline cbPrefix)
        (setCompressed (p.tagFFlags (iline + p.ctagReserved)) (decide (0 < cbPrefix))) := by
  obtain ⟨pv, hread⟩ := h.read
  have hpos : 0 < cbPrefix := Nat.zero_lt_of_lt hlt
  have hflags := setCompressed_setCompressed _ true (decide (0 < cbPrefix))
    (tagFFlags_lt p (iline + p.ctagReserved))
  rw [ndGrowCbPrefix, hread]
  simp only [Option.bind_eq_bind, Option.bind_some, pageReplace, piecesNDIPrefixAndKeydataflags,
    currentKdf, piece_cb, Int.toNat_natCast, Nat.mod_eq_of_lt hsmall, if_pos hpos, if_pos hlt.le,
    hflags]
  rfl

theorem cbDataTotal_grownPieces (p : Page) (iline cbPrefix : Nat) :
    PageEdit.cbDataTotal (grownPieces p iline cbPrefix) =
      4 + ((nodeParts p iline).suffix.length - (cbPrefix - (nodeParts p iline).cbPrefix)) +
        (nodeParts p iline).data.length := by
  simp only [grownPieces, PageWrite.cbDataTotal_cons, PageEdit.Data.cb, le_cb,
    DigitList.leBytes_length]
  simp only [PageEdit.cbDataTotal, map_nil, sum_nil]
  omega

theorem ndGrowCbPrefix_changes (env : Env) (h : HasNode p iline)
    (hheader : (nodeParts p iline).cbPrefix ≤ header.length)
    (hlt : (nodeParts p iline).cbPrefix < cbPrefix) (htwo : 2 ≤ cbPrefix)
    (hle : cbPrefix ≤ (nodeOf header (line p (iline + p.ctagReserved))).key.length)
    (hsmall : cbPrefix < 65536) : ∃ q, ndGrowCbPrefix env p iline cbPrefix = some q ∧
      PrefixChanged p iline (nodeOf header (line p (iline + p.ctagReserved))).key cbPrefix q := by
  obtain ⟨hsuffix, hdata⟩ := h.bytes
  obtain ⟨-, htotal⟩ := h.lengths
  have hflags := tagFFlags_lt p (iline + p.ctagReserved)
  have hsum := cbDataTotal_grownPieces p iline cbPrefix
  rw [HasNode.key_length hheader] at hle
  -- the counts are written before the suffix, which starts behind them
  have hcounts : 4 ≤ cbCounts (nodeParts p iline) + (cbPrefix - (nodeParts p iline).cbPrefix) := by
    rw [cbCounts]
    split <;> omega
  have hahead : Ahead (pbLine p iline) (grownPieces p iline cbPrefix) := by
    simp only [grownPieces, Ahead, le_cb, DigitList.leBytes_length]
    refine ⟨Or.inr ?_, Or.inr ?_, trivial⟩ <;> omega
  have hown : OwnPieces p (iline + p.ctagReserved) (grownPieces p iline cbPrefix) := by
    intro pb cb hmem hne
    simp only [grownPieces, mem_cons, PageEdit.Data.onPage.injEq, not_mem_nil, or_false,
      reduceCtorEq, false_or] at hmem
    simp only [pbLine] at hmem
    rcases hmem with ⟨rfl, rfl⟩ | ⟨rfl, rfl⟩ <;> omega
  obtain ⟨q, hq, honly, hsame, hline⟩ := replace_line_own env h.inv h.line_lt
    h.itag_ne_zero (setCompressed_spec hflags (decide (0 < cbPrefix))).1 (Or.inl (by omega))
    (by omega) hown hahead
  refine ⟨q, (ndGrowCbPrefix_eq env h hlt hsmall).trans hq, honly, hsame, ?_⟩
  have hdrop : (nodeOf header (line p (iline + p.ctagReserved))).key.drop cbPrefix =
      (nodeParts p iline).suffix.drop (cbPrefix - (nodeParts p iline).cbPrefix) := by
    rw [HasNode.key_eq, drop_append, drop_of_length_le, nil_append,
      length_take, min_eq_left hheader]
    rw [length_take]
    omega
  have hpieceSuffix : slice p.buf (pbLine p iline + cbCounts (nodeParts p iline) +
      (cbPrefix - (nodeParts p iline).cbPrefix))
      ((nodeParts p iline).suffix.length - (cbPrefix - (nodeParts p iline).cbPrefix)) =
      (nodeParts p iline).suffix.drop (cbPrefix - (nodeParts p iline).cbPrefix) := by
    rw [← drop_slice _ (by omega), hsuffix]
  rw [hline, hdrop, nodeBytes, if_pos (show 0 < cbPrefix by omega), length_drop]
  simp only [grownPieces, map_cons, map_nil, pieceBytes, hpieceSuffix, hdata,
    flatten_cons, flatten_nil, append_nil]

end Change

def cbOverhead (cbPrefix : Nat) : Nat := if 0 < cbPrefix then cbPrefixOverhead else 0

/-- The node reads as before but for the flag that says whether it has a prefix, all other nodes
and the external header read as before, and the line changed by the bytes that went into the header
or came from it, and by the prefix count where that came or went. -/
structure NodeKept (p : Page) (iline cbPrefix : Nat) (q : Page) : Prop where
  inv : LayoutInv q
  itagMicFree : q.itagMicFree = p.itagMicFree
  ctagReserved : q.ctagReserved = p.ctagReserved
  reads : Reads q iline ⟨(node p iline).key, (node p iline).data,
    setCompressed (node p iline).fFlags (decide (0 < cbPrefix))⟩
  headerKey : headerKey q = headerKey p
  others : ∀ j, j + p.ctagReserved < p.itagMicFree → j ≠ iline → node q j = node p j
  size : q.tagCb (iline + p.ctagReserved) + cbPrefix + cbOverhead (nodeParts p iline).cbPrefix =
    p.tagCb (iline + p.ctagReserved) + (nodeParts p iline).cbPrefix + cbOverhead cbPrefix

section Kept

variable {p q : Page} {iline cbPrefix : Nat}

theorem cbCounts_eq (ps : Parts) : cbCounts ps = 2 + cbOverhead ps.cbPrefix := by
  rw [cbCounts, cbOverhead]
  split <;> rfl

theorem PrefixChanged.kept (h : HasNode p iline)
    (hcbPrefix : (nodeParts p iline).cbPrefix ≤ (headerKey p).length)
    (hkey : (node p iline).key.length ≤ usNDCbKeyMask)
    (hallowed : PrefixAllowed p (node p iline).key cbPrefix)
    (hq : PrefixChanged p iline (node p iline).key cbPrefix q) : NodeKept p iline cbPrefix q := by
  have hctag := hq.only.ctagReserved
  have hheader : NodeLine.headerKey q = NodeLine.headerKey p := by
    have hzero := hq.only.lineEq 0 (Nat.zero_lt_of_lt h.line_lt) h.itag_ne_zero.symm
    have hdata : q.tagData 0 = p.tagData 0 := congrArg PageTags.Line.data hzero
    rw [NodeLine.headerKey, NodeLine.headerKey, hq.header.fRootPage, hq.header.fSpaceTree, hdata]
  obtain ⟨hle, htake⟩ := hallowed.take_eq
  have hflags := tagFFlags_lt p (iline + p.ctagReserved)
  have hline := hq.line_eq
  have hcountable : Countable ⟨cbPrefix, (node p iline).key.drop cbPrefix,
      (nodeParts p iline).data⟩ := by
    have hkeyLe := hallowed.le_key
    refine ⟨hkeyLe.trans hkey, ?_⟩
    rw [length_drop]
    omega
  have hsize : q.tagCb (iline + p.ctagReserved) = (nodeBytes ⟨cbPrefix,
      (node p iline).key.drop cbPrefix, (nodeParts p iline).data⟩).length := by
    have hlen := congrArg (fun l : PageTags.Line => l.data.length) hline
    rwa [line_data, slice_length, lineOf_length] at hlen
  have hlineq := (congrArg (fun n => line q (iline + n)) hctag).trans hline
  obtain ⟨hnode, hreads, -⟩ := reads_of_line hq.only.inv
    (by rw [hctag, hq.only.itagMicFree]; exact h.line_lt) hlineq hcountable
    (setCompressed_spec hflags _).2 (by rwa [hheader])
  rw [hnode, hheader, htake, take_append_drop] at hreads
  refine ⟨hq.only.inv, hq.only.itagMicFree, hctag, hreads, hheader, ?_, ?_⟩
  · intro j hj hne
    rw [node, node, hheader, hctag, hq.only.lineEq _ hj (by omega)]
  · obtain ⟨-, htotal⟩ := h.lengths
    have hlength : (node p iline).key.length = _ := HasNode.key_length hcbPrefix
    have hkeyLe := hallowed.le_key
    have hcounts := cbCounts_eq ⟨cbPrefix, (node p iline).key.drop cbPrefix,
      (nodeParts p iline).data⟩
    have hcounts' := cbCounts_eq (nodeParts p iline)
    rw [nodeBytes_length, length_drop] at hsize
    simp only [cbCounts] at hcounts
    simp only at hsize
    omega

end Kept

/-- Changing how much of a key is kept in the external header keeps the nodes.  A longer prefix must
be worth its count, a shorter one find room for the bytes that come back. -/
theorem changePrefix_keeps (env : Env) (p : Page) (iline cbPrefixNew : Nat) (h : HasNode p iline)
    (hcbPrefix : (nodeParts p iline).cbPrefix ≤ (headerKey p).length)
    (hkey : (node p iline).key.length ≤ usNDCbKeyMask)
    (hallowed : PrefixAllowed p (node p iline).key cbPrefixNew) :
    ((nodeParts p iline).cbPrefix < cbPrefixNew → cbPrefixOverhead ≤ cbPrefixNew →
      ∃ q, ndGrowCbPrefix env p iline cbPrefixNew = some q ∧ NodeKept p iline cbPrefixNew q) ∧
    (cbPrefixNew < (nodeParts p iline).cbPrefix →
      ∀ dataOldPrefix : List UInt8, dataOldPrefix.take (nodeParts p iline).cbPrefix =
        (headerKey p).take (nodeParts p iline).cbPrefix →
      (nodeParts p iline).cbPrefix + cbOverhead cbPrefixNew ≤
        p.cbFree + cbPrefixNew + cbPrefixOverhead →
      ∃ q, ndShrinkCbPrefix env p iline dataOldPrefix cbPrefixNew = some q ∧
        NodeKept p iline cbPrefixNew q) := by
  constructor
  · intro hlt htwo
    have hkeyLe := hallowed.le_key
    obtain ⟨q, hq, hchanged⟩ := ndGrowCbPrefix_changes env h hcbPrefix hlt htwo hkeyLe (by
      simp only [usNDCbKeyMask] at hkey
      omega)
    exact ⟨q, hq, hchanged.kept h hcbPrefix hkey hallowed⟩
  · intro hlt dataOldPrefix hsame hfree
    have hle : (nodeParts p iline).cbPrefix ≤ dataOldPrefix.length := by
      have hlength := congrArg length hsame
      rw [length_take, length_take, min_eq_left hcbPrefix] at hlength
      omega
    have hkeyEq : (nodeOf dataOldPrefix (line p (iline + p.ctagReserved))).key =
        (node p iline).key := by
      rw [node, HasNode.key_eq, HasNode.key_eq, hsame]
    have hlength : (node p iline).key.length = _ := HasNode.key_length hcbPrefix
    obtain ⟨-, htotal⟩ := h.lengths
    have hcounts := cbCounts_eq (nodeParts p iline)
    have hroom : (nodeBytes ⟨cbPrefixNew, (nodeOf dataOldPrefix
        (line p (iline + p.ctagReserved))).key.drop cbPrefixNew,
        (nodeParts p iline).data⟩).length ≤ p.tagCb (iline + p.ctagReserved) + p.cbFree := by
      rw [hkeyEq, nodeBytes_length, length_drop, hlength]
      have hnew := cbCounts_eq ⟨cbPrefixNew, [], []⟩
      simp only [cbCounts] at hnew
      simp only
      have hold : cbOverhead (nodeParts p iline).cbPrefix = cbPrefixOverhead :=
        if_pos (Nat.zero_lt_of_lt hlt)
      omega
    obtain ⟨q, hq, hchanged⟩ := ndShrinkCbPrefix_changes env h hle hlt hroom
    rw [hkeyEq] at hchanged
    exact ⟨q, hq, hchanged.kept h hcbPrefix hkey hallowed⟩

/-- A 2K leaf page whose external header is `abc`, with one node of key `abcd` and data `9` that
does not use it. -/
def abcPage : Page where
  cbPage := 2048
  cbBuffer := 2048
  buf
    | 28 => 0xc6 | 29 => 0x07 | 32 => 10 | 34 => 2 | 35 => 0x10 | 36 => 0x02 | 40 => 0x61
    | 41 => 0x62 | 42 => 0x63 | 43 => 4 | 45 => 0x61 | 46 => 0x62 | 47 => 0x63 | 48 => 0x64
    | 49 => 9 | 2040 => 7 | 2042 => 3 | 2044 => 3 | _ => 0
  itagMicFree := 2
  ctagReserved := 1

theorem abcPage_hasNode : HasNode abcPage 0 where
  inv := ⟨⟨by decide, rfl⟩, by decide⟩
  reserved := by decide
  line_lt := by decide
  wellFormed := by decide
  compressed := by decide
  root := by decide

/-- A prefix of three bytes saves one byte, and the node reads as before. -/
theorem abcPage_grows :
    ∃ q, ndGrowCbPrefix PageRun.reservedTagsEnv abcPage 0 3 = some q ∧ q.tagCb 1 = 6 ∧
      Reads q 0 ⟨[0x61, 0x62, 0x63, 0x64], [9], 4⟩ := by
  obtain ⟨q, hq, hkept⟩ := (changePrefix_keeps PageRun.reservedTagsEnv abcPage 0 3 abcPage_hasNode
    (by decide) (by decide) ⟨by decide, by decide⟩).1 (by decide) (by decide)
  have hsize := hkept.size
  have hold : abcPage.tagCb (0 + abcPage.ctagReserved) = 7 := rfl
  have hnone : (nodeParts abcPage 0).cbPrefix = 0 := rfl
  rw [hold, hnone] at hsize
  refine ⟨q, hq, ?_, hkept.reads⟩
  simp only [cbOverhead, cbPrefixOverhead] at hsize
  change q.tagCb 1 + 3 + _ = _ at hsize
  simpa using hsize

/-- A prefix of three bytes sets the flag of a node that had none.  One of a single byte, which the
code asserts against, makes the line grow over its own bytes. -/
theorem abcPage_changed :
    PrefixAllowed abcPage (node abcPage 0).key 3 ∧ PrefixAllowed abcPage (node abcPage 0).key 1 ∧
      node abcPage 0 = ⟨[0x61, 0x62, 0x63, 0x64], [9], 0⟩ ∧
      (ndGrowCbPrefix PageRun.reservedTagsEnv abcPage 0 3).map (node · 0) =
        some ⟨[0x61, 0x62, 0x63, 0x64], [9], 4⟩ ∧
      (ndGrowCbPrefix PageRun.reservedTagsEnv abcPage 0 1).map (fun q => (node q 0).key) =
        some [0x61, 0x00, 0x63, 0x64] := by
  refine ⟨⟨by decide, by decide⟩, ⟨by decide, by decide⟩, by decide, by decide, ?_⟩
  decide

end EseLinux.NodePrefix
