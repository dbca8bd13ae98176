import EseLinux.NodeInsert
import EseLinux.NodeSeek

/-!
Insertion into a leaf page at the place a seek finds, as `ErrBTInsert` does it.  However many
nodes are inserted, they stay in order and none is lost.
-/

namespace EseLinux.LeafInsert

open ByteMemory KeyCompare NodeAccess NodeInsert NodeLine NodeSeek
open PageFormat PageInsert PageLayout PageLine
open EseLinux.PageEdit (Env)
open EseLinux.PageTags (line)

/-- `JET_errSuccess`, `wrnNDFoundLess` and `wrnNDFoundGreater`. -/
inductive Found where
  | equal
  | less
  | greater
deriving DecidableEq, Repr

/-- The seek on a page that has nodes, with the line the cursor is put on. -/
def errNDISeekLeafPage (mc : Memcmp) (p : Page) (bm : KeyData) (fUnique fDefense : Bool) :
    Option (Found × Nat) :=
  (ilineNDISeekGEQ mc p bm fUnique fDefense).map fun x =>
    match x.1 with
    | some iline => (if x.2 = 0 then .equal else .greater, iline)
    | none => (.less, clines p - 1)

/-- The line `ErrBTInsert` inserts at: past the last node, if all are less. -/
def ilineInsert (found : Found) (iline : Nat) : Nat := if found = .less then iline + 1 else iline

/-- A line whose node can be read and has data. -/
structure Good (header : List UInt8) (fRootPage : Bool) (l : PageTags.Line) : Prop where
  wellFormed : WellFormed l
  cbPrefix_le : (parts l).cbPrefix ≤ header.length
  data_ne_nil : (parts l).data ≠ []
  root : fRootPage = true → fCompressed l.fFlags = false

/-- A leaf page with its nodes in order. -/
structure Leaf (fUnique : Bool) (p : Page) : Prop where
  layout : LayoutInv p
  reserved : 1 ≤ p.ctagReserved
  nonempty : 0 < clines p
  good : ∀ iline < clines p, Good (headerKey p) p.fRootPage (line p (iline + p.ctagReserved))
  sorted : SortedLeaf p fUnique

/-- A node that fits on the page, with what it is searched by.  Of its key only a part that the
external header holds is in the prefix. -/
structure Ready (fUnique : Bool) (p : Page) (bm : KeyData) (kdf : Kdf) : Prop where
  key : bm.key.bytes p.buf = kdf.key
  data : bm.data.bytes p.buf = if fUnique then [] else kdf.data
  data_ne_nil : kdf.data ≠ []
  fFlags_lt : kdf.fFlags < 8
  compressed : fCompressed kdf.fFlags = decide (0 < kdf.keyPrefix.length)
  keyPrefix : kdf.keyPrefix <+: headerKey p
  root : p.fRootPage = true → kdf.keyPrefix = []
  countable : Countable ⟨kdf.keyPrefix.length, kdf.keySuffix, kdf.data⟩
  fits : (nodeBytes ⟨kdf.keyPrefix.length, kdf.keySuffix, kdf.data⟩).length + cbTag ≤ p.cbFree

def entry (p : Page) (iline : Nat) : List UInt8 × List UInt8 := bookmark p false iline

/-- The place of a node that is not on the page. -/
structure Place (fUnique : Bool) (p : Page) (bm : List UInt8 × List UInt8) (k : Nat) : Prop where
  le : k ≤ clines p
  below : ∀ i < k, cmpBM (bookmark p fUnique i) bm = .lt
  above : ∀ i, k ≤ i → i < clines p → cmpBM (bookmark p fUnique i) bm = .gt

variable {p q : Page} {fUnique fDefense : Bool} {bm : KeyData} {kdf : Kdf} {iline : Nat}

theorem Leaf.hasNodes (h : Leaf fUnique p) : HasNodes p where
  layout := h.layout
  wellFormed i hi := (h.good i hi).wellFormed
  cbPrefix_le i hi := (h.good i hi).cbPrefix_le
  data_ne_nil i hi := (h.good i hi).data_ne_nil
  root hroot i hi := (h.good i hi).root hroot

section Seek

variable (mc : Memcmp) (h : Leaf fUnique p) (hready : Ready fUnique p bm kdf)
include hready

theorem Ready.cmp_eq_report : leafReport mc bm p fUnique iline = leafCmp mc bm p fUnique iline := by
  rw [leafReport]
  split
  case isFalse => rfl
  case isTrue hnull =>
    have hdata := hready.data
    -- only a unique tree is searched by a key without data
    cases fUnique with
    | false =>
      have hlen := congrArg List.length hdata
      rw [KeyCompare.Data.bytes_length, hnull.2] at hlen
      exact absurd (List.length_eq_zero_iff.mp hlen.symm) hready.data_ne_nil
    | true =>
      have hzero := cmpData_sign mc (m := p.buf) .null bm.data
      rw [hdata] at hzero
      rw [leafCmp, cmpKeyData]
      split
      case isFalse => rfl
      case isTrue hkey => exact hkey.trans (compare_eq_iff_eq.mp hzero).symm

include h

theorem Ready.cmp_sign (hiline : iline < clines p) :
    compare (leafCmp mc bm p fUnique iline) 0 =
      cmpBM (bookmark p fUnique iline) (kdf.key, if fUnique then [] else kdf.data) := by
  rw [h.hasNodes.leafCmp_sign mc bm hiline, hready.key, hready.data]

theorem Ready.seek (fDefense : Bool) : ∃ found iline,
    errNDISeekLeafPage mc p bm fUnique fDefense = some (found, iline) ∧
      (found = .equal → iline < clines p ∧
        bookmark p fUnique iline = (kdf.key, if fUnique then [] else kdf.data)) ∧
      (found ≠ .equal →
        Place fUnique p (kdf.key, if fUnique then [] else kdf.data) (ilineInsert found iline)) := by
  have hmono i j (hij : i < j) (hj : j < clines p) :=
    h.hasNodes.leafCmp_mono mc bm h.sorted hij hj
  have hpos := h.nonempty
  obtain ⟨k, hk⟩ : ∃ k, Bisect.Parts (leafCmp mc bm p fUnique) (clines p - 1) k :=
    Bisect.exists_parts fun i j hij hj => hmono i j hij (by omega)
  have hkn : k < clines p := Nat.lt_of_le_of_lt hk.le_last (by omega)
  have hbelow i (hi : i < k) := (hready.cmp_sign mc h (hi.trans hkn)).symm.trans
    (compare_lt_iff_lt.mpr (hk.before i hi))
  rw [errNDISeekLeafPage, h.hasNodes.ilineNDISeekGEQ_eq mc bm fDefense hpos hk,
    hready.cmp_eq_report, Option.map_some]
  rcases Int.lt_trichotomy (leafCmp mc bm p fUnique k) 0 with hneg | hzero | hgt
  · -- all nodes are less, and the cursor is put on the last one
    have hlast : k = clines p - 1 := by
      by_contra hne
      exact absurd (hk.at_least (by omega)) (Int.not_le.mpr hneg)
    simp only [if_pos hneg]
    refine ⟨_, _, rfl, (fun hfound => by cases hfound), fun _ => ?_⟩
    rw [ilineInsert, if_pos rfl, Nat.sub_add_cancel hpos]
    refine ⟨le_rfl, fun i hi => ?_, fun i hi hin => absurd hin (Nat.not_lt.mpr hi)⟩
    rcases Nat.lt_or_ge i k with hlt | hge
    · exact hbelow i hlt
    · rw [show i = k by omega, ← hready.cmp_sign mc h hkn]
      exact compare_lt_iff_lt.mpr hneg
  · have heq := hready.cmp_sign mc h hkn
    rw [hzero] at heq
    obtain ⟨hkey, hdata⟩ := Ordering.then_eq_eq.mp heq.symm
    simp only [hzero, Int.lt_irrefl, if_false, if_true]
    exact ⟨_, _, rfl, fun _ => ⟨hkn, Prod.ext (Std.LawfulEqOrd.compare_eq_iff_eq.mp hkey)
      (Std.LawfulEqOrd.compare_eq_iff_eq.mp hdata)⟩, fun hne => absurd rfl hne⟩
  · simp only [if_neg (Int.not_lt.mpr hgt.le), if_neg hgt.ne']
    refine ⟨_, _, rfl, (fun hfound => by cases hfound), fun _ =>
      ⟨hkn.le, hbelow, fun i hi hin => ?_⟩⟩
    rw [← hready.cmp_sign mc h hin]
    apply compare_gt_iff_gt.mpr
    rcases Nat.eq_or_lt_of_le hi with rfl | hlt
    · exact hgt
    · exact hmono k i hlt hin hgt.le

end Seek

theorem eq_or_shiftUp {k n i : Nat} (hk : k ≤ n) (hi : i < n + 1) :
    i = k ∨ ∃ j < n, i = shiftUp k j := by
  rcases Nat.lt_trichotomy i k with hlt | rfl | hgt
  · exact .inr ⟨i, by omega, (if_pos hlt).symm⟩
  · exact .inl rfl
  · exact .inr ⟨i - 1, by omega, by rw [shiftUp, if_neg (by omega)]; omega⟩

theorem sortedLeaf_insert {b : List UInt8 × List UInt8} {k : Nat} (hsorted : SortedLeaf p fUnique)
    (hplace : Place fUnique p b k) (hlines : clines q = clines p + 1)
    (hnew : bookmark q fUnique k = b)
    (hold : ∀ i < clines p, bookmark q fUnique (shiftUp k i) = bookmark p fUnique i) :
    SortedLeaf q fUnique := by
  intro i j hij hj
  rw [hlines] at hj
  rcases eq_or_shiftUp hplace.le (hij.trans hj) with rfl | ⟨i', hi', rfl⟩ <;>
    rcases eq_or_shiftUp hplace.le hj with rfl | ⟨j', hj', rfl⟩
  · exact absurd hij (Nat.lt_irrefl _)
  · rw [hnew, hold j' hj']
    have hle : i ≤ j' := by
      rw [shiftUp] at hij
      split at hij <;> omega
    exact Std.OrientedCmp.lt_of_gt (hplace.above j' hle hj')
  · rw [hnew, hold i' hi']
    have hlt : i' < j := by
      rw [shiftUp] at hij
      split at hij <;> omega
    exact hplace.below i' hlt
  · rw [hold i' hi', hold j' hj']
    have hlt : i' < j' := by
      simp only [shiftUp] at hij
      split at hij <;> split at hij <;> omega
    exact hsorted i' j' hlt hj'

/-- One node more: the new one on line `k`, the others in their order around it. -/
structure Inserted (fUnique : Bool) (p : Page) (kdf : Kdf) (k : Nat) (q : Page) : Prop where
  leaf : Leaf fUnique q
  clines : clines q = clines p + 1
  le : k ≤ NodeSeek.clines p
  new : entry q k = (kdf.key, kdf.data)
  old : ∀ i < NodeSeek.clines p, entry q (shiftUp k i) = entry p i

theorem Ready.insert (env : Env) (h : Leaf fUnique p) (hready : Ready fUnique p bm kdf) {k : Nat}
    (hplace : Place fUnique p (kdf.key, if fUnique then [] else kdf.data) k) :
    ∃ q, ndInsert env p k kdf = some q ∧ Inserted fUnique p kdf k q := by
  have hk := hplace.le
  have hpos := h.nonempty
  have hres := h.reserved
  rw [clines] at hk hpos
  have hbytes := cdataNDI_flatten kdf
  obtain ⟨q, hq, hins⟩ := insert_line env h.layout (by omega) (k := k + p.ctagReserved) (by omega)
    (by omega) (cdataNDIKeydataflagsToDataflags kdf).1 hready.fFlags_lt
    (by rw [hbytes, nodeBytes_length]; split <;> omega) (by rw [hbytes]; exact hready.fits)
  rw [hbytes] at hins
  have hctag := hins.header.ctagReserved
  have hroot := hins.header.fRootPage
  have hheader := LineInserted.headerKey (by omega) (by omega) hins
  have hlines : clines q = clines p + 1 := by
    rw [clines, clines, hins.itagMicFree, hctag]
    omega
  obtain ⟨hparts, hwf⟩ := parts_lineOf p.fSmallPageFormat hready.countable hready.compressed
  rw [← hins.newLine] at hparts hwf
  have hshift i (hi : i < clines p) :
      line q (shiftUp k i + q.ctagReserved) = line p (i + p.ctagReserved) := by
    rw [clines] at hi
    rw [← hins.lineEq (i + p.ctagReserved) (by omega), hctag, shiftUp, shiftUp]
    congr 1
    split <;> split <;> omega
  have hold i (hi : i < clines p) : node q (shiftUp k i) = node p i := by
    rw [node, node, hshift i hi, hheader]
  have hnew : (node q k).key = kdf.key ∧ (node q k).data = kdf.data := by
    rw [node, hctag, nodeOf, hparts, hheader, ← List.prefix_iff_eq_take.mp hready.keyPrefix]
    exact ⟨rfl, rfl⟩
  refine ⟨q, hq, ⟨hins.inv, by rwa [hctag], by omega, ?_, ?_⟩, hlines, hplace.le, ?_, ?_⟩
  · intro i hi
    rw [hlines] at hi
    rcases eq_or_shiftUp hplace.le hi with rfl | ⟨j, hj, rfl⟩
    · rw [hctag, hheader, hroot]
      refine ⟨hwf, hparts ▸ hready.keyPrefix.length_le, hparts ▸ hready.data_ne_nil, ?_⟩
      intro hfRoot
      rw [hins.newLine]
      exact hready.compressed.trans (by simp [hready.root hfRoot])
    · rw [hshift j hj, hheader, hroot]
      exact h.good j hj
  · refine sortedLeaf_insert h.sorted hplace hlines ?_ ?_
    · rw [bookmark, hnew.1, hnew.2]
    · exact fun i hi => by rw [bookmark, hold i hi, bookmark]
  · exact Prod.ext hnew.1 hnew.2
  · exact fun i hi => by rw [entry, bookmark, hold i hi]; rfl

section Run

variable (env : Env) (mc : Memcmp) (fUnique fDefense : Bool)

/-- The page after nodes that were not on it have been inserted one after the other. -/
inductive Filled (p : Page) : List Kdf → Page → Prop where
  | start : Filled p [] p
  | insert {kdfs : List Kdf} {q q' : Page} {bm : KeyData} {kdf : Kdf} {found : Found}
      {iline : Nat} (hfilled : Filled p kdfs q) (hready : Ready fUnique q bm kdf)
      (hseek : errNDISeekLeafPage mc q bm fUnique fDefense = some (found, iline))
      (hfound : found ≠ .equal) (hq : ndInsert env q (ilineInsert found iline) kdf = some q') :
      Filled p (kdf :: kdfs) q'

/-- The page `q` has the nodes of `p` and the given ones and no others, in order. -/
structure Holds (p : Page) (kdfs : List Kdf) (q : Page) : Prop where
  leaf : Leaf fUnique q
  clines : clines q = NodeSeek.clines p + kdfs.length
  mem_iff : ∀ e, (∃ i < NodeSeek.clines q, entry q i = e) ↔
    e ∈ kdfs.map (fun kdf => (kdf.key, kdf.data)) ∨ ∃ i < NodeSeek.clines p, entry p i = e

variable {env mc fUnique fDefense}

theorem Inserted.mem_iff {k : Nat} (h : Inserted fUnique p kdf k q)
    (e : List UInt8 × List UInt8) : (∃ i < NodeSeek.clines q, entry q i = e) ↔
      e = (kdf.key, kdf.data) ∨ ∃ i < NodeSeek.clines p, entry p i = e := by
  rw [h.clines]
  constructor
  · rintro ⟨i, hi, rfl⟩
    rcases eq_or_shiftUp h.le hi with rfl | ⟨j, hj, rfl⟩
    · exact .inl h.new
    · exact .inr ⟨j, hj, (h.old j hj).symm⟩
  · rintro (rfl | ⟨i, hi, rfl⟩)
    · exact ⟨k, Nat.lt_succ_of_le h.le, h.new⟩
    · exact ⟨shiftUp k i, shiftUp_lt hi, h.old i hi⟩

theorem Filled.holds {kdfs : List Kdf} (h : Leaf fUnique p)
    (hfilled : Filled env mc fUnique fDefense p kdfs q) : Holds fUnique p kdfs q := by
  induction hfilled with
  | start => exact ⟨h, rfl, fun e => by simp⟩
  | insert _ hready hseek hfound hq ih =>
    obtain ⟨_, _, hseek', -, hplace⟩ := hready.seek mc ih.leaf fDefense
    obtain ⟨rfl, rfl⟩ := Prod.mk.inj (Option.some.inj (hseek'.symm.trans hseek))
    obtain ⟨_, hq', hins⟩ := hready.insert env ih.leaf (hplace hfound)
    obtain rfl := Option.some.inj (hq'.symm.trans hq)
    refine ⟨hins.leaf, by rw [hins.clines, ih.clines, List.length_cons, Nat.add_assoc], ?_⟩
    intro e
    rw [hins.mem_iff, ih.mem_iff, List.map_cons, List.mem_cons, or_assoc]

/-- However many nodes are inserted where the seek puts them, the page holds its old nodes and the
new ones and no others, in order; and the next node that fits is found there or can be inserted. -/
theorem filled_leaf {kdfs : List Kdf} (h : Leaf fUnique p)
    (hfilled : Filled env mc fUnique fDefense p kdfs q) :
    Holds fUnique p kdfs q ∧ ∀ bm kdf, Ready fUnique q bm kdf → ∃ found iline,
      errNDISeekLeafPage mc q bm fUnique fDefense = some (found, iline) ∧
      (found = .equal → iline < clines q ∧
        bookmark q fUnique iline = (kdf.key, if fUnique then [] else kdf.data)) ∧
      (found ≠ .equal → (ndInsert env q (ilineInsert found iline) kdf).isSome) := by
  have hholds := hfilled.holds h
  refine ⟨hholds, fun bm kdf hready => ?_⟩
  obtain ⟨found, iline, hseek, hequal, hplace⟩ := hready.seek mc hholds.leaf fDefense
  refine ⟨found, iline, hseek, hequal, fun hfound => ?_⟩
  obtain ⟨_, hq, -⟩ := hready.insert env hholds.leaf (hplace hfound)
  rw [hq, Option.isSome_some]

end Run

theorem separatorPage_leaf : Leaf false separatorPage where
  layout := separatorPage_hasNodes.layout
  reserved := by decide
  nonempty := by decide
  good i hi := ⟨separatorPage_hasNodes.wellFormed i hi, separatorPage_hasNodes.cbPrefix_le i hi,
    separatorPage_hasNodes.data_ne_nil i hi, fun hroot => separatorPage_hasNodes.root hroot i hi⟩
  sorted := separatorPage_sorted.2

/-- The key `5` with the data `5`, which goes before the node of the same key. -/
theorem separatorPage_filled : ∃ q, Filled PageRun.reservedTagsEnv signMemcmp false true
    separatorPage [⟨[], [5], [5], 0⟩] q ∧ Holds false separatorPage [⟨[], [5], [5], 0⟩] q := by
  have hready : Ready false separatorPage ⟨⟨.null, ⟨3000, 1⟩⟩, ⟨3000, 1⟩⟩ ⟨[], [5], [5], 0⟩ :=
    ⟨by decide, by decide, by decide, by decide, by decide, List.nil_prefix, fun _ => rfl,
      ⟨by decide, by decide⟩, by decide⟩
  have hseek : errNDISeekLeafPage signMemcmp separatorPage ⟨⟨.null, ⟨3000, 1⟩⟩, ⟨3000, 1⟩⟩ false
      true = some (.greater, 0) := by decide
  have hstart : Filled PageRun.reservedTagsEnv signMemcmp false true separatorPage []
      separatorPage := .start
  obtain ⟨-, hnext⟩ := filled_leaf separatorPage_leaf hstart
  obtain ⟨found, iline, hseek', -, hsome⟩ := hnext _ _ hready
  obtain ⟨rfl, rfl⟩ := Prod.mk.inj (Option.some.inj (hseek'.symm.trans hseek))
  obtain ⟨q, hq⟩ := Option.isSome_iff_exists.mp (hsome (by decide))
  have hfilled := hstart.insert hready hseek (by decide) hq
  exact ⟨q, hfilled, (filled_leaf separatorPage_leaf hfilled).1⟩

end EseLinux.LeafInsert
