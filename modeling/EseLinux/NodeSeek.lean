import EseLinux.Bisect
import EseLinux.KeyCompare
import EseLinux.NodeLine

/-!
Seeking a bookmark on a page.  Leaf and internal pages are bisected; beside each search stands the
linear one that a debug build checks it against.  The bookmark is in the same memory as the page,
in its buffer or beyond.
-/

namespace EseLinux.NodeSeek

open ByteMemory KeyCompare PageFormat NodeAccess NodeLine PageLayout Option
open PageTags (line)

def clines (p : Page) : Nat := p.itagMicFree - p.ctagReserved

/-- A pointer as an address; one that names no byte comes with a size of zero. -/
def address : Pv → Nat
  | .page a => a
  | _ => 0

def dataOf (d : NodeAccess.Data) : KeyCompare.Data := ⟨address d.pv, d.cb.toNat⟩

def keyDataOf (kdf : KeyDataFlags) : KeyData where
  key := ⟨dataOf kdf.keyPrefix, dataOf kdf.keySuffix⟩
  data := dataOf kdf.data

def ndGetBookmarkFromKDF (kdf : KeyDataFlags) (fUnique : Bool) : KeyData :=
  { keyDataOf kdf with data := if fUnique then .null else dataOf kdf.data }

section Searches

variable (mc : Memcmp) (p : Page) (bm : KeyData)

/-- The comparison at the middle of the range.  `fDefense` is
`g_fNodeMiscMemoryTrashedDefenseInDepthTemp`, under which a node without data fails a
`PageEnforce`. -/
def probeLeaf (fUnique fDefense : Bool) (ilineMid : Nat) : Option Int :=
  (ndiGetKeydataflags p ilineMid).bind fun kdf =>
    if 0 < kdf.data.cb ∨ fDefense = false then
      some (cmpKeyData mc p.buf (ndGetBookmarkFromKDF kdf fUnique) bm)
    else none

def ilineNDISeekGEQ (fUnique fDefense : Bool) : Option (Option Nat × Int) := do
  let stop ← Bisect.search (probeLeaf mc p bm fUnique fDefense) (clines p)
  if stop.cmp ≠ 0 ∧ bm.data.cb = 0 then
    let kdf ← ndiGetKeydataflags p stop.mid
    return (stop.found, cmpKey mc p.buf (ndGetBookmarkFromKDF kdf fUnique).key bm.key)
  else
    return (stop.found, stop.cmp)

def stepLeafDebug (fUnique : Bool) (iline : Nat) : Option (Option (Nat × Int)) :=
  (ndiGetKeydataflags p iline).bind fun kdf =>
    let bmNode := ndGetBookmarkFromKDF kdf fUnique
    let cmp := cmpKey mc p.buf bmNode.key bm.key
    if cmp < 0 then some none
    else if cmp > 0 ∨ bm.data.cb = 0 then some (some (iline, cmp))
    else
      let cmp := cmpData mc p.buf bmNode.data bm.data
      if cmp ≥ 0 then some (some (iline, cmp)) else some none

/-- The line and the comparison there; the comparison is not set where there is no line. -/
def ilineNDISeekGEQDebug (fUnique : Bool) : Option (Option (Nat × Int)) :=
  Bisect.scan (stepLeafDebug mc p bm fUnique) (clines p) 0

/-- The node of an internal page: its prefix always points to the external header. -/
def internalNode (iline : Nat) : Option KeyData :=
  let lineExternalHeader := getPtrNoChecks p 0
  let line := getPtrNoChecks p (iline + p.ctagReserved)
  match line.pv with
  | .page pb =>
    if line.cb ≤ cbKeyCountTotal line.fFlags ∧ line.cb ≤ cbKeySuffix p pb line.fFlags then none
    else
      let kdf := (ndiLineToKeydataflags p pb line.cb line.fFlags).1
      let kdf := { kdf with keyPrefix := ⟨lineExternalHeader.pv, kdf.keyPrefix.cb⟩ }
      if kdf.keyPrefix.cb.toNat ≤ lineExternalHeader.cb ∧ kdf.keySuffix.cb.toNat < line.cb ∧
          pb + line.cb < cbPageMax then
        some (keyDataOf kdf)
      else none
  | _ => none

def probeInternal (ilineMid : Nat) : Option Int :=
  (internalNode p ilineMid).map fun kdfNode => cmpKeyWithKeyData mc p.buf kdfNode.key bm

def ilineNDISeekGEQInternal : Option (Nat × Int) :=
  if (getPtrNoChecks p 0).cb < cbPageMax then do
    let stop ← Bisect.search (probeInternal mc p bm) (clines p)
    -- the last node has a null key, so a seek for a null key may have found it
    if stop.cmp = 0 ∧ bm.key.fNull = false then return (stop.mid, 0)
    else return (stop.mid, 1)
  else none

def stepInternalDebug (iline : Nat) : Option (Option (Nat × Int)) :=
  (ndiGetKeydataflags p iline).map fun kdf =>
    let compare := cmpKeyWithKeyData mc p.buf (keyDataOf kdf).key bm
    if compare < 0 then none else some (iline, compare)

/-- The last key is greater than everything else, so it is not compared. -/
def ilineNDISeekGEQInternalDebug : Option (Nat × Int) :=
  (Bisect.scan (stepInternalDebug mc p bm) (clines p - 1) 0).map fun found =>
    found.getD (clines p - 1, 1)

end Searches

/-- The lines of the page are nodes: what their key counts announce is there, and they have data.
A root page has no prefix behind its space header or split buffer. -/
structure HasNodes (p : Page) : Prop where
  layout : LayoutInv p
  wellFormed : ∀ iline < clines p, WellFormed (line p (iline + p.ctagReserved))
  cbPrefix_le : ∀ iline < clines p,
    (parts (line p (iline + p.ctagReserved))).cbPrefix ≤ (headerKey p).length
  data_ne_nil : ∀ iline < clines p, (node p iline).data ≠ []
  root : p.fRootPage = true → ∀ iline < clines p,
    fCompressed (p.tagFFlags (iline + p.ctagReserved)) = false

def cmpBM (bm bm' : List UInt8 × List UInt8) : Ordering :=
  (compare bm.1 bm'.1).then (compare bm.2 bm'.2)

/-- What identifies a node: its key, and on a tree that is not unique its data. -/
def bookmark (p : Page) (fUnique : Bool) (iline : Nat) : List UInt8 × List UInt8 :=
  ((node p iline).key, if fUnique then [] else (node p iline).data)

def SortedLeaf (p : Page) (fUnique : Bool) : Prop :=
  ∀ i j, i < j → j < clines p → cmpBM (bookmark p fUnique i) (bookmark p fUnique j) = .lt

/-- The separators of an internal page are in order; the last one has no place in it. -/
def SortedInternal (p : Page) : Prop :=
  ∀ i j, i < j → j < clines p - 1 → compare (node p i).key (node p j).key = .lt

variable {p : Page} {iline : Nat}

theorem bytes_dataOf {d : NodeAccess.Data} (h : d.cb ≤ 0 ∨ ∃ a, d.pv = .page a) :
    (dataOf d).bytes p.buf = bytesOf p d := by
  obtain ⟨pv, cb⟩ := d
  rcases h with hcb | ⟨a, rfl⟩
  · have hzero : cb.toNat = 0 := Int.toNat_of_nonpos hcb
    rcases pv with _ | _ | a <;> simp [dataOf, bytesOf, KeyCompare.Data.bytes, hzero]
  · rfl

theorem header_pv {cbPrefix : Nat} (hle : cbPrefix ≤ p.tagCb 0) :
    (cbPrefix : Int) ≤ 0 ∨ ∃ a, (getPtrNoChecks p 0).pv = .page a := by
  rcases Nat.eq_zero_or_pos (p.tagCb 0) with hcb | hcb
  · exact Or.inl (by omega)
  · exact Or.inr ⟨_, if_neg (ne_of_gt hcb)⟩

theorem headerKey_length_le (p : Page) : (headerKey p).length ≤ p.tagCb 0 := by
  rw [headerKey]
  split
  · simp [Page.tagData]
  · split
    · simp [Page.tagData]
    · simp

structure Pointers (kdf : KeyDataFlags) : Prop where
  keyPrefix : kdf.keyPrefix.cb ≤ 0 ∨ ∃ a, kdf.keyPrefix.pv = .page a
  keySuffix : ∃ a, kdf.keySuffix.pv = .page a
  data : ∃ a, kdf.data.pv = .page a

theorem Pointers.bytes {kdf : KeyDataFlags} (h : Pointers kdf) :
    (keyDataOf kdf).key.bytes p.buf = (nodeOfKdf p kdf).key ∧
      (keyDataOf kdf).data.bytes p.buf = (nodeOfKdf p kdf).data := by
  refine ⟨?_, bytes_dataOf (Or.inr h.data)⟩
  rw [Key.bytes, nodeOfKdf, ← bytes_dataOf h.keyPrefix, ← bytes_dataOf (Or.inr h.keySuffix)]
  rfl

theorem HasNodes.cbKeyPrefix_le (h : HasNodes p) (hiline : iline < clines p) :
    cbKeyPrefix p (p.pbFromIb (p.tagIb (iline + p.ctagReserved)))
      (p.tagFFlags (iline + p.ctagReserved)) ≤ p.tagCb 0 := by
  rw [cbKeyPrefix_eq (h.wellFormed iline hiline)]
  exact le_trans (h.cbPrefix_le iline hiline) (headerKey_length_le p)

theorem HasNodes.read (h : HasNodes p) (hiline : iline < clines p) :
    ∃ kdf, ndiGetKeydataflags p iline = some kdf ∧ 0 < kdf.data.cb ∧
      (keyDataOf kdf).key.bytes p.buf = (node p iline).key ∧
      (keyDataOf kdf).data.bytes p.buf = (node p iline).data := by
  have hwf := h.wellFormed iline hiline
  obtain ⟨kdf, hkdf, hnode⟩ := ndiGetKeydataflags_node hwf (h.cbPrefix_le iline hiline)
  obtain ⟨htwo, henforce⟩ := hwf.passes
  have hne : p.tagCb (iline + p.ctagReserved) ≠ 0 := by omega
  have hpointers : Pointers kdf := by
    simp only [ndiGetKeydataflags, getPtrNoChecks, if_neg hne, if_neg henforce] at hkdf
    split at hkdf
    case isTrue hcompressed =>
      have hroot : p.fRootPage = false := by
        by_contra hroot
        have hnot := h.root (by simpa using hroot) iline hiline
        exact absurd hcompressed (by simpa [ndiLineToKeydataflags] using hnot)
      obtain rfl := some.inj hkdf
      simp only [ndiSetPrefixNoChecks, hroot, Bool.not_false, if_true]
      exact ⟨header_pv (h.cbKeyPrefix_le hiline), ⟨_, rfl⟩, ⟨_, rfl⟩⟩
    case isFalse =>
      obtain rfl := some.inj hkdf
      exact ⟨Or.inl (Int.le_refl _), ⟨_, rfl⟩, ⟨_, rfl⟩⟩
  obtain ⟨hkey, hdata⟩ := hpointers.bytes (p := p)
  rw [hnode] at hkey hdata
  refine ⟨kdf, hkdf, ?_, hkey, hdata⟩
  -- a size that is not positive would make the data empty
  by_contra hcb
  have hempty : (keyDataOf kdf).data.bytes p.buf = [] := by
    have hzero : kdf.data.cb.toNat = 0 := Int.toNat_of_nonpos (by omega)
    simp [keyDataOf, dataOf, KeyCompare.Data.bytes, hzero]
  exact h.data_ne_nil iline hiline (hdata.symm.trans hempty)

theorem HasNodes.end_lt (h : HasNodes p) (hiline : iline < clines p) :
    p.pbFromIb (p.tagIb (iline + p.ctagReserved)) + p.tagCb (iline + p.ctagReserved) <
      cbPageMax := by
  have hitag : iline + p.ctagReserved < p.itagMicFree := by
    rw [clines] at hiline
    omega
  have hne : p.tagCb (iline + p.ctagReserved) ≠ 0 := by
    have htwo := (h.wellFormed iline hiline).passes.1
    omega
  have hbelow := h.layout.below hitag hne
  have hfits := h.layout.fits
  have hmax := h.layout.normal.cbBuffer_lt
  simp only [Page.pbFromIb, cbPageMax]
  omega

theorem HasNodes.bytesOf_header (h : HasNodes p) (hiline : iline < clines p) :
    bytesOf p ⟨(getPtrNoChecks p 0).pv, (parts (line p (iline + p.ctagReserved))).cbPrefix⟩ =
      (headerKey p).take (parts (line p (iline + p.ctagReserved))).cbPrefix := by
  cases hroot : p.fRootPage with
  | false =>
    have hbytes := bytesOf_prefix rfl (h.cbPrefix_le iline hiline)
    exact hbytes.1 hroot
  | true =>
    rw [parts_cbPrefix_of_not (h.root hroot iline hiline), List.take_zero]
    cases hpv : (getPtrNoChecks p 0).pv <;> rfl

theorem HasNodes.readInternal (h : HasNodes p) (hiline : iline < clines p) :
    ∃ kd, internalNode p iline = some kd ∧ kd.key.bytes p.buf = (node p iline).key := by
  have hwf := h.wellFormed iline hiline
  have hkeyPrefix := h.cbKeyPrefix_le hiline
  have hend := h.end_lt hiline
  have hheader := h.bytesOf_header hiline
  obtain ⟨hcb, hsuffix, -, -⟩ := ndiLineToKeydataflags_parts hwf
  obtain ⟨htwo, henforce⟩ := hwf.passes
  have hne : p.tagCb (iline + p.ctagReserved) ≠ 0 := by omega
  have hshort : cbKeySuffix p (p.pbFromIb (p.tagIb (iline + p.ctagReserved)))
      (p.tagFFlags (iline + p.ctagReserved)) < p.tagCb (iline + p.ctagReserved) := by
    have hge := cbKeyCountTotal_ge (p.tagFFlags (iline + p.ctagReserved))
    rw [cbKeySuffix_eq hwf]
    rw [WellFormed, line_data, line_fFlags, slice_length] at hwf
    omega
  simp only [internalNode]
  rw [getPtrNoChecks, if_neg hne]
  simp only [if_neg henforce]
  rw [if_pos ⟨hkeyPrefix, hshort, hend⟩]
  refine ⟨_, rfl, ?_⟩
  rw [Key.bytes, keyDataOf, bytes_dataOf (header_pv hkeyPrefix), bytes_dataOf (Or.inr ⟨_, rfl⟩),
    hsuffix, hcb, hheader]
  rfl

instance : Std.TransCmp cmpBM :=
  inferInstanceAs (Std.TransCmp (compareLex (compareOn Prod.fst) (compareOn Prod.snd)))

theorem pos_of_lt_of_nonneg {α : Type*} {cmp : α → α → Ordering} [Std.TransCmp cmp] {a b x : α}
    {m n : Int} (hm : compare m 0 = cmp a x) (hn : compare n 0 = cmp b x) (hab : cmp a b = .lt)
    (hnonneg : 0 ≤ m) : 0 < n := by
  have hle : (cmp x a).isLE := by
    rw [show cmp x a = (cmp a x).swap from Std.OrientedCmp.eq_swap, ← hm]
    cases hcmp : compare m 0 with
    | lt => exact absurd (compare_lt_iff_lt.mp hcmp) (Int.not_lt.mpr hnonneg)
    | eq => rfl
    | gt => rfl
  rw [← compare_gt_iff_gt, hn]
  exact Std.OrientedCmp.gt_of_lt (Std.TransCmp.lt_of_isLE_of_lt hle hab)

section Leaf

variable (mc : Memcmp) (bm : KeyData) {fUnique : Bool}

def bmNode (p : Page) (fUnique : Bool) (iline : Nat) : KeyData :=
  ndGetBookmarkFromKDF ((ndiGetKeydataflags p iline).getD nullKdf) fUnique

def leafCmp (p : Page) (fUnique : Bool) (iline : Nat) : Int :=
  cmpKeyData mc p.buf (bmNode p fUnique iline) bm

def leafReport (p : Page) (fUnique : Bool) (iline : Nat) : Int :=
  if leafCmp mc bm p fUnique iline ≠ 0 ∧ bm.data.cb = 0 then
    cmpKey mc p.buf (bmNode p fUnique iline).key bm.key
  else leafCmp mc bm p fUnique iline

theorem HasNodes.leafCmp_sign (h : HasNodes p) (hiline : iline < clines p) :
    compare (leafCmp mc bm p fUnique iline) 0 =
      cmpBM (bookmark p fUnique iline) (bm.key.bytes p.buf, bm.data.bytes p.buf) := by
  obtain ⟨kdf, hkdf, -, hkey, hdata⟩ := h.read hiline
  have hdata' : (ndGetBookmarkFromKDF kdf fUnique).data.bytes p.buf =
      if fUnique then [] else (node p iline).data := by
    cases fUnique with
    | true => rfl
    | false => exact hdata
  rw [leafCmp, bmNode, hkdf, getD_some, cmpKeyData_sign, hdata', cmpBM, bookmark, ← hkey]
  rfl

theorem HasNodes.leafCmp_mono (h : HasNodes p) (hsorted : SortedLeaf p fUnique) {i j : Nat}
    (hij : i < j) (hj : j < clines p) (hnonneg : 0 ≤ leafCmp mc bm p fUnique i) :
    0 < leafCmp mc bm p fUnique j :=
  pos_of_lt_of_nonneg (h.leafCmp_sign mc bm (hij.trans hj)) (h.leafCmp_sign mc bm hj)
    (hsorted i j hij hj) hnonneg

theorem HasNodes.probeLeaf_eq (h : HasNodes p) (fDefense : Bool) (hiline : iline < clines p) :
    probeLeaf mc p bm fUnique fDefense iline = some (leafCmp mc bm p fUnique iline) := by
  obtain ⟨kdf, hkdf, hcb, -, -⟩ := h.read hiline
  rw [probeLeaf, leafCmp, bmNode, hkdf, bind_some, if_pos (Or.inl hcb), getD_some]

theorem cmpData_nonneg (data : KeyCompare.Data) {data' : KeyCompare.Data} (hnull : data'.cb = 0) :
    0 ≤ cmpData mc p.buf data data' := by
  have hempty : data'.bytes p.buf = [] := List.length_eq_zero_iff.mp (by simpa using hnull)
  have hsign := cmpData_sign mc (m := p.buf) data data'
  rw [hempty] at hsign
  by_contra hneg
  rw [compare_lt_iff_lt.mpr (Int.not_le.mp hneg)] at hsign
  cases hbytes : data.bytes p.buf with
  | nil => simp [hbytes] at hsign
  | cons b bs => simp [hbytes] at hsign

theorem HasNodes.stepLeafDebug_eq (h : HasNodes p) (hiline : iline < clines p) :
    stepLeafDebug mc p bm fUnique iline = some (if leafCmp mc bm p fUnique iline < 0 then none
        else some (iline, leafReport mc bm p fUnique iline)) := by
  obtain ⟨kdf, hkdf, -, -, -⟩ := h.read hiline
  rw [stepLeafDebug, leafReport, leafCmp, bmNode, hkdf, bind_some, getD_some]
  generalize ndGetBookmarkFromKDF kdf fUnique = bmNode
  have hdata : bm.data.cb = 0 → 0 ≤ cmpData mc p.buf bmNode.data bm.data :=
    cmpData_nonneg mc bmNode.data
  simp only [cmpKeyData]
  by_cases hzero : cmpKey mc p.buf bmNode.key bm.key = 0
  · rw [if_neg (Int.not_lt.mpr (Int.le_of_eq hzero.symm))]
    by_cases hnull : bm.data.cb = 0
    · grind
    · grind
  · grind

theorem leafReport_neg (hneg : leafCmp mc bm p fUnique iline < 0) :
    leafReport mc bm p fUnique iline < 0 := by
  have hdata : bm.data.cb = 0 → 0 ≤ cmpData mc p.buf (bmNode p fUnique iline).data bm.data :=
    cmpData_nonneg mc _
  rw [leafReport]
  rw [leafCmp, cmpKeyData] at hneg ⊢
  grind

theorem HasNodes.ilineNDISeekGEQ_eq (h : HasNodes p) (fDefense : Bool) {k : Nat}
    (hpos : 0 < clines p) (hk : Bisect.Parts (leafCmp mc bm p fUnique) (clines p - 1) k) :
    ilineNDISeekGEQ mc p bm fUnique fDefense =
      some (if leafCmp mc bm p fUnique k < 0 then none else some k,
        leafReport mc bm p fUnique k) := by
  have hkn : k < clines p := lt_of_le_of_lt hk.le_last (by omega)
  obtain ⟨kdf, hkdf, -, -, -⟩ := h.read hkn
  rw [ilineNDISeekGEQ, Bisect.search_eq hpos (fun i hi => h.probeLeaf_eq mc bm fDefense hi) hk,
    leafReport]
  simp only [bind_eq_bind, bind_some, hkdf, pure_def, bmNode, getD_some]
  split <;> rfl

theorem HasNodes.seekLeaf (h : HasNodes p) (hsorted : SortedLeaf p fUnique) (fDefense : Bool) :
    ∃ found cmp, ilineNDISeekGEQ mc p bm fUnique fDefense = some (found, cmp) ∧
      ilineNDISeekGEQDebug mc p bm fUnique = some (found.map fun iline => (iline, cmp)) ∧
      (found = none → 0 < clines p → cmp < 0) := by
  rcases Nat.eq_zero_or_pos (clines p) with hnone | hpos
  · exact ⟨none, 0, by simp [ilineNDISeekGEQ, Bisect.search, hnone],
      by simp [ilineNDISeekGEQDebug, Bisect.scan, hnone], by omega⟩
  have hmono : ∀ i j, i < j → j < clines p - 1 → 0 ≤ leafCmp mc bm p fUnique i →
      0 < leafCmp mc bm p fUnique j :=
    fun i j hij hj => h.leafCmp_mono mc bm hsorted hij (by omega)
  obtain ⟨k, hk⟩ := Bisect.exists_parts hmono
  have hkn : k < clines p := Nat.lt_of_le_of_lt hk.le_last (by omega)
  refine ⟨_, _, h.ilineNDISeekGEQ_eq mc bm fDefense hpos hk, ?_, ?_⟩
  · rw [ilineNDISeekGEQDebug]
    by_cases hneg : leafCmp mc bm p fUnique k < 0
    · -- only the last node is left, and it is less too
      have hlast : k = clines p - 1 := by
        by_contra hne
        exact absurd (hk.at_least (by omega)) (Int.not_le.mpr hneg)
      have hall i (_ : 0 ≤ i) (hi : i < clines p) :
          stepLeafDebug mc p bm fUnique i = some none := by
        rw [h.stepLeafDebug_eq mc bm hi, if_pos]
        rcases Nat.lt_or_ge i k with hlt | hge
        · exact hk.before i hlt
        · rwa [show i = k by omega]
      rw [Bisect.scan_eq (r := (0, 0)) (clines p) (Nat.zero_le _) (by omega) hall (by omega),
        if_neg (by omega), if_pos hneg]
      rfl
    · rw [Bisect.scan_eq (clines p) (Nat.zero_le k) (by omega)
        (fun i _ hi => by rw [h.stepLeafDebug_eq mc bm (by omega), if_pos (hk.before i hi)])
        (fun _ => by rw [h.stepLeafDebug_eq mc bm hkn, if_neg hneg]),
        if_pos (by omega), if_neg hneg]
      rfl
  · intro hfound _
    apply leafReport_neg
    by_contra hneg
    simp [hneg] at hfound

end Leaf

section Internal

variable (mc : Memcmp) (bm : KeyData)

def target (p : Page) : List UInt8 := bm.key.bytes p.buf ++ bm.data.bytes p.buf

def internalCmp (p : Page) (iline : Nat) : Int :=
  cmpKeyWithKeyData mc p.buf ((internalNode p iline).getD (keyDataOf nullKdf)).key bm

section

variable (h : HasNodes p)
include h

theorem HasNodes.internalCmp_sign (hiline : iline < clines p) :
    compare (internalCmp mc bm p iline) 0 = compare (node p iline).key (target bm p) := by
  obtain ⟨kd, hkd, hkey⟩ := h.readInternal hiline
  rw [internalCmp, hkd, getD_some, cmpKeyWithKeyData_sign, hkey, target]

theorem HasNodes.internalCmp_mono (hsorted : SortedInternal p) {i j : Nat}
    (hij : i < j) (hj : j < clines p - 1) (hnonneg : 0 ≤ internalCmp mc bm p i) :
    0 < internalCmp mc bm p j :=
  pos_of_lt_of_nonneg (h.internalCmp_sign mc bm (by omega)) (h.internalCmp_sign mc bm (by omega))
    (hsorted i j hij hj) hnonneg

theorem HasNodes.probeInternal_eq (hiline : iline < clines p) :
    probeInternal mc p bm iline = some (internalCmp mc bm p iline) := by
  obtain ⟨kd, hkd, -⟩ := h.readInternal hiline
  rw [probeInternal, internalCmp, hkd, map_some, getD_some]

theorem HasNodes.stepInternalDebug_eq (hiline : iline < clines p) :
    ∃ cmp, compare cmp 0 = compare (internalCmp mc bm p iline) 0 ∧ stepInternalDebug mc p bm iline =
        some (if internalCmp mc bm p iline < 0 then none else some (iline, cmp)) := by
  obtain ⟨kdf, hkdf, -, hkey, -⟩ := h.read hiline
  have hsign : compare (cmpKeyWithKeyData mc p.buf (keyDataOf kdf).key bm) 0 =
      compare (internalCmp mc bm p iline) 0 := by
    rw [cmpKeyWithKeyData_sign, hkey, h.internalCmp_sign mc bm hiline, target]
  refine ⟨_, hsign, ?_⟩
  have hneg : cmpKeyWithKeyData mc p.buf (keyDataOf kdf).key bm < 0 ↔
      internalCmp mc bm p iline < 0 := by
    rw [← compare_lt_iff_lt, ← compare_lt_iff_lt, hsign]
  rw [stepInternalDebug, hkdf, map_some]
  simp only [hneg]

theorem HasNodes.ilineNDISeekGEQInternal_eq {k : Nat} (hpos : 0 < clines p)
    (hk : Bisect.Parts (internalCmp mc bm p) (clines p - 1) k) : ilineNDISeekGEQInternal mc p bm =
      some (k, if internalCmp mc bm p k = 0 ∧ bm.key.fNull = false then 0 else 1) := by
  have hheader : (getPtrNoChecks p 0).cb < cbPageMax := by
    have hacc := h.layout.accounting
    have hmax := h.layout.normal.cbBuffer_lt
    have htags : 0 < p.itagMicFree := by
      rw [clines] at hpos
      omega
    have hused : p.tagCb 0 ≤ SlotLayout.used (slots p) := SlotLayout.cb_le_used (slot_mem htags)
    simp only [getPtrNoChecks, cbPageMax]
    omega
  rw [ilineNDISeekGEQInternal, if_pos hheader,
    Bisect.search_eq hpos (fun i hi => h.probeInternal_eq mc bm hi) hk]
  simp only [bind_eq_bind, bind_some, pure_def]
  split <;> rfl

theorem HasNodes.seekInternal (hsorted : SortedInternal p) (hpos : 0 < clines p)
    (hlast : (node p (clines p - 1)).key = [] ∨
      compare (node p (clines p - 1)).key (target bm p) = .gt)
    (hkey : bm.key.bytes p.buf ≠ [] ∨ ∀ i < clines p - 1, (node p i).key ≠ target bm p) :
    ∃ iline cmp cmp', ilineNDISeekGEQInternal mc p bm = some (iline, cmp) ∧
      ilineNDISeekGEQInternalDebug mc p bm = some (iline, cmp') ∧
      compare cmp 0 = compare cmp' 0 := by
  have hmono : ∀ i j, i < j → j < clines p - 1 → 0 ≤ internalCmp mc bm p i →
      0 < internalCmp mc bm p j := fun i j hij hj => h.internalCmp_mono mc bm hsorted hij hj
  obtain ⟨k, hk⟩ := Bisect.exists_parts hmono
  have hkn : k < clines p := Nat.lt_of_le_of_lt hk.le_last (by omega)
  have hnull : bm.key.fNull = true ↔ bm.key.bytes p.buf = [] := by
    rw [← List.length_eq_zero_iff, Key.bytes_length]
    simp [Key.fNull, KeyCompare.Data.fNull, Key.cb]
  have hzero : internalCmp mc bm p k = 0 ↔ (node p k).key = target bm p := by
    rw [← compare_eq_iff_eq, h.internalCmp_sign mc bm hkn]
    exact Std.LawfulEqOrd.compare_eq_iff_eq
  obtain ⟨cmp, hsign, hstep⟩ := h.stepInternalDebug_eq mc bm hkn
  have hbefore i (_ : 0 ≤ i) (hi : i < k) : stepInternalDebug mc p bm i = some none := by
    obtain ⟨_, -, hstep'⟩ := h.stepInternalDebug_eq mc bm (Nat.lt_trans hi hkn)
    rw [hstep', if_pos (hk.before i hi)]
  refine ⟨k, _, if k < clines p - 1 then cmp else 1,
    h.ilineNDISeekGEQInternal_eq mc bm hpos hk, ?_, ?_⟩
  · have hat : k < 0 + (clines p - 1) → stepInternalDebug mc p bm k = some (some (k, cmp)) := by
      intro hlt
      rw [hstep, if_neg (Int.not_lt.mpr (hk.at_least (by omega)))]
    rw [ilineNDISeekGEQInternalDebug, Bisect.scan_eq (clines p - 1) (Nat.zero_le k)
      (by have hle := hk.le_last; omega) hbefore hat, Nat.zero_add, map_some]
    split
    · rfl
    · rw [show k = clines p - 1 by omega]
      rfl
  · by_cases hinner : k < clines p - 1
    · rw [if_pos hinner, hsign]
      by_cases heq : internalCmp mc bm p k = 0
      · -- the separator is the bookmark, which has a key then
        have hfull : bm.key.fNull = false := by
          rw [← Bool.not_eq_true, hnull]
          exact hkey.resolve_right fun hall => hall k hinner (hzero.mp heq)
        rw [if_pos ⟨heq, hfull⟩, heq]
      · have hge := hk.at_least hinner
        have hgt : internalCmp mc bm p k > 0 := by omega
        rw [if_neg (fun hboth => heq hboth.1), compare_gt_iff_gt.mpr hgt]
        rfl
    · have htop : k = clines p - 1 := by
        omega
      rw [if_neg hinner, if_neg]
      rintro ⟨heq, hfull⟩
      rw [← htop, hzero.mp heq] at hlast
      rcases hlast with hempty | hgt
      · rw [← Bool.not_eq_true, hnull] at hfull
        exact hfull (List.append_eq_nil_iff.mp hempty).1
      · rw [Std.ReflOrd.compare_self] at hgt
        exact absurd hgt (by decide)

end

end Internal

/-- On sorted pages the bisections return what the linear searches return.  An internal page is
searched for a bookmark below its last separator, if that is not null, and a bookmark with a null
key must not stand for another separator. -/
theorem seek_eq_linear (mc : Memcmp) (p : Page) (bm : KeyData) (h : HasNodes p) :
    (∀ fUnique fDefense, SortedLeaf p fUnique →
      ∃ found cmp, ilineNDISeekGEQ mc p bm fUnique fDefense = some (found, cmp) ∧
        ilineNDISeekGEQDebug mc p bm fUnique = some (found.map fun iline => (iline, cmp)) ∧
        (found = none → 0 < clines p → cmp < 0)) ∧
    (SortedInternal p → 0 < clines p → ((node p (clines p - 1)).key = [] ∨
        compare (node p (clines p - 1)).key (target bm p) = .gt) →
      (bm.key.bytes p.buf ≠ [] ∨ ∀ i < clines p - 1, (node p i).key ≠ target bm p) →
      ∃ iline cmp cmp', ilineNDISeekGEQInternal mc p bm = some (iline, cmp) ∧
        ilineNDISeekGEQInternalDebug mc p bm = some (iline, cmp') ∧
        compare cmp 0 = compare cmp' 0) :=
  ⟨fun _ fDefense hsorted => h.seekLeaf mc bm hsorted fDefense,
    fun hsorted hpos hlast hkey => h.seekInternal mc bm hsorted hpos hlast hkey⟩

/-- A 2K page above the leaves with the separators `5` and `7`; behind it in memory a byte `5`. -/
def separatorPage : Page where
  cbPage := 2048
  cbBuffer := 2048
  buf
    | 28 => 0xbe | 29 => 0x07 | 32 => 14 | 34 => 3 | 35 => 0x10 | 36 => 0x04 | 40 => 1 | 42 => 5
    | 43 => 10 | 47 => 1 | 49 => 7 | 50 => 11 | 2036 => 7 | 2038 => 7 | 2040 => 7 | 3000 => 5
    | _ => 0
  itagMicFree := 3
  ctagReserved := 1

theorem separatorPage_hasNodes : HasNodes separatorPage where
  layout := ⟨⟨by decide, rfl⟩, by decide⟩
  wellFormed := by decide
  cbPrefix_le := by decide
  data_ne_nil := by decide
  root := by decide

theorem separatorPage_sorted : SortedInternal separatorPage ∧ SortedLeaf separatorPage false := by
  constructor
  · intro i j hij hj
    have htwo : clines separatorPage - 1 = 1 := rfl
    omega
  · intro i j hij hj
    have htwo : clines separatorPage = 2 := rfl
    obtain ⟨rfl, rfl⟩ : i = 0 ∧ j = 1 := by omega
    decide

/-- A seek for the key `5` finds the separator, on a page of either kind. -/
theorem separatorPage_found :
    (∃ cmp cmp', ilineNDISeekGEQInternal signMemcmp separatorPage ⟨⟨.null, ⟨3000, 1⟩⟩, .null⟩ =
        some (0, cmp) ∧
      ilineNDISeekGEQInternalDebug signMemcmp separatorPage ⟨⟨.null, ⟨3000, 1⟩⟩, .null⟩ =
        some (0, cmp') ∧ compare cmp 0 = compare cmp' 0) ∧
    ∃ found cmp, ilineNDISeekGEQ signMemcmp separatorPage ⟨⟨.null, ⟨3000, 1⟩⟩, .null⟩ false true =
      some (found, cmp) := by
  obtain ⟨hleaf, hinternal⟩ := seek_eq_linear signMemcmp separatorPage
    ⟨⟨.null, ⟨3000, 1⟩⟩, .null⟩ separatorPage_hasNodes
  obtain ⟨iline, cmp, cmp', hseek, hdebug, hsign⟩ := hinternal separatorPage_sorted.1 (by decide)
    (Or.inr (by decide)) (Or.inl (by decide))
  obtain ⟨found, cmpLeaf, hfound, -, -⟩ := hleaf false true separatorPage_sorted.2
  have hzero : (ilineNDISeekGEQInternal signMemcmp separatorPage
      ⟨⟨.null, ⟨3000, 1⟩⟩, .null⟩).map Prod.fst = some 0 := by
    decide
  rw [hseek] at hzero
  obtain rfl : iline = 0 := some.inj hzero
  exact ⟨⟨cmp, cmp', hseek, hdebug, hsign⟩, found, cmpLeaf, hfound⟩

/-- A null key with the data `5` is the separator to the linear search, and greater than it is to
the bisection. -/
theorem separatorPage_nullKey :
    HasNodes separatorPage ∧ SortedInternal separatorPage ∧
      compare (node separatorPage 1).key (target ⟨⟨.null, .null⟩, ⟨3000, 1⟩⟩ separatorPage) = .gt ∧
      ilineNDISeekGEQInternal signMemcmp separatorPage ⟨⟨.null, .null⟩, ⟨3000, 1⟩⟩ = some (0, 1) ∧
      ilineNDISeekGEQInternalDebug signMemcmp separatorPage ⟨⟨.null, .null⟩, ⟨3000, 1⟩⟩ =
        some (0, 0) :=
  ⟨separatorPage_hasNodes, separatorPage_sorted.1, by decide, by decide, by decide⟩

end EseLinux.NodeSeek
