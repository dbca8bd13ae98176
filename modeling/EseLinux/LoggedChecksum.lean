import EseLinux.NodeInsert
import EseLinux.PageDehydrate

/-!
A loop over `len` items whose body is written `k` times, entered in the middle of the body so that
the first pass does the `len % k` items that are left over.
-/

namespace EseLinux.UnrolledLoop

variable {σ β : Type*} (step : σ → β → σ) (get : Nat → β)

/-- `n` copies of the body, one after the other, on the state and the index. -/
def bodies : Nat → σ × Nat → σ × Nat
  | 0, s => s
  | n + 1, s => bodies n (step s.1 (get s.2), s.2 + 1)

def loop (k len : Nat) : Nat → σ × Nat → σ × Nat
  | 0, s => s
  | fuel + 1, s => if s.2 < len then loop k len fuel (bodies step get k s) else s

/-- The loop entered at copy `len % k` of its body. -/
def enter (k len : Nat) (s : σ) : σ :=
  (loop step get k len len (bodies step get (len % k) (s, 0))).1

def items (i n : Nat) : List β := (List.range n).map fun j => get (i + j)

theorem items_succ (i n : Nat) : items get i (n + 1) = get i :: items get (i + 1) n := by
  rw [items, List.range_succ_eq_map, List.map_cons, List.map_map, Nat.add_zero]
  congr 1
  apply List.map_congr_left
  intro j _
  exact congrArg get (Nat.add_right_comm i j 1)

theorem items_append (i m n : Nat) :
    items get i (m + n) = items get i m ++ items get (i + m) n := by
  induction m generalizing i with
  | zero => simp [items]
  | succ m ih =>
    rw [Nat.add_right_comm, items_succ, items_succ, ih, List.cons_append, Nat.add_right_comm,
      Nat.add_assoc]

theorem bodies_eq (n : Nat) (s : σ) (i : Nat) :
    bodies step get n (s, i) = ((items get i n).foldl step s, i + n) := by
  induction n generalizing s i with
  | zero => rfl
  | succ n ih =>
    rw [bodies, ih, items_succ, List.foldl_cons, Nat.add_assoc, Nat.add_comm 1 n]

theorem loop_eq {k len : Nat} (hk : 0 < k) (m fuel : Nat) (hfuel : m ≤ fuel) (s : σ) (i : Nat)
    (hlen : i + m * k = len) :
    loop step get k len fuel (s, i) = ((items get i (m * k)).foldl step s, len) := by
  induction m generalizing fuel s i with
  | zero =>
    obtain rfl : i = len := by omega
    cases fuel with
    | zero => simp [loop, items]
    | succ fuel => simp [loop, items]
  | succ m ih =>
    obtain ⟨fuel, rfl⟩ := Nat.exists_eq_add_of_le' (Nat.le_of_add_left_le hfuel)
    have hsplit : (m + 1) * k = k + m * k := by rw [Nat.succ_mul, Nat.add_comm]
    have hlt : i < len := by omega
    rw [loop, if_pos hlt, bodies_eq, ih fuel (by omega) _ (i + k) (by omega), hsplit,
      items_append, List.foldl_append]

theorem enter_eq {k : Nat} (hk : 0 < k) (len : Nat) (s : σ) :
    enter step get k len s = (items get 0 len).foldl step s := by
  have hdiv : len % k + len / k * k = len := by
    rw [Nat.mul_comm]
    exact Nat.mod_add_div len k
  have hloop := loop_eq step get hk (len / k) len (Nat.div_le_self len k)
    ((items get 0 (len % k)).foldl step s) (len % k) hdiv
  have happend := items_append get 0 (len % k) (len / k * k)
  rw [hdiv, Nat.zero_add] at happend
  rw [enter, bodies_eq, Nat.zero_add, hloop, happend, List.foldl_append]

end EseLinux.UnrolledLoop

/-!
The checksum over what is logged of a page: the header without what recovery does not restore, and
of each line its size, its bytes after the first word and its flags without the version bit.
-/

namespace EseLinux.LoggedChecksum

open ByteMemory DigitList NodeAccess NodeInsert NodeLine PageDehydrate PageFormat PageLayout List
  PageLine PageStamp
open EseLinux.PageTags (line)

def fNDVersion : Nat := 1

def fNDDeleted : Nat := 2

def rotl64 (x : UInt64) (shift : UInt64) : UInt64 := x <<< shift ||| x >>> (64 - shift)

def addByte (checksum : UInt64) (b : UInt8) : UInt64 := rotl64 checksum 6 + b.toUInt64

/-- `UpdateLoggedDataChecksum_` over the `cb` bytes at `pb`. -/
def updateLoggedDataChecksum (checksum : UInt64) (pb : Memory) (cb : Nat) : UInt64 :=
  UnrolledLoop.enter addByte pb 8 cb checksum

/-- The tag counts of the header; at most one reserved tag counts as none. -/
def itagStateLegacy (p : Page) : Nat :=
  let ctagReserved := (p.itagState &&& 0x7000) >>> 12
  let ctagResvLegacy := if ctagReserved ≤ 1 then 0 else ctagReserved
  (ctagResvLegacy <<< 12) ||| (p.itagState &&& 0x0fff)

/-- All flags but `maskFlushType`, `fPageNewChecksumFormat` and `fPageFDPDelete`. -/
def mskLoggedFlags : Nat := 0xffffffff ^^^ (0x18000 ||| 0x2000 ||| 0x40000)

def pghdr2T (p : Page) : Memory :=
  let m := fill p.buf 0 8 0
  let m := setWord m 30 0
  let m := setWord m 28 0
  let m := setWord m 32 0
  let m := setWord m 34 (itagStateLegacy p)
  let m := store m 36 (leBytes 4 (p.fFlags &&& mskLoggedFlags))
  let m := fill m 40 24 0
  fill m 68 12 0

def addTag (p : Page) (checksum : UInt64) (itag : Nat) : UInt64 :=
  if !fOnPage p (p.ptagFromItag itag) cbTag then checksum
  else
    let cb := p.tagCb itag
    let pb := p.pbFromIb (p.tagIb itag)
    if cbKeyCount ≤ cb ∧ !fOnData p pb cb then checksum
    else
      let bFlags := UInt8.ofNat (p.tagFFlags itag &&& (0xff ^^^ fNDVersion))
      let checksum :=
        if p.tagFFlags itag &&& fNDDeleted = 0 ∧ cbKeyCount ≤ cb then
          let checksum := updateLoggedDataChecksum checksum (ofBytes (leBytes 2 cb)) 2
          updateLoggedDataChecksum checksum (fun k => p.buf (pb + cbKeyCount + k))
            (cb - cbKeyCount)
        else checksum
      addByte checksum bFlags

def loggedDataChecksum (p : Page) : UInt64 :=
  (range p.itagMicFree).foldl (addTag p)
    (updateLoggedDataChecksum 0 (pghdr2T p) p.cbPageHeader)

def loggedLine (l : PageTags.Line) : List UInt8 :=
  (if l.fFlags &&& fNDDeleted = 0 ∧ cbKeyCount ≤ l.data.length then
    leBytes 2 l.data.length ++ l.data.drop cbKeyCount
  else []) ++ [UInt8.ofNat (l.fFlags &&& (0xff ^^^ fNDVersion))]

theorem updateLoggedDataChecksum_eq (checksum : UInt64) (m : Memory) (a n : Nat) :
    updateLoggedDataChecksum checksum (fun k => m (a + k)) n =
      (slice m a n).foldl addByte checksum := by
  rw [updateLoggedDataChecksum, UnrolledLoop.enter_eq _ _ (by decide)]
  congr 1
  apply List.map_congr_left
  intro j _
  rw [zero_add]

theorem updateLoggedDataChecksum_bytes (checksum : UInt64) (bs : List UInt8) :
    updateLoggedDataChecksum checksum (ofBytes bs) bs.length = bs.foldl addByte checksum := by
  have hsum := updateLoggedDataChecksum_eq checksum (ofBytes bs) 0 bs.length
  simp only [zero_add] at hsum
  rw [hsum, slice_ofBytes]

section Sum

variable {p : Page}

theorem addTag_eq (hinv : BufferInv p) {i : Nat} (hi : i < p.itagMicFree) (checksum : UInt64) :
    addTag p checksum i = (loggedLine (line p i)).foldl addByte checksum := by
  have hfits := hinv.fits
  simp only [cbContent, Page.cbTagArray, cbTag] at hfits
  have htag : fOnPage p (p.ptagFromItag i) cbTag = true := by
    apply decide_eq_true
    simp only [Page.ptagFromItag, cbTag]
    omega
  have hdata : ¬ (cbKeyCount ≤ p.tagCb i ∧
      (!fOnData p (p.pbFromIb (p.tagIb i)) (p.tagCb i)) = true) := by
    rintro ⟨hcb, hoff⟩
    have hbelow := hinv.below hi (by simp only [cbKeyCount] at hcb; omega)
    simp only [fOnData, Bool.not_eq_true', decide_eq_false_iff_not] at hoff
    apply hoff
    simp only [pbDataStart, pbDataEnd, Page.pbFromIb, Page.cbTagArray, cbTag, cbKeyCount] at *
    omega
  have hlength : (line p i).data.length = p.tagCb i := by rw [line_data, slice_length]
  rw [addTag, htag, Bool.not_true, if_neg Bool.false_ne_true, if_neg hdata, loggedLine, hlength,
    line_fFlags, foldl_append]
  split
  · rename_i hsummed
    have hcount := updateLoggedDataChecksum_bytes checksum (leBytes 2 (p.tagCb i))
    rw [leBytes_length] at hcount
    rw [hcount, updateLoggedDataChecksum_eq, foldl_append, line_data, drop_slice _ hsummed.2]
    rfl
  · rfl

theorem foldl_addTag (hinv : BufferInv p) (tags : List Nat) (htags : ∀ i ∈ tags, i < p.itagMicFree)
    (checksum : UInt64) :
    tags.foldl (addTag p) checksum =
      (tags.flatMap fun i => loggedLine (line p i)).foldl addByte checksum := by
  induction tags generalizing checksum with
  | nil => rfl
  | cons i tags ih =>
    rw [foldl_cons, addTag_eq hinv (htags i mem_cons_self),
      ih fun j hj => htags j (mem_cons_of_mem _ hj), flatMap_cons, foldl_append]

theorem loggedDataChecksum_eq_foldl (hinv : BufferInv p) :
    loggedDataChecksum p = (slice (pghdr2T p) 0 p.cbPageHeader ++
      (range p.itagMicFree).flatMap fun i => loggedLine (line p i)).foldl addByte 0 := by
  have hheader := updateLoggedDataChecksum_eq 0 (pghdr2T p) 0 p.cbPageHeader
  simp only [zero_add] at hheader
  rw [loggedDataChecksum, hheader, foldl_addTag hinv _ fun i hi => mem_range.mp hi,
    foldl_append]

end Sum

/-- The header fields that are logged: the page's own and its neighbours' numbers, its table, its
time stamp, its flags and its tag counts. -/
structure SameIdentity (p q : Page) : Prop where
  cbPage : q.cbPage = p.cbPage
  itagMicFree : q.itagMicFree = p.itagMicFree
  itagState : itagStateLegacy q = itagStateLegacy p
  fields : AgreeOn p.buf q.buf 8 20
  fFlags : q.fFlags &&& mskLoggedFlags = p.fFlags &&& mskLoggedFlags
  pgno : p.fSmallPageFormat = false → AgreeOn p.buf q.buf 64 4

def NodeImage (fSmallFormat : Bool) (l : PageTags.Line) : Prop :=
  l = lineOf fSmallFormat l.fFlags (nodeBytes (parts l))

instance (fSmallFormat : Bool) (l : PageTags.Line) : Decidable (NodeImage fSmallFormat l) :=
  inferInstanceAs (Decidable (_ = _))

/-- Two lines of one node: the flags agree but for the version bit, and unless the node is
deleted its prefix count, suffix and data agree. -/
def SameNode (fSmallFormat : Bool) (l l' : PageTags.Line) : Prop :=
  l'.fFlags &&& (0xff ^^^ fNDVersion) = l.fFlags &&& (0xff ^^^ fNDVersion) ∧
    (l.fFlags &&& fNDDeleted = 0 →
      NodeImage fSmallFormat l ∧ NodeImage fSmallFormat l' ∧ parts l' = parts l)

/-- The same identity, the same external header and reserved tags, and the same nodes. -/
structure SameContent (p q : Page) : Prop where
  identity : SameIdentity p q
  reserved : ∀ i, i < p.ctagReserved → i < p.itagMicFree → line q i = line p i
  nodes : ∀ i, p.ctagReserved ≤ i → i < p.itagMicFree →
    SameNode p.fSmallPageFormat (line p i) (line q i)

section Content

variable {p q : Page}

theorem SameIdentity.header_eq (h : SameIdentity p q) :
    slice (pghdr2T q) 0 q.cbPageHeader = slice (pghdr2T p) 0 p.cbPageHeader := by
  have hheader := cbPageHeader_of_cbPage h.cbPage
  have hle : p.cbPageHeader ≤ 80 := by
    rw [Page.cbPageHeader]
    split <;> decide
  rw [hheader]
  apply AgreeOn.slice_eq
  intro a _ ha
  simp only [pghdr2T, h.itagState, h.fFlags]
  -- what no write covers are the fields at 8 to 27 and, on a large page, the number at 64 to 67
  apply fill_congr
  intro hreserved
  apply fill_congr
  intro hchecksums
  apply store_congr
  intro hflags
  rw [leBytes_length] at hflags
  iterate 4
    apply setWord_congr
    intro _ _
  apply fill_congr
  intro hchecksum
  rcases lt_or_ge a 40 with hlt | hge
  · exact h.fields a (by omega) (by omega)
  · have hlarge : p.fSmallPageFormat = false := by
      rw [Page.cbPageHeader] at ha
      split at ha
      · omega
      · rename_i hsmall
        exact Bool.eq_false_iff.mpr hsmall
    exact h.pgno hlarge a (by omega) (by omega)

theorem and_fNDDeleted_of_nonVersion {f f' : Nat}
    (h : f' &&& (0xff ^^^ fNDVersion) = f &&& (0xff ^^^ fNDVersion)) :
    f' &&& fNDDeleted = f &&& fNDDeleted := by
  have hmask : (0xff ^^^ fNDVersion) &&& fNDDeleted = fNDDeleted := by decide
  rw [← hmask, ← Nat.and_assoc, ← Nat.and_assoc, h]

theorem lineOf_drop (fSmallFormat : Bool) (fFlags : Nat) (bs : List UInt8) :
    (lineOf fSmallFormat fFlags bs).data.drop cbKeyCount = bs.drop cbKeyCount := by
  cases fSmallFormat with
  | true => rfl
  | false =>
    show (withFlags fFlags bs).drop 2 = bs.drop 2
    unfold withFlags
    split <;> rfl

theorem SameNode.loggedLine_eq {fSmallFormat : Bool} {l l' : PageTags.Line}
    (h : SameNode fSmallFormat l l') : loggedLine l' = loggedLine l := by
  obtain ⟨hflags, hparts⟩ := h
  have hdeleted := and_fNDDeleted_of_nonVersion hflags
  rw [loggedLine, loggedLine, hflags, hdeleted]
  congr 1
  rcases Nat.eq_zero_or_pos (l.fFlags &&& fNDDeleted) with hlive | hdead
  · obtain ⟨himage, himage', heq⟩ := hparts hlive
    have hlength : l'.data.length = l.data.length := by
      rw [himage, himage', lineOf_length, lineOf_length, heq]
    have hdrop : l'.data.drop cbKeyCount = l.data.drop cbKeyCount := by
      rw [himage, himage', lineOf_drop, lineOf_drop, heq]
    rw [hlength, hdrop]
  · rw [if_neg (by omega), if_neg (by omega)]

theorem loggedDataChecksum_congr (hp : BufferInv p) (hq : BufferInv q) (hid : SameIdentity p q)
    (hlines : ∀ i, i < p.itagMicFree → loggedLine (line q i) = loggedLine (line p i)) :
    loggedDataChecksum q = loggedDataChecksum p := by
  rw [loggedDataChecksum_eq_foldl hp, loggedDataChecksum_eq_foldl hq, hid.header_eq,
    hid.itagMicFree]
  congr 2
  apply flatMap_congr
  intro i hi
  exact hlines i (mem_range.mp hi)

theorem fFlags_eq_leNat (p : Page) :
    p.fFlags = leNat [p.buf 36, p.buf 37, p.buf 38, p.buf 39] := by
  simp only [Page.fFlags, dword, word, Nat.reduceAdd, leNat_cons, leNat_nil]
  omega

theorem fFlags_and_mskLoggedFlags (h₀ : q.buf 36 = p.buf 36)
    (h₁ : q.buf 37 = p.buf 37 ∨ q.buf 37 = p.buf 37 ||| 0x20) (h₂ : q.buf 38 = p.buf 38)
    (h₃ : q.buf 39 = p.buf 39) :
    q.fFlags &&& mskLoggedFlags = p.fFlags &&& mskLoggedFlags := by
  have hmask : mskLoggedFlags = leNat [0xff, 0x5f, 0xfa, 0xff] := by decide
  have hflag : q.buf 37 &&& 0x5f = p.buf 37 &&& 0x5f := by
    rcases h₁ with h | h
    · rw [h]
    · rw [h, ← UInt8.toNat_inj, UInt8.toNat_and, UInt8.toNat_or, UInt8.toNat_and,
        Nat.and_or_distrib_right]
      exact Nat.or_zero _
  rw [fFlags_eq_leNat, fFlags_eq_leNat, hmask, leNat_and, leNat_and]
  simp only [zipWith_cons_cons, h₀, hflag, h₂, h₃]

theorem sameIdentity_of_kept (hpage : q.cbPage = p.cbPage) (hn : q.itagMicFree = p.itagMicFree)
    (hkeep : ∀ a, a < p.cbPageHeader → (8 ≤ a ∧ a < 28) ∨ (34 ≤ a ∧ a < 37) ∨ a = 38 ∨ a = 39 ∨
      64 ≤ a → q.buf a = p.buf a)
    (hflag : q.buf 37 = p.buf 37 ∨ q.buf 37 = p.buf 37 ||| 0x20) : SameIdentity p q := by
  have hge := PageTags.cbPageHeader_ge p
  have hstate : q.itagState = p.itagState :=
    AgreeOn.word_eq fun a hlo hhi => hkeep a (by omega) (by omega)
  refine ⟨hpage, hn, ?_, ?_, ?_, ?_⟩
  · rw [itagStateLegacy, itagStateLegacy, hstate]
  · exact fun a hlo hhi => hkeep a (by omega) (by omega)
  · exact fFlags_and_mskLoggedFlags (hkeep 36 (by omega) (by omega)) hflag
      (hkeep 38 (by omega) (by omega)) (hkeep 39 (by omega) (by omega))
  · intro hlarge a hlo hhi
    have hheader : p.cbPageHeader = 80 := by
      rw [Page.cbPageHeader, hlarge, if_neg Bool.false_ne_true]
    exact hkeep a (by omega) (by omega)

theorem Intact.loggedDataChecksum_eq (hinv : BufferInv p) (h : Intact p q) :
    loggedDataChecksum q = loggedDataChecksum p := by
  refine loggedDataChecksum_congr hinv h.inv ?_ fun i hi => congrArg loggedLine (h.lineEq i hi)
  refine sameIdentity_of_kept h.cbPage h.itagMicFree (fun a ha hin => ?_) h.flag
  exact h.header a ha (by simp only [StampByte]; omega) (by omega)

theorem reorganizeData_loggedDataChecksum {env : PageEdit.Env} (hinv : LayoutInv p)
    (h : PageEdit.reorganizeData env p = some q) :
    loggedDataChecksum q = loggedDataChecksum p := by
  obtain ⟨q', hq', hrep, -⟩ := PageReorganize.reorganizeData_spec env hinv
  obtain rfl := Option.some.inj (h.symm.trans hq')
  obtain ⟨hshape, -, hframe⟩ := PageHeader.reorganizeData_header (fun i hi => hinv.tagOnPage hi) h
  have hge := PageTags.cbPageHeader_ge p
  refine loggedDataChecksum_congr (LayoutInv.bufferInv hinv) (LayoutInv.bufferInv hrep.inv) ?_
    fun i hi => congrArg loggedLine (hrep.lineEq i hi)
  exact sameIdentity_of_kept hshape.cbPage hrep.itagMicFree (fun a ha hin => hframe a (by omega))
    (Or.inl (hframe 37 (by omega)))

end Content

/-- The checksum depends on the content of a page only: not on where its lines are, on its free
bytes, on version bits, on the bytes of deleted nodes, on a reorganization or on the size of its
buffer. -/
theorem loggedDataChecksum_content (p : Page) (hp : BufferInv p) :
    (∀ q, BufferInv q → SameContent p q → loggedDataChecksum q = loggedDataChecksum p) ∧
      (∀ env q, LayoutInv p → PageEdit.reorganizeData env p = some q →
        loggedDataChecksum q = loggedDataChecksum p) ∧
      (∀ env fDirty cbNewSize q, ((fPageIsDehydratable env p).2 = true →
          (fPageIsDehydratable env p).1 ≤ cbNewSize ∧ cbNewSize ≤ p.cbBuffer) →
        dehydratePage env p fDirty cbNewSize = some q →
        loggedDataChecksum q = loggedDataChecksum p) ∧
      ∀ env fDirty fresh q, rehydratePage env p fDirty fresh = some q →
        loggedDataChecksum q = loggedDataChecksum p := by
  refine ⟨?_, ?_, ?_, ?_⟩
  · intro q hq hcontent
    refine loggedDataChecksum_congr hp hq hcontent.identity fun i hi => ?_
    rcases lt_or_ge i p.ctagReserved with hres | hnode
    · rw [hcontent.reserved i hres hi]
    · exact (hcontent.nodes i hnode hi).loggedLine_eq
  · exact fun env q hinv h => reorganizeData_loggedDataChecksum hinv h
  · intro env fDirty cbNewSize q hrange h
    obtain ⟨q', hq', hintact, -⟩ := dehydratePage_spec env hp fDirty hrange
    obtain rfl := Option.some.inj (h.symm.trans hq')
    exact Intact.loggedDataChecksum_eq hp hintact
  · intro env fDirty fresh q h
    have hlt : p.cbBuffer < p.cbPage := by
      simp only [rehydratePage, Option.ite_none_right_eq_some] at h
      exact h.1.2.2.1
    obtain ⟨q', hq', hintact, -⟩ := rehydratePage_spec env hp fDirty fresh hlt
    obtain rfl := Option.some.inj (h.symm.trans hq')
    exact Intact.loggedDataChecksum_eq hp hintact

/-- A 2K page with the external header `abcd` and one node, at offset 4. -/
def headedPage (fFlags : Nat) (bs : List UInt8) : Page where
  cbPage := 2048
  cbBuffer := 2048
  buf := store (store (fun a =>
    if a = 28 then UInt8.ofNat (1996 - bs.length) else if a = 29 then 7 else
    if a = 32 then UInt8.ofNat (4 + bs.length) else if a = 34 then 2 else
    if a = 2040 then UInt8.ofNat bs.length else if a = 2042 then 4 else
    if a = 2043 then UInt8.ofNat (32 * fFlags) else if a = 2044 then 4 else 0)
    40 [0x61, 0x62, 0x63, 0x64]) 44 bs
  itagMicFree := 2
  ctagReserved := 1

/-- The node with key `abcde` and data `x`, with three or four bytes of its key as prefix. -/
def keyInThree : Page := headedPage 4 (nodeBytes ⟨3, [0x64, 0x65], [0x78]⟩)

def keyInFour : Page := headedPage 4 (nodeBytes ⟨4, [0x65], [0x78]⟩)

def versionedKey : Page := headedPage 5 (nodeBytes ⟨4, [0x65], [0x78]⟩)

theorem keyInThree_inv : BufferInv keyInThree where
  size := by decide
  cbBuffer_le := by decide
  cbPageHeader_le := by decide
  valid := by decide

theorem keyInFour_inv : BufferInv keyInFour where
  size := by decide
  cbBuffer_le := by decide
  cbPageHeader_le := by decide
  valid := by decide

theorem versionedKey_inv : BufferInv versionedKey where
  size := by decide
  cbBuffer_le := by decide
  cbPageHeader_le := by decide
  valid := by decide

theorem headedPage_identity (f f' : Nat) (bs bs' : List UInt8) :
    SameIdentity (headedPage f bs) (headedPage f' bs') where
  cbPage := rfl
  itagMicFree := rfl
  itagState := rfl
  fields := by
    have hzero (g : Nat) (cs : List UInt8) (a : Nat) (ha : a < 28) :
        (headedPage g cs).buf a = 0 := by
      simp only [headedPage, store]
      rw [if_neg (by omega), if_neg (by omega)]
      simp only [show a ≠ 28 by omega, show a ≠ 29 by omega, show a ≠ 32 by omega,
        show a ≠ 34 by omega, show a ≠ 2040 by omega, show a ≠ 2042 by omega,
        show a ≠ 2043 by omega, show a ≠ 2044 by omega, if_false]
    intro a _ ha
    rw [hzero f' bs' a (by omega), hzero f bs a (by omega)]
  fFlags := rfl
  pgno h := nomatch h

theorem versionedKey_checksum :
    BufferInv versionedKey ∧ SameContent keyInFour versionedKey ∧
      loggedDataChecksum versionedKey = loggedDataChecksum keyInFour := by
  have hcontent : SameContent keyInFour versionedKey := by
    refine ⟨headedPage_identity _ _ _ _, ?_, ?_⟩
    · intro i hi _
      obtain rfl : i = 0 := Nat.lt_one_iff.mp hi
      decide
    · intro i hlo hhi
      obtain rfl : i = 1 := le_antisymm (Nat.le_of_lt_succ hhi) hlo
      exact ⟨by decide, fun _ => ⟨by decide, by decide, by decide⟩⟩
  exact ⟨versionedKey_inv, hcontent,
    (loggedDataChecksum_content keyInFour keyInFour_inv).1 _ versionedKey_inv hcontent⟩

/-- Two pages with one header and one node, whose checksums differ as the node's key is split in
two ways. -/
theorem keyInThree_checksum :
    BufferInv keyInThree ∧ BufferInv keyInFour ∧ SameIdentity keyInThree keyInFour ∧
      line keyInFour 0 = line keyInThree 0 ∧ node keyInFour 0 = node keyInThree 0 ∧
      loggedDataChecksum keyInFour ≠ loggedDataChecksum keyInThree :=
  ⟨keyInThree_inv, keyInFour_inv, headedPage_identity _ _ _ _, by decide, by decide,
    by decide +kernel⟩

end EseLinux.LoggedChecksum
