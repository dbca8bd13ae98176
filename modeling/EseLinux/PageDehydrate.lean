import EseLinux.PageLayout

/-!
Stamping a page: `SetPageChecksum` sets the flag of the new checksum format and stores the
checksums of the page in its header.  A small page has one checksum, a large page four; the size
that counts here is that of the buffer.
-/

namespace EseLinux.PageStamp

open ByteMemory DigitList PageFormat PageTags

/-- `PAGECHECKSUM`: the checksum of the header block and of up to three blocks after it. -/
structure PageChecksum where
  header : UInt64
  blocks : UInt64 × UInt64 × UInt64
deriving DecidableEq, Repr

def ibitNewChecksumFormatFlag : Nat := 9 * 32 + 13

def setBit (m : Memory) (ibit : Nat) : Memory := fun a =>
  if a = ibit / 8 then m a ||| UInt8.ofNat (2 ^ (ibit % 8)) else m a

def setLongChecksumOnPage (m : Memory) (cb : Nat) (checksum : PageChecksum) : Memory :=
  let m := store m 0 (leBytes 8 checksum.header.toNat)
  if fIsSmallPage cb then m
  else
    store m 40 (leBytes 8 checksum.blocks.1.toNat ++
      (leBytes 8 checksum.blocks.2.1.toNat ++ leBytes 8 checksum.blocks.2.2.toNat))

/-- `SetPageChecksum` on a buffer of `cb` bytes, with the function that computes the checksum. -/
def setPageChecksum (computePageChecksum : Memory → Nat → PageChecksum) (m : Memory) (cb : Nat) :
    Memory :=
  let m := setBit m ibitNewChecksumFormatFlag
  setLongChecksumOnPage m cb (computePageChecksum m cb)

def StampByte (a : Nat) : Prop := a < 8 ∨ a = 37 ∨ (40 ≤ a ∧ a < 64)

theorem setPageChecksum_frame (compute : Memory → Nat → PageChecksum) (m : Memory) (cb : Nat) :
    Frame (fun a => a < 8 ∨ a = 37 ∨ (fIsSmallPage cb = false ∧ 40 ≤ a ∧ a < 64)) m
      (setPageChecksum compute m cb) := by
  have hbit : Frame (fun a => a < 8 ∨ a = 37 ∨ (fIsSmallPage cb = false ∧ 40 ≤ a ∧ a < 64)) m
      (setBit m ibitNewChecksumFormatFlag) := by
    intro a ha
    have hne : a ≠ ibitNewChecksumFormatFlag / 8 := fun h => ha (Or.inr (Or.inl h))
    exact if_neg hne
  rw [setPageChecksum, setLongChecksumOnPage]
  refine hbit.trans ?_
  generalize compute (setBit m ibitNewChecksumFormatFlag) cb = checksum
  have hfirst := frame_store
    (T := fun a => a < 8 ∨ a = 37 ∨ (fIsSmallPage cb = false ∧ 40 ≤ a ∧ a < 64))
    (setBit m ibitNewChecksumFormatFlag) 0 (leBytes 8 checksum.header.toNat)
    (fun a _ hhi => Or.inl (by rw [leBytes_length] at hhi; omega))
  split
  · exact hfirst
  · rename_i hlarge
    refine hfirst.trans (frame_store _ _ _ fun a hlo hhi => Or.inr (Or.inr ⟨?_, hlo, ?_⟩))
    · exact Bool.eq_false_iff.mpr hlarge
    · simp only [List.length_append, leBytes_length] at hhi
      omega

theorem setPageChecksum_flag (compute : Memory → Nat → PageChecksum) (m : Memory) (cb : Nat) :
    setPageChecksum compute m cb 37 = m 37 ||| 0x20 := by
  have hflag : setBit m ibitNewChecksumFormatFlag 37 = m 37 ||| 0x20 := rfl
  rw [setPageChecksum, setLongChecksumOnPage]
  generalize compute (setBit m ibitNewChecksumFormatFlag) cb = checksum
  have hfirst : AgreeOn (setBit m ibitNewChecksumFormatFlag)
      (store (setBit m ibitNewChecksumFormatFlag) 0 (leBytes 8 checksum.header.toNat)) 37 1 :=
    store_agreeOn _ _ _ _ _ (Or.inr (by rw [leBytes_length]; omega))
  have hbyte := (hfirst 37 (le_rfl) (by omega)).trans hflag
  split
  · exact hbyte
  · exact (store_agreeOn _ 40 _ 37 1 (Or.inl (by omega)) 37 (le_rfl) (by omega)).trans hbyte

end EseLinux.PageStamp

/-!
Dehydration keeps a page in a smaller buffer: the tag array moves down to the end of the new
buffer and the free count is adjusted.  Rehydration moves the tag array back.
-/

namespace EseLinux.PageDehydrate

open ByteMemory PageFormat PageLayout PageStamp PageTags SlotLayout

structure DehydrateEnv where
  cbCommitGranularity : Nat
  fRuntimeScrubbingEnabled : Bool
  computePageChecksum : Memory → Nat → PageChecksum

def ulSub (a b : Nat) : Nat := (a + 2 ^ 32 - b) % 2 ^ 32

def chPAGEReHydrateFill : UInt8 := 0x48

def cbContent (p : Page) : Nat := p.cbPageHeader + p.ibMicFree + p.cbTagArray

def cbContiguousDehydrateRequired (p : Page) : Nat := (cbContent p + 1) / 2 * 2

def fUninitialized (p : Page) : Bool :=
  dword p.buf 0 = 0 && dword p.buf 4 = 0 && dword p.buf 8 = 0 && dword p.buf 12 = 0 &&
    p.objidFDP = 0 && p.cbFree = 0

def fPageIsDehydratable (env : DehydrateEnv) (p : Page) : Nat × Bool :=
  if fUninitialized p then (p.cbPage, false)
  else
    let cbMinimumSize :=
      if (env.cbCommitGranularity : Int) ≤ p.cbContiguousBufferFree ∧
          cbContent p < ulSub p.cbBuffer (4 * 1024) then
        cbContiguousDehydrateRequired p
      else p.cbPage
    (cbMinimumSize, decide (cbMinimumSize < ulSub p.cbBuffer env.cbCommitGranularity))

def restamp (env : DehydrateEnv) (p : Page) (fDirty : Bool) : Page :=
  if fDirty then p else p.setBuf (setPageChecksum env.computePageChecksum p.buf p.cbBuffer)

def dehydratePageUnadjusted (env : DehydrateEnv) (p : Page) (fDirty : Bool) (cbNewSize : Nat) :
    Option Page :=
  let cbShrinkage := ulSub p.cbBuffer cbNewSize
  if cbShrinkage < p.cbPage ∧ cbShrinkage < 0x10000 ∧ cbShrinkage ≤ p.cbFree ∧
      p.ibMicFree < ulSub p.cbBuffer cbShrinkage then
    let m := move p.buf (cbNewSize - p.cbTagArray) (p.cbBuffer - p.cbTagArray) p.cbTagArray
    let m := setWord m 28 (word m 28 - cbShrinkage)
    some (restamp env { p with buf := m, cbBuffer := cbNewSize } fDirty)
  else none

def dehydratePage (env : DehydrateEnv) (p : Page) (fDirty : Bool) (cbNewSize : Nat) :
    Option Page :=
  if (fPageIsDehydratable env p).2 then dehydratePageUnadjusted env p fDirty cbNewSize
  else some p

def growBuffer (p : Page) (fresh : Memory) : Page :=
  { p with buf := fun a => if a < p.cbBuffer then p.buf a else fresh a, cbBuffer := p.cbPage }

/-- `RehydratePage`; the conditions are its `Enforce`s. -/
def rehydratePage (env : DehydrateEnv) (p : Page) (fDirty : Bool) (fresh : Memory) :
    Option Page :=
  if p.cbBuffer ≤ cbPageMax ∧ p.cbPage ≤ cbPageMax ∧ p.cbBuffer < p.cbPage ∧
      p.cbTagArray ≤ p.cbBuffer ∧ p.cbFree + (p.cbPage - p.cbBuffer) ≤ cbPageMax then
    let q := growBuffer p fresh
    let m := move q.buf (q.cbBuffer - q.cbTagArray) (p.cbBuffer - p.cbTagArray) q.cbTagArray
    let q := (q.setBuf m).setCbFree (word m 28 + (p.cbPage - p.cbBuffer))
    let q :=
      if env.fRuntimeScrubbingEnabled then
        q.setBuf (fill q.buf (q.pbFromIb q.ibMicFree) q.cbContiguousBufferFree.toNat
          chPAGEReHydrateFill)
      else q
    some (restamp env q fDirty)
  else none

/-- The layout invariant of a page whose buffer may be smaller than the page. -/
structure BufferInv (p : Page) : Prop where
  size : SupportedPageSize p.cbPage
  cbBuffer_le : p.cbBuffer ≤ p.cbPage
  cbPageHeader_le : p.cbPageHeader ≤ p.cbBuffer
  valid : Layout.Valid cbTag p.cbBufferData (layout p)

section Facts

variable {p : Page} {i : Nat}

theorem LayoutInv.bufferInv (h : LayoutInv p) : BufferInv p :=
  ⟨h.normal.size, h.normal.cbBuffer_eq.le, h.normal.cbPageHeader_le, h.valid⟩

section

variable (h : BufferInv p)
include h

theorem BufferInv.cbPage_le : p.cbPage ≤ 32768 := by
  have hsize := h.size
  simp only [SupportedPageSize] at hsize
  omega

theorem BufferInv.fits : cbContent p ≤ p.cbBuffer := by
  have hfits := h.valid.fits
  have hhdr := h.cbPageHeader_le
  simp only [layout, slots_length, cbTag, Page.cbBufferData] at hfits
  simp only [cbContent, Page.cbTagArray, cbTag]
  omega

theorem BufferInv.accounting :
    p.cbPageHeader + p.cbFree + p.cbTagArray + used (slots p) = p.cbBuffer := by
  have hacc := h.valid.accounting
  have hhdr := h.cbPageHeader_le
  simp only [layout, slots_length, cbTag, Page.cbBufferData] at hacc
  simp only [Page.cbTagArray, cbTag]
  omega

theorem BufferInv.free_ge : p.cbBuffer ≤ p.cbFree + cbContent p := by
  have hused : used (slots p) ≤ p.ibMicFree := used_le_top h.valid.apart h.valid.below
  have hacc := h.accounting
  simp only [cbContent]
  omega

theorem BufferInv.below (hi : i < p.itagMicFree) :
    p.tagCb i ≠ 0 → p.tagIb i + p.tagCb i ≤ p.ibMicFree :=
  h.valid.below (slot p i) (slot_mem hi)

end

end Facts

/-- Page `q` is page `p` in another buffer.  The stamp of the checksum may have been renewed; all
other header fields are as they were. -/
structure Intact (p q : Page) : Prop where
  inv : BufferInv q
  cbPage : q.cbPage = p.cbPage
  itagMicFree : q.itagMicFree = p.itagMicFree
  ctagReserved : q.ctagReserved = p.ctagReserved
  ibMicFree : q.ibMicFree = p.ibMicFree
  cbPageFree : q.cbPageFree = p.cbPageFree
  slotEq : ∀ i, i < p.itagMicFree → slot q i = slot p i
  lineEq : ∀ i, i < p.itagMicFree → line q i = line p i
  header : ∀ a, a < p.cbPageHeader → ¬ StampByte a → ¬ (28 ≤ a ∧ a < 30) → q.buf a = p.buf a
  flag : q.buf 37 = p.buf 37 ∨ q.buf 37 = p.buf 37 ||| 0x20

variable {cbNewSize : Nat}

section Intact

variable {p q r : Page} {i : Nat}

theorem cbPageHeader_of_cbPage (h : q.cbPage = p.cbPage) : q.cbPageHeader = p.cbPageHeader := by
  rw [Page.cbPageHeader, Page.cbPageHeader, Page.fSmallPageFormat, Page.fSmallPageFormat, h]

theorem Intact.refl (h : BufferInv p) : Intact p p where
  inv := h
  cbPage := rfl
  itagMicFree := rfl
  ctagReserved := rfl
  ibMicFree := rfl
  cbPageFree := rfl
  slotEq _ _ := rfl
  lineEq _ _ := rfl
  header _ _ _ _ := rfl
  flag := Or.inl rfl

theorem Intact.trans (h : Intact p q) (h' : Intact q r) : Intact p r where
  inv := h'.inv
  cbPage := h'.cbPage.trans h.cbPage
  itagMicFree := h'.itagMicFree.trans h.itagMicFree
  ctagReserved := h'.ctagReserved.trans h.ctagReserved
  ibMicFree := h'.ibMicFree.trans h.ibMicFree
  cbPageFree := h'.cbPageFree.trans h.cbPageFree
  slotEq i hi := (h'.slotEq i (by rwa [h.itagMicFree])).trans (h.slotEq i hi)
  lineEq i hi := (h'.lineEq i (by rwa [h.itagMicFree])).trans (h.lineEq i hi)
  header a ha hstamp hfree := by
    rw [h'.header a (by rwa [cbPageHeader_of_cbPage h.cbPage]) hstamp hfree,
      h.header a ha hstamp hfree]
  flag := by
    rcases h.flag with hflag | hflag <;> rcases h'.flag with hflag' | hflag' <;>
      rw [hflag', hflag]
    · exact Or.inl rfl
    · exact Or.inr rfl
    · exact Or.inr rfl
    · exact Or.inr (by rw [UInt8.or_assoc, UInt8.or_self])

theorem relocated_line (hpage : q.cbPage = p.cbPage)
    (hcb : word q.buf (q.ptagFromItag i) = word p.buf (p.ptagFromItag i))
    (hib : word q.buf (q.ptagFromItag i + 2) = word p.buf (p.ptagFromItag i + 2))
    (hdata : AgreeOn p.buf q.buf (p.pbFromIb (p.tagIb i)) (p.tagCb i)) :
    slot q i = slot p i ∧ line q i = line p i := by
  have hsmall : q.fSmallPageFormat = p.fSmallPageFormat := by
    simp only [Page.fSmallPageFormat, hpage]
  have hmask : q.mskTagIbCb = p.mskTagIbCb := by simp only [Page.mskTagIbCb, hsmall]
  have hcbEq : q.tagCb i = p.tagCb i := by simp only [Page.tagCb, hcb, hmask]
  have hibEq : q.tagIb i = p.tagIb i := by simp only [Page.tagIb, hib, hmask]
  have hpb (ib : Nat) : q.pbFromIb ib = p.pbFromIb ib := by
    simp only [Page.pbFromIb, cbPageHeader_of_cbPage hpage]
  have hbytes : q.tagData i = p.tagData i := by
    simp only [Page.tagData, hcbEq, hibEq, hpb, hdata.slice_eq]
  have hflags : q.tagFFlags i = p.tagFFlags i := by
    cases hcase : p.fSmallPageFormat with
    | true => simp only [Page.tagFFlags, hsmall, hcase, if_true, hib]
    | false =>
      rw [tagFFlags_of_large _ _ hcase, tagFFlags_of_large _ _ (hsmall.trans hcase), hbytes]
  simp only [slot, line, hcbEq, hibEq, hbytes, hflags, and_self]

theorem intact_of_copied (hinv : BufferInv p) (hpage : q.cbPage = p.cbPage)
    (hn : q.itagMicFree = p.itagMicFree) (hres : q.ctagReserved = p.ctagReserved)
    (hle : q.cbBuffer ≤ q.cbPage) (hfits : cbContent p ≤ q.cbBuffer)
    (htags : Copied p.buf q.buf (p.cbBuffer - p.cbTagArray) (q.cbBuffer - p.cbTagArray)
      p.cbTagArray)
    (hkeep : ∀ a, a < p.cbPageHeader → ¬ StampByte a → ¬ (28 ≤ a ∧ a < 30) → q.buf a = p.buf a)
    (hkeepData : ∀ a, p.cbPageHeader ≤ a → a < p.cbPageHeader + p.ibMicFree → q.buf a = p.buf a)
    (hflag : q.buf 37 = p.buf 37 ∨ q.buf 37 = p.buf 37 ||| 0x20)
    (hfree : q.cbFree + p.cbBuffer = p.cbFree + q.cbBuffer) : Intact p q := by
  have hhdr := cbPageHeader_of_cbPage hpage
  have hge := cbPageHeader_ge p
  have hmic : q.ibMicFree = p.ibMicFree := by
    refine (AgreeOn.word_eq (m := p.buf) fun a hlo hhi => ?_)
    exact hkeep a (by omega) (by simp only [StampByte]; omega) (by omega)
  have hpfits := hinv.fits
  have hread (i : Nat) (hi : i < p.itagMicFree) : slot q i = slot p i ∧ line q i = line p i := by
    have hdst : q.ptagFromItag i = q.cbBuffer - p.cbTagArray + 4 * (p.itagMicFree - i - 1) := by
      simp only [cbContent, Page.cbTagArray, Page.ptagFromItag, cbTag] at *
      omega
    have hsrc : p.ptagFromItag i = p.cbBuffer - p.cbTagArray + 4 * (p.itagMicFree - i - 1) := by
      simp only [cbContent, Page.cbTagArray, Page.ptagFromItag, cbTag] at *
      omega
    have htag (k : Nat) (hk : k < 4) :
        q.buf (q.ptagFromItag i + k) = p.buf (p.ptagFromItag i + k) := by
      rw [hdst, hsrc, add_assoc, add_assoc]
      exact htags _ (by simp only [Page.cbTagArray, cbTag]; omega)
    refine relocated_line hpage ?_ ?_ ?_
    · have h₀ := htag 0 (by omega)
      have h₁ := htag 1 (by omega)
      rw [add_zero, add_zero] at h₀
      rw [word, word, h₀, h₁]
    · rw [word, word, htag 2 (by omega), add_assoc, add_assoc, htag 3 (by omega)]
    · intro a hlo hhi
      have hbelow := hinv.below hi (by omega)
      simp only [Page.pbFromIb] at hlo hhi
      exact hkeepData a (by omega) (by omega)
  have hslots : slots q = slots p := slots_congr p q hn fun i hi => (hread i hi).1
  have hadjust : q.cbPageFree = p.cbPageFree := by
    have hple := hinv.cbBuffer_le
    simp only [Page.cbPageFree, Page.cbAdjustForPage]
    omega
  refine ⟨⟨by rw [hpage]; exact hinv.size, hle, ?_, ?_⟩, hpage, hn, hres, hmic, hadjust,
    fun i hi => (hread i hi).1, fun i hi => (hread i hi).2, hkeep, hflag⟩
  · rw [hhdr]
    simp only [cbContent] at hfits
    omega
  · have hacc := hinv.accounting
    simp only [cbContent, Page.cbTagArray, cbTag] at hfits hacc
    refine ⟨?_, ?_, ?_, ?_⟩
    · simp only [layout, hslots, hmic]
      exact hinv.valid.below
    · simp only [layout, hslots]
      exact hinv.valid.apart
    · simp only [layout, slots_length, hn, hmic, Page.cbBufferData, hhdr, cbTag]
      omega
    · simp only [layout, slots_length, hslots, Page.cbBufferData, hhdr, cbTag]
      omega

theorem restamp_intact (env : DehydrateEnv) (hinv : BufferInv p) (fDirty : Bool) :
    Intact p (restamp env p fDirty) := by
  rw [restamp]
  split
  · exact Intact.refl hinv
  · have hframe := setPageChecksum_frame env.computePageChecksum p.buf p.cbBuffer
    have hge := cbPageHeader_ge p
    have hle := hinv.cbBuffer_le
    have hfits := hinv.fits
    -- the buffer of a small page is small, so its stamp stays in the short header
    have hhdr : ∀ a, (a < 8 ∨ a = 37 ∨ (fIsSmallPage p.cbBuffer = false ∧ 40 ≤ a ∧ a < 64)) →
        a < p.cbPageHeader := by
      rintro a (ha | rfl | ⟨hlarge, -, ha⟩)
      · omega
      · omega
      · have hpage : p.fSmallPageFormat = false := by
          simp only [fIsSmallPage, decide_eq_false_iff_not] at hlarge
          simp only [Page.fSmallPageFormat, fIsSmallPage, decide_eq_false_iff_not]
          omega
        rw [Page.cbPageHeader, hpage, if_neg Bool.false_ne_true]
        omega
    have hkeep (a : Nat) (ha : p.cbPageHeader ≤ a) :
        setPageChecksum env.computePageChecksum p.buf p.cbBuffer a = p.buf a :=
      hframe a fun h => absurd (hhdr a h) (by omega)
    refine intact_of_copied hinv rfl rfl rfl hle hfits ?_ ?_ ?_ ?_ ?_
    · intro k hk
      refine hkeep _ ?_
      simp only [cbContent, setBuf_cbBuffer] at *
      omega
    · intro a ha hstamp hcb
      refine hframe a fun h => hstamp ?_
      rcases h with h | h | h
      · exact Or.inl h
      · exact Or.inr (Or.inl h)
      · exact Or.inr (Or.inr h.2)
    · exact fun a ha _ => hkeep a ha
    · exact Or.inr (setPageChecksum_flag _ _ _)
    · have hcbFree : (p.setBuf (setPageChecksum env.computePageChecksum p.buf
          p.cbBuffer)).cbFree = p.cbFree :=
        (hframe.agreeOn (a := 28) (n := 2) fun a hlo hhi h => by omega).word_eq
      rw [hcbFree, setBuf_cbBuffer]

theorem ulSub_of_le {a b : Nat} (hle : b ≤ a) (hlt : a < 2 ^ 32) : ulSub a b = a - b := by
  rw [ulSub]
  omega

theorem content_le_of_minimum {env : DehydrateEnv} (hinv : BufferInv p)
    (hmin : (fPageIsDehydratable env p).1 ≤ cbNewSize) : cbContent p ≤ cbNewSize := by
  have hle := hinv.cbBuffer_le
  have hfits := hinv.fits
  rw [fPageIsDehydratable] at hmin
  split at hmin
  · omega
  · simp only at hmin
    split at hmin
    · rw [cbContiguousDehydrateRequired] at hmin
      omega
    · omega

end Intact

section Steps

variable {p : Page}

theorem restamp_cbBuffer (env : DehydrateEnv) (p : Page) (fDirty : Bool) :
    (restamp env p fDirty).cbBuffer = p.cbBuffer := by
  rw [restamp]
  split <;> rfl

theorem moved_intact (hinv : BufferInv p) (m : Memory) (cb cbFree : Nat) (hle : cb ≤ p.cbPage)
    (hcontent : cbContent p ≤ cb)
    (hbuf : AgreeOn p.buf m 0 p.cbBuffer) (hfree : cbFree + p.cbBuffer = p.cbFree + cb) :
    Intact p { p with
      buf := setWord (move m (cb - p.cbTagArray) (p.cbBuffer - p.cbTagArray) p.cbTagArray) 28 cbFree
      cbBuffer := cb } := by
  have hfits := hinv.fits
  have hge := cbPageHeader_ge p
  have hlt : cbFree < 65536 := by
    have hmax := hinv.cbPage_le
    have hacc := hinv.accounting
    omega
  -- below the new tag array only the free count is written
  have hkeep (a : Nat) (ha : a < p.cbPageHeader + p.ibMicFree) (hcb : ¬ (28 ≤ a ∧ a < 30)) :
      setWord (move m (cb - p.cbTagArray) (p.cbBuffer - p.cbTagArray) p.cbTagArray) 28 cbFree a
        = p.buf a := by
    simp only [cbContent] at hcontent hfits
    rw [setWord_agreeOn _ 28 _ a 1 (by omega) a (Nat.le_refl _) (Nat.lt_succ_self a),
      move_agreeOn _ _ _ _ a 1 (by omega) a (Nat.le_refl _) (Nat.lt_succ_self a)]
    exact hbuf a (Nat.zero_le a) (by omega)
  refine intact_of_copied hinv rfl rfl rfl hle hcontent ?_ ?_ ?_ ?_ ?_
  · intro k hk
    simp only [cbContent] at hcontent hfits
    show setWord _ 28 cbFree (cb - p.cbTagArray + k) = _
    rw [setWord_agreeOn _ 28 _ (cb - p.cbTagArray + k) 1 (by omega) _ (Nat.le_refl _)
      (Nat.lt_succ_self _),
      move_apply _ _ _ _ _ hk]
    exact hbuf _ (Nat.zero_le _) (by omega)
  · exact fun a ha _ hcb => hkeep a (by omega) hcb
  · exact fun a hlo hhi => hkeep a hhi (by omega)
  · exact Or.inl (hkeep 37 (by omega) (by omega))
  · rw [Page.cbFree, word_setWord_of_lt _ _ _ hlt]
    exact hfree

theorem dehydratePageUnadjusted_spec (env : DehydrateEnv) (hinv : BufferInv p) (fDirty : Bool)
    (hcontent : cbContent p ≤ cbNewSize) (hle : cbNewSize ≤ p.cbBuffer) :
    ∃ q, dehydratePageUnadjusted env p fDirty cbNewSize = some q ∧ Intact p q ∧
      q.cbBuffer = cbNewSize := by
  have hpage := hinv.cbBuffer_le
  have hmax := hinv.cbPage_le
  have hfree := hinv.free_ge
  have hge := cbPageHeader_ge p
  have hshrink : ulSub p.cbBuffer cbNewSize = p.cbBuffer - cbNewSize := ulSub_of_le hle (by omega)
  have hnew : ulSub p.cbBuffer (p.cbBuffer - cbNewSize) = cbNewSize := by
    rw [ulSub_of_le (by omega) (by omega)]
    omega
  have hheader : p.cbPageHeader + p.ibMicFree ≤ cbNewSize := by
    simp only [cbContent] at hcontent
    omega
  have hcond : p.cbBuffer - cbNewSize < p.cbPage ∧ p.cbBuffer - cbNewSize < 0x10000 ∧
      p.cbBuffer - cbNewSize ≤ p.cbFree ∧ p.ibMicFree < cbNewSize :=
    ⟨by omega, by omega, by omega, by omega⟩
  have hword : word (move p.buf (cbNewSize - p.cbTagArray) (p.cbBuffer - p.cbTagArray)
      p.cbTagArray) 28 = p.cbFree :=
    (move_agreeOn _ _ _ _ 28 2 (by simp only [cbContent] at hcontent; omega)).word_eq
  simp only [dehydratePageUnadjusted, hshrink, hnew, if_pos hcond, hword]
  have hmoved := moved_intact hinv p.buf cbNewSize (p.cbFree - (p.cbBuffer - cbNewSize))
    (by omega) hcontent (fun _ _ _ => rfl) (by omega)
  refine ⟨_, rfl, hmoved.trans (restamp_intact env hmoved.inv fDirty), ?_⟩
  rw [restamp_cbBuffer]

theorem dehydratePage_spec (env : DehydrateEnv) (hinv : BufferInv p) (fDirty : Bool)
    (hrange : (fPageIsDehydratable env p).2 = true →
      (fPageIsDehydratable env p).1 ≤ cbNewSize ∧ cbNewSize ≤ p.cbBuffer) :
    ∃ q, dehydratePage env p fDirty cbNewSize = some q ∧ Intact p q ∧
      q.cbBuffer = if (fPageIsDehydratable env p).2 then cbNewSize else p.cbBuffer := by
  rw [dehydratePage]
  split
  · rename_i hdehydratable
    obtain ⟨hmin, hle⟩ := hrange hdehydratable
    exact dehydratePageUnadjusted_spec env hinv fDirty (content_le_of_minimum hinv hmin) hle
  · exact ⟨p, rfl, Intact.refl hinv, rfl⟩

theorem dehydratePage_flag {env : DehydrateEnv} {q : Page}
    (hdehydratable : (fPageIsDehydratable env p).2 = true)
    (hq : dehydratePage env p false cbNewSize = some q) (hintact : Intact p q) :
    q.buf 37 = p.buf 37 ||| 0x20 := by
  have hset : q.buf 37 ||| 0x20 = q.buf 37 := by
    simp only [dehydratePage, if_pos hdehydratable, dehydratePageUnadjusted,
      Option.ite_none_right_eq_some, Option.some.injEq] at hq
    obtain ⟨-, rfl⟩ := hq
    simp only [restamp, Bool.false_eq_true, if_false, Page.setBuf, setPageChecksum_flag,
      UInt8.or_assoc, UInt8.or_self]
  rcases hintact.flag with hflag | hflag
  · rw [← hset, hflag]
  · exact hflag

theorem fill_gap_intact (hinv : BufferInv p) (b : UInt8) :
    Intact p (p.setBuf (fill p.buf (p.pbFromIb p.ibMicFree) p.cbContiguousBufferFree.toNat b)) := by
  have hfits := hinv.fits
  have hge := cbPageHeader_ge p
  have hgap : p.pbFromIb p.ibMicFree + p.cbContiguousBufferFree.toNat =
      p.cbBuffer - p.cbTagArray := by
    simp only [cbContent] at hfits
    simp only [Page.pbFromIb, Page.cbContiguousBufferFree, Page.cbBufferData]
    omega
  have hkeep : Frame (fun a => p.cbPageHeader + p.ibMicFree ≤ a ∧ a < p.cbBuffer - p.cbTagArray)
      p.buf (fill p.buf (p.pbFromIb p.ibMicFree) p.cbContiguousBufferFree.toNat b) :=
    frame_fill _ _ _ _ fun a hlo hhi => ⟨hlo, by omega⟩
  refine intact_of_copied hinv rfl rfl rfl hinv.cbBuffer_le hfits ?_ ?_ ?_ ?_ ?_
  · exact fun k hk => hkeep _ (by simp only [setBuf_cbBuffer]; omega)
  · exact fun a ha _ _ => hkeep a (by omega)
  · exact fun a _ ha => hkeep a (by omega)
  · exact Or.inl (hkeep 37 (by omega))
  · have hcbFree : (p.setBuf (fill p.buf (p.pbFromIb p.ibMicFree)
        p.cbContiguousBufferFree.toNat b)).cbFree = p.cbFree :=
      (hkeep.agreeOn (a := 28) (n := 2) fun a hlo hhi h => by omega).word_eq
    rw [hcbFree, setBuf_cbBuffer]

theorem rehydratePage_spec (env : DehydrateEnv) (hinv : BufferInv p) (fDirty : Bool)
    (fresh : Memory) (hlt : p.cbBuffer < p.cbPage) :
    ∃ q, rehydratePage env p fDirty fresh = some q ∧ Intact p q ∧ q.cbBuffer = p.cbPage := by
  have hmax := hinv.cbPage_le
  have hfits := hinv.fits
  have hacc := hinv.accounting
  have hge := cbPageHeader_ge p
  have hcond : p.cbBuffer ≤ cbPageMax ∧ p.cbPage ≤ cbPageMax ∧ p.cbBuffer < p.cbPage ∧
      p.cbTagArray ≤ p.cbBuffer ∧ p.cbFree + (p.cbPage - p.cbBuffer) ≤ cbPageMax := by
    simp only [cbPageMax]
    exact ⟨by omega, by omega, hlt, by omega, by omega⟩
  have hgrown : AgreeOn p.buf (growBuffer p fresh).buf 0 p.cbBuffer :=
    fun a _ ha => if_pos (by omega)
  have hword : word (move (growBuffer p fresh).buf (p.cbPage - p.cbTagArray)
      (p.cbBuffer - p.cbTagArray) p.cbTagArray) 28 = p.cbFree :=
    (move_agreeOn _ _ _ _ 28 2 (by simp only [cbContent] at hfits; omega)).word_eq.trans
      (hgrown.mono (by omega) (by omega)).word_eq
  have hmoved := moved_intact hinv (growBuffer p fresh).buf p.cbPage
    (p.cbFree + (p.cbPage - p.cbBuffer)) (le_rfl) (by omega) hgrown (by omega)
  rw [← hword] at hmoved
  rw [rehydratePage, if_pos hcond]
  refine ⟨_, rfl, ?_, ?_⟩
  · split
    · have hfilled := fill_gap_intact hmoved.inv chPAGEReHydrateFill
      exact (hmoved.trans hfilled).trans (restamp_intact env hfilled.inv fDirty)
    · exact hmoved.trans (restamp_intact env hmoved.inv fDirty)
  · rw [restamp_cbBuffer]
    split <;> rfl

end Steps

end EseLinux.PageDehydrate
