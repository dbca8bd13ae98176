import Mathlib.Algebra.Group.Nat.Defs
import Mathlib.Logic.Function.Basic

/-!
The flush types in the pages of a flush map (flushmap.cxx), two bits for each database page, as an
array that is written one page or one range at a time.
-/

namespace EseLinux.FlushMapBits

open Function

/-- `CPAGE::PageFlushType` -/
inductive Pgft
  | unknown | rockWrite | paperWrite | scissorsWrite

def Pgft.state : Pgft → UInt8
  | .unknown => 0
  | .rockWrite => 1
  | .paperWrite => 2
  | .scissorsWrite => 3

def cbFlushMapPageOnDisk : Nat := 8192

/-- `sizeof( FlushMapDataPageHdr )` -/
def cbFlushMapDataPageHdr : Nat := 64

def cbitFlushType : Nat := 2

def mskFlushType : UInt8 := 0xC0

/-- `m_cDbPagesPerFlushMapPage`, a `USHORT` -/
def cDbPagesPerFlushMapPage : Nat :=
  8 * (cbFlushMapPageOnDisk - cbFlushMapDataPageHdr) / cbitFlushType % 2 ^ 16

section Bitmap

/- The size of the header, the bits for a state and their mask in the first place of a byte. -/
variable (pgno cbHeader cbitPerState : Nat) (mask : UInt8)

def ibitGetBitInPage : Nat :=
  (8 * cbHeader + pgno % cDbPagesPerFlushMapPage * cbitPerState) % 2 ^ 16

def iGetStateFromBitmap (pbBitmap : Nat → UInt8) : UInt8 :=
  let ibitInBitmap := ibitGetBitInPage pgno cbHeader cbitPerState
  let ibitInByte := ibitInBitmap % 8
  (pbBitmap (ibitInBitmap / 8) &&& mask >>> UInt8.ofNat ibitInByte) >>>
    UInt8.ofNat (8 - cbitPerState - ibitInByte)

/-- The DWORD is exchanged with one byte of it changed. -/
def setStateOnBitmap (state : UInt8) (pbBitmap : Nat → UInt8) : Nat → UInt8 :=
  let ibitInBitmap := ibitGetBitInPage pgno cbHeader cbitPerState
  let ib := ibitInBitmap / 32 * 4 + ibitInBitmap % 32 / 8
  let ibitInByte := ibitInBitmap % 8
  update pbBitmap ib
    (pbBitmap ib &&& ~~~(mask >>> UInt8.ofNat ibitInByte) |||
      state <<< UInt8.ofNat (8 - cbitPerState - ibitInByte))

end Bitmap

/-- The pages of the flush map. -/
abbrev FlushMap := Nat → Nat → UInt8

def fmpgnoGetFmPgnoFromDbPgno (pgno : Nat) : Nat := pgno / cDbPagesPerFlushMapPage

def pgftGetFlushType (fm : FlushMap) (pgno : Nat) : UInt8 :=
  iGetStateFromBitmap pgno cbFlushMapDataPageHdr cbitFlushType mskFlushType
    (fm (fmpgnoGetFmPgnoFromDbPgno pgno))

def setFlushType (pgft : Pgft) (fm : FlushMap) (pgno : Nat) : FlushMap :=
  update fm (fmpgnoGetFmPgnoFromDbPgno pgno)
    (setStateOnBitmap pgno cbFlushMapDataPageHdr cbitFlushType mskFlushType pgft.state
      (fm (fmpgnoGetFmPgnoFromDbPgno pgno)))

/-- A setting of a range; one of a single page is a range of one. -/
structure Setting where
  pgnoFirst : Nat
  cpg : Nat
  pgft : Pgft
  fValid : Nat → Bool

/-- The loop of `ErrSetRangePgnoFlushType_`, which ends at a descriptor that is not valid. -/
def setRange (pgft : Pgft) (fValid : Nat → Bool) : Nat → Nat → FlushMap → FlushMap
  | 0, _, fm => fm
  | cpg + 1, pgno, fm =>
    if fValid (fmpgnoGetFmPgnoFromDbPgno pgno) then
      setRange pgft fValid cpg (pgno + 1) (setFlushType pgft fm pgno)
    else fm

def errSetRangePgnoFlushType (fm : FlushMap) (s : Setting) : FlushMap :=
  setRange s.pgft s.fValid s.cpg s.pgnoFirst fm

/-- The page is in the range, and no descriptor up to its own stops the setting. -/
def Setting.Covers (s : Setting) (pgno : Nat) : Prop :=
  s.pgnoFirst ≤ pgno ∧ pgno < s.pgnoFirst + s.cpg ∧
    ∀ p, s.pgnoFirst ≤ p → p ≤ pgno → s.fValid (fmpgnoGetFmPgnoFromDbPgno p) = true

/-- The flush map page of a database page, and its first bit there. -/
def place (pgno : Nat) : Nat × Nat :=
  (fmpgnoGetFmPgnoFromDbPgno pgno, ibitGetBitInPage pgno cbFlushMapDataPageHdr cbitFlushType)

theorem byte_places : ∀ b < 256, ∀ i < 4, ∀ j < 4, ∀ v < 4,
    ((UInt8.ofNat b &&& ~~~(0xC0 >>> UInt8.ofNat (2 * i)) |||
        UInt8.ofNat v <<< UInt8.ofNat (6 - 2 * i)) &&& 0xC0 >>> UInt8.ofNat (2 * j)) >>>
        UInt8.ofNat (6 - 2 * j) =
      if i = j then UInt8.ofNat v
      else (UInt8.ofNat b &&& 0xC0 >>> UInt8.ofNat (2 * j)) >>> UInt8.ofNat (6 - 2 * j) := by
  decide +kernel

theorem place_eq (pgno : Nat) : place pgno = (pgno / 32512, 512 + pgno % 32512 * 2) := by
  have hcount : cDbPagesPerFlushMapPage = 32512 := rfl
  unfold place fmpgnoGetFmPgnoFromDbPgno ibitGetBitInPage cbFlushMapDataPageHdr cbitFlushType
  rw [hcount, Nat.mod_eq_of_lt (by omega)]

theorem place_bounds (pgno : Nat) :
    8 * cbFlushMapDataPageHdr ≤ (place pgno).2 ∧
      (place pgno).2 + cbitFlushType ≤ 8 * cbFlushMapPageOnDisk := by
  rw [place_eq, cbFlushMapDataPageHdr, cbitFlushType, cbFlushMapPageOnDisk]
  omega

theorem place_injective : Injective place := by
  intro pgno pgno' heq
  rw [place_eq, place_eq] at heq
  obtain ⟨hdiv, hmod⟩ := Prod.mk.inj heq
  omega

theorem get_set (pgft : Pgft) (fm : FlushMap) (pgno : Nat) :
    pgftGetFlushType (setFlushType pgft fm pgno) =
      update (pgftGetFlushType fm) pgno pgft.state := by
  funext pgno'
  rw [update_apply]
  have hplace : pgno' = pgno ↔ place pgno' = place pgno := place_injective.eq_iff.symm
  have heven q : ibitGetBitInPage q cbFlushMapDataPageHdr cbitFlushType % 2 = 0 := by
    have hbit := congrArg Prod.snd (place_eq q)
    change ibitGetBitInPage q cbFlushMapDataPageHdr cbitFlushType = _ at hbit
    omega
  have hp := heven pgno
  have hp' := heven pgno'
  unfold place at hplace
  rw [Prod.mk.injEq] at hplace
  unfold pgftGetFlushType setFlushType iGetStateFromBitmap setStateOnBitmap
  dsimp only
  generalize ibitGetBitInPage pgno cbFlushMapDataPageHdr cbitFlushType = ibit at *
  generalize ibitGetBitInPage pgno' cbFlushMapDataPageHdr cbitFlushType = ibit' at *
  by_cases hpage : fmpgnoGetFmPgnoFromDbPgno pgno' = fmpgnoGetFmPgnoFromDbPgno pgno
  · rw [hpage, update_self]
    by_cases hbyte : ibit' / 8 = ibit / 32 * 4 + ibit % 32 / 8
    · -- both pages have their places in one byte
      rw [hbyte, update_self]
      have hread := byte_places _ (fm (fmpgnoGetFmPgnoFromDbPgno pgno) (ibit / 32 * 4 +
        ibit % 32 / 8)).toNat_lt (ibit % 8 / 2) (by omega) (ibit' % 8 / 2) (by omega)
        pgft.state.toNat (by cases pgft <;> decide)
      rw [UInt8.ofNat_toNat, UInt8.ofNat_toNat, show 2 * (ibit % 8 / 2) = ibit % 8 by omega,
        show 2 * (ibit' % 8 / 2) = ibit' % 8 by omega] at hread
      refine hread.trans (if_congr ?_ rfl rfl)
      rw [hplace]
      exact ⟨fun h => ⟨hpage, by omega⟩, fun h => by rw [h.2]⟩
    · rw [update_of_ne hbyte, if_neg]
      intro hsame
      omega
  · rw [update_of_ne hpage, if_neg fun h => hpage (hplace.mp h).1]

theorem set_outside (pgft : Pgft) (fm : FlushMap) (pgno fmpgno : Nat) {ib : Nat}
    (hib : ib < cbFlushMapDataPageHdr ∨ cbFlushMapPageOnDisk ≤ ib) :
    setFlushType pgft fm pgno fmpgno ib = fm fmpgno ib := by
  have hbounds := place_bounds pgno
  unfold place cbitFlushType at hbounds
  unfold setFlushType
  by_cases hpage : fmpgno = fmpgnoGetFmPgnoFromDbPgno pgno
  · rw [hpage, update_self]
    exact update_of_ne (by unfold cbitFlushType; omega) _ _
  · rw [update_of_ne hpage]

variable {pgft : Pgft} {fValid : Nat → Bool} {pgnoFirst cpg pgno : Nat}

theorem covers_succ : Setting.Covers ⟨pgnoFirst, cpg + 1, pgft, fValid⟩ pgno ↔
    fValid (fmpgnoGetFmPgnoFromDbPgno pgnoFirst) = true ∧
      (pgno = pgnoFirst ∨ Setting.Covers ⟨pgnoFirst + 1, cpg, pgft, fValid⟩ pgno) := by
  unfold Setting.Covers
  dsimp only
  constructor
  · rintro ⟨hle, hlt, hvalid⟩
    refine ⟨hvalid pgnoFirst (Nat.le_refl _) hle, ?_⟩
    rcases Nat.eq_or_lt_of_le hle with heq | hgt
    · exact .inl heq.symm
    · exact .inr ⟨hgt, by omega, fun p hp => hvalid p (Nat.le_of_succ_le hp)⟩
  · rintro ⟨hfirst, rfl | ⟨hle, hlt, hvalid⟩⟩
    · refine ⟨Nat.le_refl _, by omega, fun p hp hp' => ?_⟩
      rwa [Nat.le_antisymm hp' hp]
    · refine ⟨by omega, by omega, fun p hp hp' => ?_⟩
      rcases Nat.eq_or_lt_of_le hp with rfl | hgt
      · exact hfirst
      · exact hvalid p hgt hp'

open Classical in
theorem get_setRange (fm : FlushMap) :
    pgftGetFlushType (setRange pgft fValid cpg pgnoFirst fm) pgno =
      if Setting.Covers ⟨pgnoFirst, cpg, pgft, fValid⟩ pgno then pgft.state
      else pgftGetFlushType fm pgno := by
  induction cpg generalizing pgnoFirst fm with
  | zero =>
    rw [if_neg]
    · rfl
    · rintro ⟨hle, hlt, -⟩
      exact Nat.not_lt.mpr hle hlt
  | succ cpg ih =>
    unfold setRange
    rw [covers_succ]
    by_cases hfirst : fValid (fmpgnoGetFmPgnoFromDbPgno pgnoFirst) = true
    · rw [if_pos hfirst, ih, get_set, update_apply]
      -- the page of this round is not set again by the rounds behind it
      by_cases heq : pgno = pgnoFirst
      · simp [heq, hfirst]
      · simp [heq, hfirst]
    · rw [if_neg hfirst, if_neg fun h => hfirst h.1]

theorem setRange_outside {fmpgno ib : Nat}
    (hib : ib < cbFlushMapDataPageHdr ∨ cbFlushMapPageOnDisk ≤ ib) (fm : FlushMap) :
    setRange pgft fValid cpg pgnoFirst fm fmpgno ib = fm fmpgno ib := by
  induction cpg generalizing pgnoFirst fm with
  | zero => rfl
  | succ cpg ih =>
    unfold setRange
    split
    · rw [ih, set_outside _ _ _ _ hib]
    · rfl

theorem get_settings_other (settings : List Setting) (fm : FlushMap)
    (hother : ∀ s ∈ settings, ¬ s.Covers pgno) :
    pgftGetFlushType (settings.foldl errSetRangePgnoFlushType fm) pgno =
      pgftGetFlushType fm pgno := by
  induction settings generalizing fm with
  | nil => rfl
  | cons s settings ih =>
    rw [List.forall_mem_cons] at hother
    exact (ih _ hother.2).trans ((get_setRange fm).trans (if_neg hother.1))

/-- The places of the pages are distinct and behind the header, and after any settings each page
reads as the last one that covers it has set it, or as before if none does, with all bytes outside
the bitmap as they were. -/
theorem flushMap_reads_writes (settings : List Setting) (fm : FlushMap) :
    Injective place ∧
      (∀ pgno, 8 * cbFlushMapDataPageHdr ≤ (place pgno).2 ∧
        (place pgno).2 + cbitFlushType ≤ 8 * cbFlushMapPageOnDisk) ∧
      (∀ earlier s later, settings = earlier ++ s :: later → ∀ pgno, s.Covers pgno →
        (∀ t ∈ later, ¬ t.Covers pgno) →
          pgftGetFlushType (settings.foldl errSetRangePgnoFlushType fm) pgno = s.pgft.state) ∧
      (∀ pgno, (∀ s ∈ settings, ¬ s.Covers pgno) →
        pgftGetFlushType (settings.foldl errSetRangePgnoFlushType fm) pgno =
          pgftGetFlushType fm pgno) ∧
      ∀ fmpgno ib, ib < cbFlushMapDataPageHdr ∨ cbFlushMapPageOnDisk ≤ ib →
        settings.foldl errSetRangePgnoFlushType fm fmpgno ib = fm fmpgno ib := by
  refine ⟨place_injective, place_bounds, ?_, ?_, ?_⟩
  · rintro earlier s later rfl pgno hcovers hlater
    rw [List.foldl_append, List.foldl_cons, get_settings_other later _ hlater]
    exact (get_setRange _).trans (if_pos hcovers)
  · intro pgno hother
    exact get_settings_other settings fm hother
  · intro fmpgno ib hib
    induction settings generalizing fm with
    | nil => rfl
    | cons s settings ih => exact (ih _).trans (setRange_outside hib fm)

/-- A range over the end of the first map page, then a page of it, then a range that an invalid
second map page cuts short. -/
theorem overlapping_settings_read :
    pgftGetFlushType ([⟨32510, 4, .paperWrite, fun _ => true⟩,
      ⟨32511, 1, .rockWrite, fun _ => true⟩,
      ⟨32511, 4, .unknown, fun fmpgno => fmpgno = 0⟩].foldl errSetRangePgnoFlushType
        fun _ _ => 0xff) 32512 = 2 := by
  apply (flushMap_reads_writes _ _).2.2.1 [] _ _ rfl 32512
  · exact ⟨by decide, by decide, fun _ _ _ => rfl⟩
  · intro t ht
    rw [List.mem_cons, List.mem_singleton] at ht
    rcases ht with rfl | rfl
    · exact fun h => absurd h.2.1 (by decide)
    · exact fun h => absurd (h.2.2 32512 (by decide) (Nat.le_refl _)) (by decide)

end EseLinux.FlushMapBits
