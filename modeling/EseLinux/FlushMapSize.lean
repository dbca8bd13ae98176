import Mathlib.Algebra.Group.Nat.Defs
import Mathlib.Tactic.Common

/-!
How many pages a flush map is given (`CFlushMap::CfmpgGetPreferredFmDataPageCount_`), in 32-bit
unsigned arithmetic.
-/

namespace EseLinux.FlushMapSize

open Option

def pgnoSysMax : Nat := 0x7fefffff

def cDbPagesPerFlushMapPage : Nat := 8 * (8192 - 64) / 2

def cbFlushMapPageOnDisk : Nat := 8192

structure Arith where
  add : Nat → Nat → Option Nat
  sub : Nat → Nat → Option Nat
  mul : Nat → Nat → Option Nat

def Arith.wrapped : Arith where
  add a b := some ((a + b) % 2 ^ 32)
  sub a b := some ((a + 2 ^ 32 - b) % 2 ^ 32)
  mul a b := some (a * b % 2 ^ 32)

def Arith.checked : Arith where
  add a b := if a + b < 2 ^ 32 then some (a + b) else none
  sub a b := if b ≤ a then some (a - b) else none
  mul a b := if a * b < 2 ^ 32 then some (a * b) else none

section Model

variable (A : Arith)

def div (a b : Nat) : Option Nat := if b = 0 then none else some (a / b)

def roundupdiv (num den : Nat) : Option Nat := do
  let sum ← A.add num den
  let sum ← A.sub sum 1
  div sum den

def roundup (val align : Nat) : Option Nat := do
  let count ← roundupdiv A val align
  A.mul count align

def rounddn (val align : Nat) : Option Nat := do
  let count ← div val align
  A.mul count align

def cfmpgGetRequiredFmDataPageCount (pgnoReq : Nat) : Option Nat := do
  let cpg ← A.add pgnoReq 1
  roundupdiv A cpg cDbPagesPerFlushMapPage

def cfmpgEstimate (pgnoReq cpgDbExtension cfmpgRequired cfmpgWriteMax : Nat) : Option Nat := do
  let cpgActual ← A.add pgnoReq 1
  let cpgEstimate ← A.mul 10 cpgDbExtension
  if cpgEstimate > cpgActual then
    let pgno ← A.sub cpgEstimate 1
    let cfmpg ← cfmpgGetRequiredFmDataPageCount A pgno
    if cfmpg ≥ 2 then roundup A cfmpgRequired cfmpgWriteMax else some cfmpg
  else
    let cpgEstimate ← A.mul 2 cpgActual
    let pgno ← A.sub cpgEstimate 1
    let cfmpg ← cfmpgGetRequiredFmDataPageCount A pgno
    if cfmpg ≥ cfmpgWriteMax then
      let cfmpgDown ← rounddn A cfmpg cfmpgWriteMax
      some (max cfmpgDown cfmpgRequired)
    else some cfmpg

def cfmpgClamp (cfmpgPreferred cfmpgRequired cfmpgWriteMax : Nat) : Option Nat :=
  if cfmpgPreferred > cfmpgRequired then do
    let cfmpgExtra ← A.sub cfmpgPreferred cfmpgRequired
    let cfmpgMost ← A.mul 4 cfmpgWriteMax
    if cfmpgExtra > cfmpgMost then
      let cfmpg ← A.add cfmpgRequired cfmpgMost
      A.sub cfmpg 1
    else some cfmpgPreferred
  else some cfmpgPreferred

def cfmpgGetPreferredFmDataPageCount (fPersisted : Bool) (pgnoReq cpgDbExtension cbWriteMax : Nat) :
    Option Nat := do
  let cfmpgRequired ← cfmpgGetRequiredFmDataPageCount A pgnoReq
  let cfmpgWriteMax ← roundupdiv A cbWriteMax cbFlushMapPageOnDisk
  let cfmpgPreferred ←
    if fPersisted = false ∨ cpgDbExtension = 0 then some cfmpgRequired
    else cfmpgEstimate A pgnoReq cpgDbExtension cfmpgRequired cfmpgWriteMax
  let cfmpgPreferred ← cfmpgClamp A cfmpgPreferred cfmpgRequired cfmpgWriteMax
  let cfmpgMost ← cfmpgGetRequiredFmDataPageCount A pgnoSysMax
  some (min cfmpgPreferred cfmpgMost)

end Model

/-- Arithmetic that is right as long as the operands and the result are words. -/
structure Arith.Exact (A : Arith) : Prop where
  add {a b : Nat} : a + b < 2 ^ 32 → A.add a b = some (a + b)
  sub {a b : Nat} : b ≤ a → a < 2 ^ 32 → A.sub a b = some (a - b)
  mul {a b : Nat} : a * b < 2 ^ 32 → A.mul a b = some (a * b)

theorem exact_checked : Arith.checked.Exact := ⟨(if_pos ·), fun h _ => if_pos h, (if_pos ·)⟩

theorem exact_wrapped : Arith.wrapped.Exact where
  add h := congrArg some (Nat.mod_eq_of_lt h)
  sub {a b} h ha := congrArg some (show (a + 2 ^ 32 - b) % 2 ^ 32 = a - b by omega)
  mul h := congrArg some (Nat.mod_eq_of_lt h)

def cfmpgRequired (pgno : Nat) : Nat := pgno / 32512 + 1

/-- The estimate in numbers of any size. -/
def cfmpgEstimated (pgno cpgDbExtension cfmpgWriteMax : Nat) : Nat :=
  if 10 * cpgDbExtension > pgno + 1 then
    if cfmpgRequired (10 * cpgDbExtension - 1) ≥ 2 then
      (cfmpgRequired pgno + cfmpgWriteMax - 1) / cfmpgWriteMax * cfmpgWriteMax
    else cfmpgRequired (10 * cpgDbExtension - 1)
  else if cfmpgRequired (2 * (pgno + 1) - 1) ≥ cfmpgWriteMax then
    max (cfmpgRequired (2 * (pgno + 1) - 1) / cfmpgWriteMax * cfmpgWriteMax) (cfmpgRequired pgno)
  else cfmpgRequired (2 * (pgno + 1) - 1)

theorem cfmpgRequired_mono {a b : Nat} (h : a ≤ b) : cfmpgRequired a ≤ cfmpgRequired b :=
  Nat.succ_le_succ (Nat.div_le_div_right h)

def cfmpgClamped (cfmpgPreferred cfmpgRequired cfmpgWriteMax : Nat) : Nat :=
  if cfmpgPreferred - cfmpgRequired > 4 * cfmpgWriteMax then cfmpgRequired + 4 * cfmpgWriteMax - 1
  else cfmpgPreferred

def cfmpgPreferred (fPersisted : Bool) (pgno cpgDbExtension cfmpgWriteMax : Nat) : Nat :=
  let cfmpg := if fPersisted = false ∨ cpgDbExtension = 0 then cfmpgRequired pgno
    else cfmpgEstimated pgno cpgDbExtension cfmpgWriteMax
  min (cfmpgClamped cfmpg (cfmpgRequired pgno) cfmpgWriteMax) (cfmpgRequired pgnoSysMax)

variable {a b pgno cpgDbExtension cfmpgWriteMax : Nat}

theorem cfmpgRequired_lt (hpgno : pgno ≤ pgnoSysMax) : cfmpgRequired pgno < 2 ^ 20 := by
  unfold pgnoSysMax at hpgno
  unfold cfmpgRequired
  omega

theorem estimated_ge (hpos : 0 < cfmpgWriteMax) :
    cfmpgRequired pgno ≤ cfmpgEstimated pgno cpgDbExtension cfmpgWriteMax := by
  unfold cfmpgEstimated
  split_ifs
  · have hlt := Nat.lt_div_mul_add hpos (a := cfmpgRequired pgno + cfmpgWriteMax - 1)
    omega
  · exact cfmpgRequired_mono (by omega)
  · exact Nat.le_max_right _ _
  · exact cfmpgRequired_mono (by omega)

theorem preferred_ge (fPersisted : Bool) (hpgno : pgno ≤ pgnoSysMax) (hpos : 0 < cfmpgWriteMax) :
    cfmpgRequired pgno ≤ cfmpgPreferred fPersisted pgno cpgDbExtension cfmpgWriteMax := by
  have hle : cfmpgRequired pgno ≤ cfmpgEstimated pgno cpgDbExtension cfmpgWriteMax :=
    estimated_ge hpos
  refine Nat.le_min.mpr ⟨?_, cfmpgRequired_mono hpgno⟩
  unfold cfmpgClamped
  split_ifs <;> omega

section Exact

variable {A : Arith} (hA : A.Exact)

include hA

theorem roundupdiv_eq (hb : 0 < b) (h : a + b < 2 ^ 32) :
    roundupdiv A a b = some ((a + b - 1) / b) := by
  unfold roundupdiv
  rw [hA.add h, bind_eq_bind, bind_some, hA.sub (by omega) h]
  exact if_neg (by omega)

theorem required_eq (h : pgno + 1 + 32512 < 2 ^ 32) :
    cfmpgGetRequiredFmDataPageCount A pgno = some (cfmpgRequired pgno) := by
  unfold cfmpgGetRequiredFmDataPageCount
  rw [hA.add (by omega), bind_eq_bind, bind_some, cDbPagesPerFlushMapPage,
    roundupdiv_eq hA (by decide) h]
  exact congrArg some (show (pgno + 1 + 32512 - 1) / 32512 = pgno / 32512 + 1 by omega)

theorem estimate_eq (hpgno : pgno ≤ pgnoSysMax) (hext : 10 * cpgDbExtension + 32512 < 2 ^ 32)
    (hpos : 0 < cfmpgWriteMax) (hwrite : cfmpgWriteMax < 2 ^ 20) :
    cfmpgEstimate A pgno cpgDbExtension (cfmpgRequired pgno) cfmpgWriteMax =
        some (cfmpgEstimated pgno cpgDbExtension cfmpgWriteMax) ∧
      cfmpgEstimated pgno cpgDbExtension cfmpgWriteMax < 2 ^ 32 := by
  have hreq := cfmpgRequired_lt hpgno
  unfold pgnoSysMax at hpgno
  have hless (pgno' : Nat) (h : pgno' < 2 ^ 32) : cfmpgRequired pgno' < 2 ^ 32 := by
    unfold cfmpgRequired
    omega
  unfold cfmpgEstimate cfmpgEstimated
  rw [hA.add (a := pgno) (b := 1) (by omega), hA.mul (a := 10) (b := cpgDbExtension) (by omega)]
  simp only [bind_eq_bind, bind_some]
  by_cases hgt : 10 * cpgDbExtension > pgno + 1
  · rw [if_pos hgt, if_pos hgt, hA.sub (by omega) (by omega), bind_some,
      required_eq hA (by omega), bind_some]
    split
    · have hle := Nat.div_mul_le_self (cfmpgRequired pgno + cfmpgWriteMax - 1) cfmpgWriteMax
      unfold roundup
      rw [roundupdiv_eq hA hpos (by omega)]
      exact ⟨hA.mul (by omega), by omega⟩
    · exact ⟨rfl, hless _ (by omega)⟩
  · rw [if_neg hgt, if_neg hgt, hA.mul (a := 2) (b := pgno + 1) (by omega), bind_some,
      hA.sub (by omega) (by omega), bind_some, required_eq hA (by omega), bind_some]
    have hsmall := hless (2 * (pgno + 1) - 1) (by omega)
    split
    · have hle := Nat.div_mul_le_self (cfmpgRequired (2 * (pgno + 1) - 1)) cfmpgWriteMax
      unfold rounddn div
      rw [if_neg (Nat.ne_of_gt hpos), bind_eq_bind, bind_some, hA.mul (by omega)]
      exact ⟨rfl, by omega⟩
    · exact ⟨rfl, hsmall⟩

theorem clamp_eq {cfmpgPreferred cfmpgReq : Nat} (hpos : 0 < cfmpgWriteMax)
    (hwrite : cfmpgWriteMax < 2 ^ 20) (hreq : cfmpgReq < 2 ^ 20) (hlt : cfmpgPreferred < 2 ^ 32) :
    cfmpgClamp A cfmpgPreferred cfmpgReq cfmpgWriteMax =
      some (cfmpgClamped cfmpgPreferred cfmpgReq cfmpgWriteMax) := by
  unfold cfmpgClamp cfmpgClamped
  split
  · rw [hA.sub (by omega) hlt, hA.mul (a := 4) (b := cfmpgWriteMax) (by omega)]
    simp only [bind_eq_bind, bind_some]
    split
    · rw [hA.add (by omega), bind_some]
      exact hA.sub (by omega) (by omega)
    · rfl
  · rw [if_neg (by omega)]

theorem preferred_eq (fPersisted : Bool) {cbWriteMax : Nat} (hpgno : pgno ≤ pgnoSysMax)
    (hwrite : 0 < cbWriteMax) (hsize : cbWriteMax + 8192 < 2 ^ 32)
    (hext : fPersisted = false ∨ 10 * cpgDbExtension + 32512 < 2 ^ 32) :
    cfmpgGetPreferredFmDataPageCount A fPersisted pgno cpgDbExtension cbWriteMax =
      some (cfmpgPreferred fPersisted pgno cpgDbExtension ((cbWriteMax + 8192 - 1) / 8192)) := by
  have hreq := cfmpgRequired_lt hpgno
  have hcb : cbFlushMapPageOnDisk = 8192 := rfl
  unfold cfmpgGetPreferredFmDataPageCount cfmpgPreferred
  rw [required_eq hA (by unfold pgnoSysMax at hpgno; omega), required_eq hA (by decide), hcb,
    roundupdiv_eq hA (by decide) hsize]
  simp only [bind_eq_bind, bind_some]
  have hpos : 0 < (cbWriteMax + 8192 - 1) / 8192 := by omega
  have hless : (cbWriteMax + 8192 - 1) / 8192 < 2 ^ 20 := by omega
  generalize (cbWriteMax + 8192 - 1) / 8192 = cfmpgWriteMax at *
  by_cases hplain : fPersisted = false ∨ cpgDbExtension = 0
  · rw [if_pos hplain, if_pos hplain, clamp_eq hA hpos hless hreq (by omega)]
    rfl
  · have hlarge := hext.resolve_left fun hfalse => hplain (.inl hfalse)
    obtain ⟨heq, hlt⟩ := estimate_eq hA hpgno hlarge hpos hless
    rw [if_neg hplain, if_neg hplain, heq, bind_some,
      clamp_eq hA hpos hless hreq hlt]
    rfl

end Exact

theorem roundupdiv_overflows (h : ¬ a + b < 2 ^ 32) : roundupdiv .checked a b = none := by
  rw [roundupdiv, show Arith.checked.add a b = none from if_neg h]
  rfl

theorem estimate_overflows {cfmpgReq : Nat} (hpgno : pgno ≤ pgnoSysMax)
    (hext : ¬ 10 * cpgDbExtension + 32512 < 2 ^ 32) :
    cfmpgEstimate .checked pgno cpgDbExtension cfmpgReq cfmpgWriteMax = none := by
  unfold pgnoSysMax at hpgno
  unfold cfmpgEstimate
  rw [exact_checked.add (a := pgno) (b := 1) (by omega)]
  simp only [bind_eq_bind, bind_some]
  by_cases hmul : 10 * cpgDbExtension < 2 ^ 32
  · rw [exact_checked.mul hmul, bind_some, if_pos (by omega),
      exact_checked.sub (by omega) hmul, bind_some, cfmpgGetRequiredFmDataPageCount,
      exact_checked.add (by omega), bind_eq_bind, bind_some,
      roundupdiv_overflows (by simp only [cDbPagesPerFlushMapPage]; omega)]
    rfl
  · rw [show Arith.checked.mul 10 cpgDbExtension = none from if_neg hmul]
    rfl

/-- The count is between what the page and what the last page requires, and no operation leaves the
range of its words, just if the two sizes are not too large. -/
theorem preferred_safe_iff (fPersisted : Bool) (pgnoReq cpgDbExtension cbWriteMax : Nat)
    (hpgno : pgnoReq ≤ pgnoSysMax) (hwrite : 0 < cbWriteMax) :
    (∃ cfmpg, cfmpgGetPreferredFmDataPageCount .checked fPersisted pgnoReq cpgDbExtension
          cbWriteMax = some cfmpg ∧
        cfmpgGetPreferredFmDataPageCount .wrapped fPersisted pgnoReq cpgDbExtension cbWriteMax =
          some cfmpg ∧
        cfmpgRequired pgnoReq ≤ cfmpg ∧ cfmpg ≤ cfmpgRequired pgnoSysMax) ↔
      cbWriteMax + 8192 < 2 ^ 32 ∧ (fPersisted = false ∨ 10 * cpgDbExtension + 32512 < 2 ^ 32) := by
  constructor
  · rintro ⟨cfmpg, hsome, -⟩
    have hcb : cbFlushMapPageOnDisk = 8192 := rfl
    unfold cfmpgGetPreferredFmDataPageCount at hsome
    rw [required_eq exact_checked (by unfold pgnoSysMax at hpgno; omega), hcb] at hsome
    by_cases hsize : cbWriteMax + 8192 < 2 ^ 32
    swap
    · rw [roundupdiv_overflows hsize] at hsome
      cases hsome
    refine ⟨hsize, ?_⟩
    by_contra hlarge
    rw [not_or] at hlarge
    rw [roundupdiv_eq exact_checked (by decide) hsize] at hsome
    simp only [bind_eq_bind, bind_some] at hsome
    rw [if_neg (not_or.mpr ⟨hlarge.1, by omega⟩), estimate_overflows hpgno hlarge.2] at hsome
    cases hsome
  · rintro ⟨hsize, hext⟩
    exact ⟨_, preferred_eq exact_checked fPersisted hpgno hwrite hsize hext,
      preferred_eq exact_wrapped fPersisted hpgno hwrite hsize hext,
      preferred_ge fPersisted hpgno (by omega), Nat.min_le_right _ _⟩

/-- An extension of 429496729 pages: ten times that and the rounding exceed a word, and no page at
all is asked for. -/
theorem large_extension_no_pages :
    cfmpgGetPreferredFmDataPageCount .wrapped true 0 429496729 393216 = some 0 ∧
      cfmpgGetRequiredFmDataPageCount .wrapped 0 = some 1 ∧
      cfmpgGetPreferredFmDataPageCount .checked true 0 429496729 393216 = none := by
  decide

theorem small_extension_safe :
    ∃ cfmpg, cfmpgGetPreferredFmDataPageCount .checked true 0 256 393216 = some cfmpg ∧
      cfmpgGetPreferredFmDataPageCount .wrapped true 0 256 393216 = some cfmpg ∧
      cfmpgRequired 0 ≤ cfmpg ∧ cfmpg ≤ cfmpgRequired pgnoSysMax :=
  (preferred_safe_iff true 0 256 393216 (by decide) (by decide)).mpr (by decide)

end EseLinux.FlushMapSize
