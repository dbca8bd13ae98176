import Mathlib.Algebra.Group.Nat.Defs
import Mathlib.Algebra.Ring.Int.Defs
import Mathlib.Order.Nat

/-!
File times and calendar times (`winapi_time.cxx`). The C library's `gmtime_r` and `timegm` are a
parameter that carries what is assumed of them.
-/

namespace EseLinux.WinTime

structure FileTime where
  dwLowDateTime : UInt32
  dwHighDateTime : UInt32

/-- The fields of `struct tm` that are read. -/
@[ext]
structure Tm where
  year : Int
  mon : Int
  mday : Int
  hour : Int
  min : Int
  sec : Int
  wday : Int

/-- Every field is a `WORD`. -/
structure SystemTime where
  wYear : Nat
  wMonth : Nat
  wDayOfWeek : Nat
  wDay : Nat
  wHour : Nat
  wMinute : Nat
  wSecond : Nat
  wMilliseconds : Nat

/-- `timegm` undoes `gmtime_r` and does not read the day of the week. -/
structure Calendar where
  gmtime : Int → Option Tm
  timegm : Tm → Int
  timegm_gmtime : ∀ {sec utc}, gmtime sec = some utc → timegm { utc with wday := 0 } = sec
  mon_mem : ∀ {sec utc}, gmtime sec = some utc → 0 ≤ utc.mon ∧ utc.mon ≤ 11
  mday_mem : ∀ {sec utc}, gmtime sec = some utc → 1 ≤ utc.mday ∧ utc.mday ≤ 31
  hour_mem : ∀ {sec utc}, gmtime sec = some utc → 0 ≤ utc.hour ∧ utc.hour ≤ 23
  min_mem : ∀ {sec utc}, gmtime sec = some utc → 0 ≤ utc.min ∧ utc.min ≤ 59
  sec_mem : ∀ {sec utc}, gmtime sec = some utc → 0 ≤ utc.sec ∧ utc.sec ≤ 60

def filetimeFromUnixNs (sec : Int) (nsec : Nat) : Nat :=
  (((sec + 11644473600) * 10000000 + (nsec / 100 : Nat)) % 2 ^ 64).toNat

/-- The unsigned difference is read as a signed number. -/
def filetimeToUnixNs (ft : Nat) : Int × Nat :=
  (((ft / 10000000 : Nat) - 11644473600 : Int).bmod (2 ^ 64), ft % 10000000 * 100)

def packFiletime (p : FileTime) : Nat := p.dwHighDateTime.toNat <<< 32 ||| p.dwLowDateTime.toNat

def storeFiletime (ft : Nat) : FileTime := ⟨.ofNat (ft &&& 0xffffffff), .ofNat (ft >>> 32)⟩

def word (n : Int) : Nat := (n % 2 ^ 16).toNat

def tmToSystemtime (src : Tm) (ms : Nat) : SystemTime where
  wYear := word (src.year + 1900)
  wMonth := word (src.mon + 1)
  wDayOfWeek := word src.wday
  wDay := word src.mday
  wHour := word src.hour
  wMinute := word src.min
  wSecond := word src.sec
  wMilliseconds := word ms

variable (cal : Calendar)

def fileTimeToSystemTime (ft : FileTime) : Option SystemTime :=
  let (sec, nsec) := filetimeToUnixNs (packFiletime ft)
  (cal.gmtime sec).map fun utc => tmToSystemtime utc (nsec / 1000000)

/-- A time that `timegm` gives as `-1` counts as its failure. -/
def systemTimeToFileTime (st : SystemTime) : Option FileTime :=
  let sec := cal.timegm
    { year := st.wYear - 1900, mon := st.wMonth - 1, mday := st.wDay, hour := st.wHour
      min := st.wMinute, sec := st.wSecond, wday := 0 }
  if sec = -1 then none
  else some (storeFiletime (filetimeFromUnixNs sec (st.wMilliseconds * 1000000)))

theorem word_of_mem {n : Int} (hlo : 0 ≤ n) (hhi : n < 65536) : (word n : Int) = n := by
  unfold word
  omega

theorem packFiletime_eq (p : FileTime) :
    packFiletime p = p.dwHighDateTime.toNat * 2 ^ 32 + p.dwLowDateTime.toNat := by
  rw [packFiletime, ← Nat.shiftLeft_add_eq_or_of_lt p.dwLowDateTime.toNat_lt, Nat.shiftLeft_eq]

theorem storeFiletime_packFiletime (p : FileTime) : storeFiletime (packFiletime p) = p := by
  have hlow := p.dwLowDateTime.toNat_lt
  have hand : packFiletime p &&& 0xffffffff = p.dwLowDateTime.toNat := by
    rw [show 0xffffffff = 2 ^ 32 - 1 from rfl, Nat.and_two_pow_sub_one_eq_mod, packFiletime_eq]
    omega
  have hshift : packFiletime p >>> 32 = p.dwHighDateTime.toNat := by
    rw [Nat.shiftRight_eq_div_pow, packFiletime_eq]
    omega
  rw [storeFiletime, hand, hshift, UInt32.ofNat_toNat, UInt32.ofNat_toNat]

theorem filetimeToUnixNs_fst {ft : Nat} (h : ft < 2 ^ 64) :
    (filetimeToUnixNs ft).1 = (ft / 10000000 : Nat) - 11644473600 := by
  rw [filetimeToUnixNs, Int.bmod_eq_of_le_mul_two] <;> omega

theorem filetimeFromUnixNs_of_ms {ft : Nat} (h : ft < 2 ^ 64) (hms : ft % 10000 = 0) :
    filetimeFromUnixNs ((ft / 10000000 : Nat) - 11644473600)
      (word (ft % 10000000 * 100 / 1000000 : Nat) * 1000000) = ft := by
  have hword := @word_of_mem (ft % 10000000 * 100 / 1000000 : Nat) (by omega) (by omega)
  unfold filetimeFromUnixNs
  omega

theorem tm_of_systemtime {cal : Calendar} {sec : Int} {utc : Tm} (hutc : cal.gmtime sec = some utc)
    (hyear : 1601 ≤ utc.year + 1900 ∧ utc.year + 1900 ≤ 30827) (ms : Nat) :
    let st := tmToSystemtime utc ms
    (⟨st.wYear - 1900, st.wMonth - 1, st.wDay, st.wHour, st.wMinute, st.wSecond, 0⟩ : Tm) =
      { utc with wday := 0 } := by
  have hmon := cal.mon_mem hutc
  have hmday := cal.mday_mem hutc
  have hhour := cal.hour_mem hutc
  have hmin := cal.min_mem hutc
  have hsec := cal.sec_mem hutc
  ext <;> simp only [tmToSystemtime] <;> rw [word_of_mem] <;> omega

/-- A whole number of milliseconds comes back, except from the last second before 1970. -/
theorem systemTimeToFileTime_eq_iff (cal : Calendar) {ft : FileTime} {utc : Tm}
    (hms : packFiletime ft % 10000 = 0)
    (hutc : cal.gmtime (filetimeToUnixNs (packFiletime ft)).1 = some utc)
    (hyear : 1601 ≤ utc.year + 1900 ∧ utc.year + 1900 ≤ 30827) :
    (∃ st, fileTimeToSystemTime cal ft = some st ∧ systemTimeToFileTime cal st = some ft) ↔
      packFiletime ft / 10000000 ≠ 11644473599 := by
  have hlow := ft.dwLowDateTime.toNat_lt
  have hhigh := ft.dwHighDateTime.toNat_lt
  have hlt : packFiletime ft < 2 ^ 64 := by
    rw [packFiletime_eq]
    omega
  have hst : fileTimeToSystemTime cal ft =
      some (tmToSystemtime utc ((filetimeToUnixNs (packFiletime ft)).2 / 1000000)) :=
    congrArg (Option.map _) hutc
  have hback : systemTimeToFileTime cal
      (tmToSystemtime utc ((filetimeToUnixNs (packFiletime ft)).2 / 1000000)) =
        if packFiletime ft / 10000000 = 11644473599 then none else some ft := by
    unfold systemTimeToFileTime
    rw [tm_of_systemtime hutc hyear, cal.timegm_gmtime hutc, filetimeToUnixNs_fst hlt]
    refine ite_congr (by rw [eq_iff_iff]; omega) (fun _ => rfl) fun _ => congrArg some ?_
    exact (congrArg storeFiletime (filetimeFromUnixNs_of_ms hlt hms)).trans
      (storeFiletime_packFiletime ft)
  rw [hst]
  constructor
  · rintro ⟨_, ⟨⟩, h⟩ hsec
    rw [hback, if_pos hsec] at h
    cases h
  · intro hsec
    exact ⟨_, rfl, hback.trans (if_neg hsec)⟩

/-- The seconds of a date of the Gregorian calendar; its years begin with March here. -/
def gregorianSec (utc : Tm) : Int :=
  let year := utc.year + 1900 - if utc.mon < 2 then 1 else 0
  let day := 365 * year + year / 4 - year / 100 + year / 400 +
    (153 * ((utc.mon + 10) % 12) + 2) / 5 + utc.mday - 1
  (day - 719468) * 86400 + utc.hour * 3600 + utc.min * 60 + utc.sec

/-- The Gregorian calendar, with the date checked by its seconds. -/
def gregorian : Calendar where
  gmtime sec :=
    let day := sec / 86400 + 719468
    let century := min (day % 146097 / 36524) 3
    let dayOfCentury := day % 146097 - 36524 * century
    let yearOfFour := min (dayOfCentury % 1461 / 365) 3
    let dayOfYear := dayOfCentury % 1461 - 365 * yearOfFour
    let month := (5 * dayOfYear + 2) / 153
    let utc : Tm :=
      { year := day / 146097 * 400 + century * 100 + dayOfCentury / 1461 * 4 + yearOfFour +
          month / 10 - 1900
        mon := (month + 2) % 12, mday := dayOfYear - (153 * month + 2) / 5 + 1
        hour := sec / 3600 % 24, min := sec / 60 % 60, sec := sec % 60, wday := (day + 3) % 7 }
    if gregorianSec utc = sec then some utc else none
  timegm := gregorianSec
  timegm_gmtime h := by
    obtain ⟨hsec, ⟨⟩⟩ := Option.ite_none_right_eq_some.mp h
    exact hsec
  mon_mem h := by obtain ⟨-, ⟨⟩⟩ := Option.ite_none_right_eq_some.mp h; dsimp only; omega
  mday_mem h := by obtain ⟨-, ⟨⟩⟩ := Option.ite_none_right_eq_some.mp h; dsimp only; omega
  hour_mem h := by obtain ⟨-, ⟨⟩⟩ := Option.ite_none_right_eq_some.mp h; dsimp only; omega
  min_mem h := by obtain ⟨-, ⟨⟩⟩ := Option.ite_none_right_eq_some.mp h; dsimp only; omega
  sec_mem h := by obtain ⟨-, ⟨⟩⟩ := Option.ite_none_right_eq_some.mp h; dsimp only; omega

theorem epoch_fileTime_back : (∃ st, fileTimeToSystemTime gregorian (storeFiletime
    116444736000000000) = some st ∧ systemTimeToFileTime gregorian st = some (storeFiletime
    116444736000000000)) ↔ packFiletime (storeFiletime 116444736000000000) / 10000000 ≠
    11644473599 :=
  systemTimeToFileTime_eq_iff gregorian (by decide) rfl (by decide)

theorem lastSecond_fileTime_lost : ∃ st, fileTimeToSystemTime gregorian (storeFiletime
    116444735990000000) = some st ∧ st.wYear = 1969 ∧ systemTimeToFileTime gregorian st = none :=
  ⟨_, rfl, by decide, by decide⟩

end EseLinux.WinTime
