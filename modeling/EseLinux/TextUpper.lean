import EseLinux.ByteMemory
import Mathlib.Data.UInt

/-!
Upper-case text normalization (`norm_posix.cxx`).  A normalized text is the upper-case text in
big-endian units and a zero unit; the case mapping is a function of the text and the locale.
-/

namespace EseLinux.TextUpper

open ByteMemory

inductive Err
  | success
  | wrnFLDKeyTooBig
  | errInvalidParameter
  | errInvalidLanguageId
  | errUnicodeTranslationFail
  | errOutOfMemory
deriving DecidableEq, Repr

structure NormLocaleVer where
  wszLocaleName : List UInt16
  dwNormalizationFlags : UInt32

def lcmapUppercase : UInt32 := 0x200

def lcmapSortkey : UInt32 := 0x400

/-- What a call returns, with the output buffer and `*pcbSeg` after it. -/
structure Out where
  err : Err
  rgbSeg : Memory
  cbSeg : Int

def Out.reported (out : Out) : List UInt8 := slice out.rgbSeg 0 out.cbSeg.toNat

structure Env where
  /-- `u_strToUpper`, whose lengths are of type `int32_t`; it may fail. -/
  strToUpper : List UInt16 → List UInt16 → Option (List UInt16)
  length_lt : ∀ {src locale upper}, strToUpper src locale = some upper → upper.length < 2 ^ 31
  /-- `PvOSMemoryHeapAlloc` finds memory for the temporary buffer. -/
  fAllocates : Bool
  errNORMMapStringSortKey : Out

/-- A name with a unit that is not ASCII gives the empty string. -/
def localeToAscii (wszLocale : List UInt16) : List UInt16 :=
  if ∃ ch ∈ wszLocale, 0x80 ≤ ch then [] else wszLocale

def normalized (upper : List UInt16) : List UInt8 :=
  upper.flatMap (fun (ch : UInt16) => [(ch >>> 8).toUInt8, ch.toUInt8]) ++ [0, 0]

def castInt (cb : Nat) : Int := (cb : Int).bmod (2 ^ 32)

def errNORMMapStringUppercase (env : Env) (nlv : NormLocaleVer) (src : List UInt16)
    (rgbSeg : Memory) (cbMax : Int) : Out :=
  let locale := localeToAscii nlv.wszLocaleName
  if locale = [] ∧ nlv.wszLocaleName ≠ [] then ⟨.errInvalidLanguageId, rgbSeg, 0⟩
  else match env.strToUpper src locale with
    | none => ⟨.errUnicodeTranslationFail, rgbSeg, 0⟩
    | some upper =>
      let cbUpperWithNul := upper.length * 2 + 2
      if castInt cbUpperWithNul > cbMax then ⟨.wrnFLDKeyTooBig, rgbSeg, cbMax⟩
      else if !env.fAllocates then ⟨.errOutOfMemory, rgbSeg, 0⟩
      else ⟨.success, store rgbSeg 0 (normalized upper), castInt cbUpperWithNul⟩

def text (pbColumn : Nat → UInt16) (cbColumn : Int) : List UInt16 :=
  (List.range (cbColumn / 2).toNat).map pbColumn

/-- `fNull` if a pointer is null. -/
def errNORMMapString (env : Env) (fNull : Bool) (nlv : NormLocaleVer) (pbColumn : Nat → UInt16)
    (cbColumn : Int) (rgbSeg : Memory) (cbMax : Int) : Out :=
  if fNull then ⟨.errInvalidParameter, rgbSeg, 0⟩
  else if cbColumn ≤ 0 ∨ cbColumn % 2 ≠ 0 then ⟨.errInvalidParameter, rgbSeg, 0⟩
  else if nlv.dwNormalizationFlags = lcmapUppercase then
    errNORMMapStringUppercase env nlv (text pbColumn cbColumn) rgbSeg cbMax
  else if nlv.dwNormalizationFlags &&& lcmapSortkey ≠ 0 then env.errNORMMapStringSortKey
  else ⟨.errInvalidParameter, rgbSeg, 0⟩

theorem length_normalized (upper : List UInt16) :
    (normalized upper).length = upper.length * 2 + 2 := by
  simp [normalized]

section

variable {env : Env} {fNull : Bool} {nlv : NormLocaleVer} {pbColumn : Nat → UInt16} {cbColumn : Int}
  {rgbSeg : Memory} {cbMax : Int} {upper : List UInt16} {out : Out}

theorem errNORMMapString_cases (hflags : nlv.dwNormalizationFlags = lcmapUppercase)
    (hupper : env.strToUpper (text pbColumn cbColumn) (localeToAscii nlv.wszLocaleName) =
      some upper)
    (h : errNORMMapString env fNull nlv pbColumn cbColumn rgbSeg cbMax = out)
    (herr : out.err = .success ∨ out.err = .wrnFLDKeyTooBig) :
    out = if cbMax < castInt (normalized upper).length then ⟨.wrnFLDKeyTooBig, rgbSeg, cbMax⟩
      else ⟨.success, store rgbSeg 0 (normalized upper), castInt (normalized upper).length⟩ := by
  simp only [errNORMMapString, errNORMMapStringUppercase, if_pos hflags, hupper] at h
  rw [length_normalized]
  subst h
  split_ifs at herr ⊢ <;> first | rfl | simp at herr

theorem castInt_of_lt {cb : Nat} (h : cb < 2 ^ 31) : castInt cb = cb := by
  unfold castInt
  rw [Int.bmod_def]
  omega

theorem castInt_nonpos {cb : Nat} (h : 2 ^ 31 ≤ cb) (hle : cb ≤ 2 ^ 32) : castInt cb ≤ 0 := by
  unfold castInt
  rw [Int.bmod_def]
  omega

/-- The bytes a call reports are the first ones of the normalized text, and the warning is given
exactly if some are missing, exactly if the buffer already holds them or there is room for the whole
text. -/
theorem reported_iff (hflags : nlv.dwNormalizationFlags = lcmapUppercase)
    (hupper : env.strToUpper (text pbColumn cbColumn) (localeToAscii nlv.wszLocaleName) =
      some upper)
    (h : errNORMMapString env fNull nlv pbColumn cbColumn rgbSeg cbMax = out)
    (herr : out.err = .success ∨ out.err = .wrnFLDKeyTooBig) :
    (out.reported <+: normalized upper ∧
      (out.err = .wrnFLDKeyTooBig ↔ out.reported.length < (normalized upper).length)) ↔
    if cbMax < castInt (normalized upper).length then
      slice rgbSeg 0 cbMax.toNat <+: normalized upper
    else (normalized upper).length < 2 ^ 31 := by
  have hlt := env.length_lt hupper
  have hlen := length_normalized upper
  rw [errNORMMapString_cases hflags hupper h herr]
  split
  case isTrue hbig =>
    have hdrop : cbMax.toNat < (normalized upper).length := by
      by_cases hsmall : (normalized upper).length < 2 ^ 31
      · rw [castInt_of_lt hsmall] at hbig
        omega
      · have := castInt_nonpos (not_lt.mp hsmall) (by omega)
        omega
    simp [Out.reported, hdrop]
  case isFalse hfits =>
    rw [Out.reported]
    by_cases hsmall : (normalized upper).length < 2 ^ 31
    · rw [castInt_of_lt hsmall, Int.toNat_natCast, slice_store]
      simpa using hsmall
    · have hneg := castInt_nonpos (not_lt.mp hsmall) (by omega)
      rw [Int.toNat_of_nonpos hneg, slice_zero]
      simp [hlen]
      omega

end

def Env.letterA : Env :=
  ⟨fun _ _ => some [0x41], by rintro _ _ _ ⟨⟩; decide, true, ⟨.success, 0, 0⟩⟩

theorem letterA_reported :
    (errNORMMapString .letterA false ⟨[], lcmapUppercase⟩ (fun _ => 0x61) 2 0 4).reported <+:
      normalized [0x41] :=
  ((reported_iff rfl rfl rfl (.inl (by decide))).mpr (by decide)).1

/-- One unit too little: two bytes that were never written are reported. -/
theorem letterA_not_prefix :
    (errNORMMapString .letterA false ⟨[], lcmapUppercase⟩ (fun _ => 0x61) 2 (fun _ => 0xFF) 2).err =
      .wrnFLDKeyTooBig ∧
    ¬ (errNORMMapString .letterA false ⟨[], lcmapUppercase⟩ (fun _ => 0x61) 2 (fun _ => 0xFF)
      2).reported <+: normalized [0x41] := by
  decide

end EseLinux.TextUpper
