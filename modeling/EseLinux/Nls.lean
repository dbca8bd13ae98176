import Mathlib.Data.List.Basic
import Mathlib.Order.Nat

/-!
The conversion of UTF-16 to the code pages UTF-8 and 1252 (`winapi_nls.cxx`).  What is decoded does
not depend on what is stored, so the code points of the whole input come first.  The terminator that
a count of −1 includes is the last unit, at which the loop ends in any case.
-/

namespace EseLinux.Nls

open List

inductive CodePage where
  | utf8
  | ansi
  deriving DecidableEq

inductive Err where
  | insufficientBuffer
  | noUnicodeTranslation
  deriving DecidableEq

/-- A call: what it stores from the start of the buffer, and the count or the error with a zero. -/
structure Converted (α : Type) where
  stored : List α
  ret : Except Err Nat

def cp1252To16 : List Nat :=
  [0x20ac, 0x0081, 0x201a, 0x0192, 0x201e, 0x2026, 0x2020, 0x2021,
    0x02c6, 0x2030, 0x0160, 0x2039, 0x0152, 0x008d, 0x017d, 0x008f,
    0x0090, 0x2018, 0x2019, 0x201c, 0x201d, 0x2022, 0x2013, 0x2014,
    0x02dc, 0x2122, 0x0161, 0x203a, 0x0153, 0x009d, 0x017e, 0x0178]

def unicodeToCp1252 (cp : Nat) : Option Nat :=
  if cp ≤ 0x7f ∨ (0xa0 ≤ cp ∧ cp ≤ 0xff) then some cp
  else (cp1252To16.idxOf? cp).map (0x80 + ·)

def Pair (hi lo : UInt16) : Prop :=
  (0xd800 ≤ hi.toNat ∧ hi.toNat ≤ 0xdbff) ∧ 0xdc00 ≤ lo.toNat ∧ lo.toNat ≤ 0xdfff

instance (hi lo : UInt16) : Decidable (Pair hi lo) := inferInstanceAs (Decidable (_ ∧ _))

/-- What `DecodeUtf16` returns, called until the end. -/
def decodeUtf16 : List UInt16 → List Nat
  | [] => []
  | [u] => [u.toNat]
  | hi :: lo :: p =>
    if Pair hi lo then
      (0x10000 + (hi.toNat - 0xd800) <<< 10 + (lo.toNat - 0xdc00)) :: decodeUtf16 p
    else hi.toNat :: decodeUtf16 (lo :: p)

def encodeUtf8 (cp : Nat) : List UInt8 :=
  if cp < 0x80 then [.ofNat cp]
  else if cp < 0x800 then [.ofNat (0xc0 ||| cp >>> 6), .ofNat (0x80 ||| cp &&& 0x3f)]
  else if cp < 0x10000 then
    [.ofNat (0xe0 ||| cp >>> 12), .ofNat (0x80 ||| cp >>> 6 &&& 0x3f),
      .ofNat (0x80 ||| cp &&& 0x3f)]
  else
    [.ofNat (0xf0 ||| cp >>> 18), .ofNat (0x80 ||| cp >>> 12 &&& 0x3f),
      .ofNat (0x80 ||| cp >>> 6 &&& 0x3f), .ofNat (0x80 ||| cp &&& 0x3f)]

/-- The bytes of a code point; `defaultChar` is stored for one that the code page lacks. -/
def encodeOne (codePage : CodePage) (fErrOnInvalid : Bool) (defaultChar : UInt8) (cp : Nat) :
    Except Err (List UInt8) :=
  match codePage with
  | .utf8 => .ok (encodeUtf8 cp)
  | .ansi =>
    match unicodeToCp1252 cp with
    | some b => .ok [.ofNat b]
    | none => if fErrOnInvalid then .error .noUnicodeTranslation else .ok [defaultChar]

/-- The loop over the code points; a buffer of no bytes asks for the size. -/
def storeLoop (encode : Nat → Except Err (List UInt8)) (cbMultiByte : Nat) :
    Nat → List Nat → Converted UInt8
  | produced, [] => ⟨[], .ok produced⟩
  | produced, cp :: cps =>
    match encode cp with
    | .error err => ⟨[], .error err⟩
    | .ok buf =>
      if 0 < cbMultiByte ∧ cbMultiByte < produced + buf.length then
        ⟨[], .error .insufficientBuffer⟩
      else
        let rest := storeLoop encode cbMultiByte (produced + buf.length) cps
        ⟨(if 0 < cbMultiByte then buf else []) ++ rest.stored, rest.ret⟩

def defaultCharOf : Option UInt8 → UInt8
  | some c => if c ≠ 0 then c else 0x3f
  | none => 0x3f

/-- The units of `ws` are those before the terminator if there is one. -/
def wideCharToMultiByte (codePage : CodePage) (fErrOnInvalid : Bool) (lpDefaultChar : Option UInt8)
    (fNullTerminated : Bool) (ws : List UInt16) (cbMultiByte : Nat) : Converted UInt8 :=
  storeLoop (encodeOne codePage fErrOnInvalid (defaultCharOf lpDefaultChar)) cbMultiByte 0
    (decodeUtf16 (if fNullTerminated then ws ++ [0] else ws))

section Store

variable {encode : Nat → Except Err (List UInt8)} {enc : Nat → List UInt8}
  (henc : ∀ cp, encode cp = .ok (enc cp)) {cb produced : Nat} {cps : List Nat}

include henc

theorem storeLoop_fits (hfits : produced + (cps.flatMap enc).length ≤ cb) (hcb : 0 < cb) :
    storeLoop encode cb produced cps =
      ⟨cps.flatMap enc, .ok (produced + (cps.flatMap enc).length)⟩ := by
  induction cps generalizing produced with
  | nil => rfl
  | cons cp cps ih =>
    rw [flatMap_cons, length_append, ← Nat.add_assoc] at hfits
    simp only [storeLoop, henc, if_pos hcb]
    rw [if_neg (by omega), ih hfits, flatMap_cons, length_append, Nat.add_assoc]

theorem storeLoop_full (hfull : cb < produced + (cps.flatMap enc).length) (hcb : 0 < cb)
    (hproduced : produced ≤ cb) :
    (storeLoop encode cb produced cps).ret = .error .insufficientBuffer := by
  induction cps generalizing produced with
  | nil => exact absurd hfull (Nat.not_lt.mpr hproduced)
  | cons cp cps ih =>
    rw [flatMap_cons, length_append, ← Nat.add_assoc] at hfull
    simp only [storeLoop, henc]
    split
    · rfl
    · exact ih hfull (by omega)

end Store

variable {ws ws' : List UInt16}

/-- A surrogate pair lies across the seam of two strings. -/
def Seam (ws ws' : List UInt16) : Prop := ∃ hi ∈ ws.getLast?, ∃ lo ∈ ws'.head?, Pair hi lo

theorem Seam.cons {u : UInt16} (h : Seam ws ws') : Seam (u :: ws) ws' := by
  obtain ⟨hi, hlast, hseam⟩ := h
  cases ws with
  | nil => cases hlast
  | cons v ws => exact ⟨hi, getLast?_cons_cons.trans hlast, hseam⟩

theorem decodeUtf16_append (h : ¬ Seam ws ws') :
    decodeUtf16 (ws ++ ws') = decodeUtf16 ws ++ decodeUtf16 ws' := by
  fun_induction decodeUtf16 ws with
  | case1 => rfl
  | case2 u =>
    cases ws' with
    | nil => rfl
    | cons lo p =>
      rw [singleton_append, decodeUtf16, if_neg fun hpair => h ⟨u, rfl, lo, rfl, hpair⟩]
      rfl
  | case3 hi lo p hpair ih =>
    rw [cons_append, cons_append, decodeUtf16, if_pos hpair,
      ih fun hseam => h hseam.cons.cons]
    rfl
  | case4 hi lo p hpair ih =>
    rw [cons_append, cons_append, decodeUtf16, if_neg hpair, ← cons_append,
      ih fun hseam => h hseam.cons]
    rfl

theorem decodeUtf16_low {lo : UInt16} (h : 0xdc00 ≤ lo.toNat) (p : List UInt16) :
    decodeUtf16 (lo :: p) = lo.toNat :: decodeUtf16 p := by
  cases p with
  | nil => rfl
  | cons u p => rw [decodeUtf16, if_neg fun hpair => by have := hpair.1.2; omega]

theorem length_decodeUtf16_seam (h : Seam ws ws') :
    (decodeUtf16 (ws ++ ws')).length < (decodeUtf16 ws).length + (decodeUtf16 ws').length := by
  fun_induction decodeUtf16 ws with
  | case1 =>
    obtain ⟨hi, ⟨⟩, -⟩ := h
  | case2 u =>
    obtain ⟨_, ⟨⟩, lo, hlo, hpair : Pair u lo⟩ := h
    obtain ⟨p, rfl⟩ := head?_eq_some_iff.mp hlo
    rw [singleton_append, decodeUtf16, if_pos hpair, decodeUtf16_low hpair.2.1]
    simp
  | case3 hi lo p hpair ih =>
    rw [cons_append, cons_append, decodeUtf16, if_pos hpair, length_cons,
      length_cons, Nat.add_right_comm]
    refine Nat.succ_lt_succ (ih ?_)
    cases p with
    | nil =>
      -- the second half of a pair is not the first of another
      obtain ⟨_, ⟨⟩, next, -, hnext : Pair lo next⟩ := h
      exact absurd hpair.2.1 (Nat.not_le.mpr (Nat.lt_succ_of_le hnext.1.2))
    | cons u p => rwa [Seam, getLast?_cons_cons, getLast?_cons_cons] at h
  | case4 hi lo p hpair ih =>
    rw [cons_append, cons_append, decodeUtf16, if_neg hpair, length_cons,
      length_cons, Nat.add_right_comm]
    exact Nat.succ_lt_succ (ih h)

end EseLinux.Nls
