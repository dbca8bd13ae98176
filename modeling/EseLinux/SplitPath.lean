import Mathlib.Data.List.Basic

/-!
A path is split into its parts and the parts are joined again (`winapi_crt.cxx`).  A string is the
list of the units before its terminator, and a missing buffer counts as one of size zero.
-/

namespace EseLinux.SplitPath

open List

abbrev WString := List UInt16

inductive Errno
  | success
  | einval
  | erange
deriving DecidableEq, Repr

def fSeparator (ch : UInt16) : Bool := ch == 0x2F || ch == 0x5C

def chDot : UInt16 := 0x2E

def slashBelow (path : WString) : Nat → Nat
  | 0 => 0
  | n + 1 => if fSeparator (path.getD n 0) then n + 1 else slashBelow path n

def dotBelow (path : WString) (slash : Nat) : Nat → Option Nat
  | 0 => none
  | n + 1 => if path.getD (slash + n) 0 = chDot then some (slash + n) else dotBelow path slash n

def slashOf (path : WString) : Nat := slashBelow path path.length

def dotOf (path : WString) : Nat :=
  (dotBelow path (slashOf path) (path.length - slashOf path)).getD path.length

def dirOf (path : WString) : WString := path.take (slashOf path)

def fnameOf (path : WString) : WString := (path.take (dotOf path)).drop (slashOf path)

def extOf (path : WString) : WString := path.drop (dotOf path)

def copyWideRange (cch : Nat) (range : WString) : Errno × WString :=
  if cch = 0 then (.einval, [])
  else if range.length + 1 > cch then (.erange, [])
  else (.success, range)

/-- An optional output buffer, and the error so far. -/
def copyPart (r : Errno) (cch : Nat) (range : WString) : Errno × Option WString :=
  if cch = 0 then (r, none)
  else
    let t := copyWideRange cch range
    (if t.1 ≠ .success then t.1 else r, some t.2)

structure Parts where
  r : Errno
  wszDrive : Option WString
  wszDir : Option WString
  wszFname : Option WString
  wszExt : Option WString

def wsplitpath_s (path : WString) (cchDrive cchDir cchFname cchExt : Nat) : Parts :=
  let dir := copyPart .success cchDir (dirOf path)
  let fname := copyPart dir.1 cchFname (fnameOf path)
  let ext := copyPart fname.1 cchExt (extOf path)
  ⟨ext.1, if cchDrive = 0 then none else some [], dir.2, fname.2, ext.2⟩

def wideAppend (cap : Nat) : WString → WString → WString
  | dst, [] => dst
  | dst, ch :: src => if dst.length + 1 < cap then wideAppend cap (dst ++ [ch]) src else dst

/-- `_wmakepath_s`, with what it leaves in the buffer. -/
def wmakepath_s (cchPath : Nat) (wszDrive wszDir wszFname wszExt : Option WString) :
    Errno × WString :=
  if cchPath = 0 then (.einval, [])
  else
    let path := wideAppend cchPath [] (wszDrive.getD [])
    let path := wideAppend cchPath path (wszDir.getD [])
    let fSlash := wszFname.getD [] ≠ [] ∧ path ≠ [] ∧ ¬ fSeparator (path.getLastD 0)
    if fSlash ∧ ¬ path.length + 1 < cchPath then (.erange, path)
    else
      let path := wideAppend cchPath (if fSlash then path ++ [0x2F] else path) (wszFname.getD [])
      let fDot := wszExt.getD [] ≠ [] ∧ (wszExt.getD []).headD 0 ≠ chDot
      if fDot ∧ ¬ path.length + 1 < cchPath then (.erange, path)
      else
        (.success, wideAppend cchPath (if fDot then path ++ [chDot] else path) (wszExt.getD []))

theorem slashBelow_spec (path : WString) (n : Nat) : slashBelow path n ≤ n ∧
    (path.take (slashBelow path n) = [] ∨
      fSeparator ((path.take (slashBelow path n)).getLastD 0) = true) := by
  induction n with
  | zero => exact ⟨Nat.le_refl 0, .inl rfl⟩
  | succ n ih =>
    rw [slashBelow]
    split
    case isTrue hsep =>
      refine ⟨Nat.le_refl _, .inr ?_⟩
      rw [getD_eq_getElem?_getD] at hsep
      rw [take_add_one]
      cases hget : path[n]? with
      | none => exact absurd (hget ▸ hsep) (by decide)
      | some ch => simpa [hget] using hsep
    · exact ⟨Nat.le_succ_of_le ih.1, ih.2⟩

theorem dotBelow_spec {path : WString} {slash n dot : Nat} (h : dotBelow path slash n = some dot) :
    slash ≤ dot ∧ path.getD dot 0 = chDot := by
  induction n with
  | zero => cases h
  | succ n ih =>
    rw [dotBelow] at h
    split at h
    case isTrue hdot =>
      obtain rfl := Option.some.inj h
      exact ⟨Nat.le_add_right _ _, hdot⟩
    · exact ih h

theorem dotOf_spec (path : WString) :
    slashOf path ≤ dotOf path ∧ (extOf path = [] ∨ (extOf path).headD 0 = chDot) := by
  unfold extOf dotOf
  cases h : dotBelow path (slashOf path) (path.length - slashOf path) with
  | none => exact ⟨(slashBelow_spec path _).1, .inl (drop_length)⟩
  | some dot =>
    obtain ⟨hle, hdot⟩ := dotBelow_spec h
    refine ⟨hle, .inr ?_⟩
    rwa [Option.getD_some, headD_eq_head?_getD, head?_drop, ← getD_eq_getElem?_getD]

theorem parts_append (path : WString) : dirOf path ++ fnameOf path ++ extOf path = path := by
  have htake : dirOf path = (path.take (dotOf path)).take (slashOf path) := by
    rw [take_take, Nat.min_eq_left (dotOf_spec path).1, dirOf]
  rw [htake, fnameOf, take_append_drop, extOf, take_append_drop]

theorem wideAppend_eq (cap : Nat) (dst src : WString) :
    wideAppend cap dst src = dst ++ src.take (cap - 1 - dst.length) := by
  induction src generalizing dst with
  | nil => simp [wideAppend]
  | cons ch src ih =>
    rw [wideAppend]
    split
    case isTrue hlt =>
      obtain ⟨n, hn⟩ : ∃ n, cap - 1 - dst.length = n + 1 := ⟨cap - 2 - dst.length, by omega⟩
      rw [ih, hn, take_succ_cons, length_append, length_singleton,
        show cap - 1 - (dst.length + 1) = n by omega, append_assoc]
      rfl
    case isFalse hge => rw [show cap - 1 - dst.length = 0 by omega, take_zero, append_nil]

theorem wideAppend_take (cap : Nat) (xs src : WString) :
    wideAppend cap (xs.take (cap - 1)) src = (xs ++ src).take (cap - 1) := by
  rw [wideAppend_eq, take_append, length_take]
  congr 2
  omega

theorem wmakepath_s_eq {cap : Nat} {drive : Option WString} {dir fname ext : WString}
    (hcap : cap ≠ 0)
    (hdrive : drive.getD [] = []) (hdir : dir = [] ∨ fSeparator (dir.getLastD 0) = true)
    (hext : ext = [] ∨ ext.headD 0 = chDot) :
    wmakepath_s cap drive (some dir) (some fname) (some ext) =
      if fname ≠ [] ∧ dir.take (cap - 1) ≠ [] ∧ ¬ fSeparator ((dir.take (cap - 1)).getLastD 0) then
        (.erange, dir.take (cap - 1))
      else (.success, (dir ++ fname ++ ext).take (cap - 1)) := by
  have hfull : ¬ fSeparator ((dir.take (cap - 1)).getLastD 0) → dir.take (cap - 1) ≠ [] →
      ¬ (dir.take (cap - 1)).length + 1 < cap := by
    intro hsep hne hlt
    rw [length_take] at hlt
    rw [take_of_length_le (by omega)] at hsep hne
    exact hsep (hdir.resolve_left hne)
  have hnoDot : ¬ (ext ≠ [] ∧ ext.headD 0 ≠ chDot) := fun h => h.2 (hext.resolve_left h.1)
  have hstart := wideAppend_take cap [] dir
  simp only [take_nil, nil_append] at hstart
  simp only [wmakepath_s, if_neg hcap, hdrive, wideAppend, Option.getD_some, hstart, hnoDot,
    false_and, if_false]
  split_ifs with hrefused hslash hslash
  · rfl
  · exact absurd hrefused.1 hslash
  · exact absurd ⟨hslash, hfull hslash.2.2 hslash.2.1⟩ hrefused
  · rw [wideAppend_take, wideAppend_take]

theorem copyPart_eq {r : Errno} {cch : Nat} {range : WString} (h : range.length < cch) :
    copyPart r cch range = (r, some range) := by
  simp [copyPart, copyWideRange, Nat.ne_of_gt (Nat.zero_lt_of_lt h), Nat.not_lt.mpr h]

/-- A path comes back, or is refused if it does not fit, exactly if it fits, or there is no room at
all, or the cut is in the directory, not behind a separator, and a file name follows. -/
theorem rejoin_iff (path : WString) (cchDrive cchDir cchFname cchExt cchPath : Nat) (parts : Parts)
    (hdir : (dirOf path).length < cchDir) (hfname : (fnameOf path).length < cchFname)
    (hext : (extOf path).length < cchExt)
    (hparts : wsplitpath_s path cchDrive cchDir cchFname cchExt = parts) :
    ((path.length < cchPath →
        wmakepath_s cchPath parts.wszDrive parts.wszDir parts.wszFname parts.wszExt =
          (.success, path)) ∧
      (cchPath ≤ path.length → (wmakepath_s cchPath parts.wszDrive parts.wszDir parts.wszFname
        parts.wszExt).1 ≠ .success)) ↔
    path.length < cchPath ∨ cchPath = 0 ∨
      (fnameOf path ≠ [] ∧ (dirOf path).take (cchPath - 1) ≠ [] ∧
      ¬ fSeparator (((dirOf path).take (cchPath - 1)).getLastD 0)) := by
  have hsep : dirOf path = [] ∨ fSeparator ((dirOf path).getLastD 0) = true :=
    (slashBelow_spec path path.length).2
  subst hparts
  simp only [wsplitpath_s, copyPart_eq hdir, copyPart_eq hfname, copyPart_eq hext]
  by_cases hzero : cchPath = 0
  · simp [hzero, wmakepath_s]
  rw [wmakepath_s_eq hzero (by split <;> rfl) hsep (dotOf_spec path).2, parts_append]
  by_cases hfits : path.length < cchPath
  · have hwhole : (dirOf path).take (cchPath - 1) = dirOf path :=
      take_of_length_le (by rw [dirOf, length_take]; omega)
    rw [hwhole, if_neg fun h => h.2.2 (hsep.resolve_left h.2.1), take_of_length_le (by omega)]
    exact iff_of_true ⟨fun _ => rfl, fun hle => absurd hfits (Nat.not_lt.mpr hle)⟩ (.inl hfits)
  · split
    case isTrue hcut =>
      exact iff_of_true ⟨fun hlt => absurd hlt hfits, fun _ => nofun⟩ (.inr (.inr hcut))
    case isFalse hcut =>
      exact iff_of_false (fun h => h.2 (Nat.not_lt.mp hfits) rfl)
        (not_or.mpr ⟨hfits, not_or.mpr ⟨hzero, hcut⟩⟩)

theorem rejoin_short : wmakepath_s 3 (some []) (some []) (some [0x61]) (some [0x2E]) =
    (.success, [0x61, 0x2E]) :=
  ((rejoin_iff [0x61, 0x2E] 1 1 2 2 3 _ (by decide) (by decide) (by decide) rfl).mpr
    (.inl (by decide))).1 (by decide)

def Parts.ab : Parts := wsplitpath_s [0x61, 0x62] 3 3 3 3

/-- The path `ab` comes back as `a`. -/
theorem rejoin_cut : Parts.ab.r = .success ∧
    wmakepath_s 2 Parts.ab.wszDrive Parts.ab.wszDir Parts.ab.wszFname Parts.ab.wszExt =
      (.success, [0x61]) := by
  decide

end EseLinux.SplitPath
