import EseLinux.ByteMemory
import EseLinux.OrderCode
import Mathlib.Data.Int.Order.Basic

/-!
Comparison of keys in two parts.  A key is a prefix and a suffix somewhere in memory, and two keys
need not be split at the same place; each function returns what it would for the bytes in one
piece.  Sizes are sums of a few lengths of the type `INT`, which do not overflow.
-/

namespace EseLinux.KeyCompare

open ByteMemory OrderCode List

structure Data where
  pv : Nat
  cb : Nat
deriving DecidableEq, Repr

structure Key where
  keyPrefix : Data
  suffix : Data
deriving DecidableEq, Repr

/-- What `KEYDATAFLAGS` and `BOOKMARK` have in common. -/
structure KeyData where
  key : Key
  data : Data
deriving DecidableEq, Repr

def Data.null : Data := ⟨0, 0⟩

def Data.fNull (data : Data) : Bool := decide (data.cb = 0)

def Key.cb (key : Key) : Nat := key.keyPrefix.cb + key.suffix.cb

def Key.fNull (key : Key) : Bool := key.keyPrefix.fNull && key.suffix.fNull

def Key.advance (key : Key) (cb : Nat) : Key :=
  if cb < key.keyPrefix.cb then
    { key with keyPrefix := ⟨key.keyPrefix.pv + cb, key.keyPrefix.cb - cb⟩ }
  else
    ⟨.null, ⟨key.suffix.pv + (cb - key.keyPrefix.cb), key.suffix.cb - (cb - key.keyPrefix.cb)⟩⟩

/-- The C library's `memcmp`, of which only the sign of the result is known. -/
structure Memcmp where
  memcmp : Memory → Nat → Nat → Nat → Int
  hsign : ∀ m pb1 pb2 cb, compare (memcmp m pb1 pb2 cb) 0 =
    compare (slice m pb1 cb) (slice m pb2 cb)

/-- A `memcmp` that returns nothing but signs. -/
def signMemcmp : Memcmp where
  memcmp m pb1 pb2 cb :=
    match compare (slice m pb1 cb) (slice m pb2 cb) with
    | .lt => -1
    | .eq => 0
    | .gt => 1
  hsign m pb1 pb2 cb := by
    cases compare (slice m pb1 cb) (slice m pb2 cb) <;> rfl

section Functions

variable (mc : Memcmp) (m : Memory)

def cmpData (data1 data2 : Data) : Int :=
  let db : Int := data1.cb - data2.cb
  let cmp := mc.memcmp m data1.pv data2.pv (if db < 0 then data1.cb else data2.cb)
  if cmp = 0 then db else cmp

def cmpKeyShortest (key1 key2 : Key) : Int :=
  let fReversed := !decide (key1.keyPrefix.cb < key2.keyPrefix.cb)
  let keySmallestPrefix := if fReversed then key2 else key1
  let keyLargestPrefix := if fReversed then key1 else key2
  let pb1 := keySmallestPrefix.keyPrefix.pv
  let pb2 := keyLargestPrefix.keyPrefix.pv
  let cbCompare := keySmallestPrefix.keyPrefix.cb
  -- equal pointers need no comparison
  let cmp := if pb1 = pb2 then 0 else mc.memcmp m pb1 pb2 cbCompare
  let cmp :=
    if cmp = 0 then
      let pb1 := keySmallestPrefix.suffix.pv
      let pb2 := pb2 + cbCompare
      let cbCompare := min (keyLargestPrefix.keyPrefix.cb - cbCompare) keySmallestPrefix.suffix.cb
      let cmp := mc.memcmp m pb1 pb2 cbCompare
      if cmp = 0 then
        mc.memcmp m (pb1 + cbCompare) keyLargestPrefix.suffix.pv
          (min (keySmallestPrefix.suffix.cb - cbCompare) keyLargestPrefix.suffix.cb)
      else cmp
    else cmp
  if fReversed then -cmp else cmp

def cmpKey (key1 key2 : Key) : Int :=
  let cmp := cmpKeyShortest mc m key1 key2
  if cmp = 0 then (key1.cb : Int) - key2.cb else cmp

def fKeysEqual (key1 key2 : Key) : Bool :=
  if key1.cb = key2.cb then decide (cmpKeyShortest mc m key1 key2 = 0) else false

def cmpKeyData (kd1 kd2 : KeyData) : Int :=
  let cmp := cmpKey mc m kd1.key kd2.key
  if cmp = 0 then cmpData mc m kd1.data kd2.data else cmp

def cmpKeyWithKeyData (key : Key) (keydata : KeyData) : Int :=
  let keySegment1 := keydata.key
  let keySegment2 : Key := ⟨.null, keydata.data⟩
  let cmp := cmpKeyShortest mc m key keySegment1
  let cmp :=
    if cmp = 0 ∧ key.cb > keySegment1.cb then
      cmpKeyShortest mc m (key.advance keySegment1.cb) keySegment2
    else cmp
  if cmp = 0 then (key.cb : Int) - (keydata.key.cb + keydata.data.cb) else cmp

end Functions

/-- The loop of `CbCommonKey` with `cbRem` bytes left to compare. -/
def cbCommonKeyFrom (m : Memory) (key1 key2 : Key) : Nat → Nat → Nat → Nat → Nat
  | 0, ib, _, _ => ib
  | cbRem + 1, ib, pb1, pb2 =>
    let pb1 := if key1.keyPrefix.cb = ib then key1.suffix.pv else pb1
    let pb2 := if key2.keyPrefix.cb = ib then key2.suffix.pv else pb2
    if m pb1 ≠ m pb2 then ib else cbCommonKeyFrom m key1 key2 cbRem (ib + 1) (pb1 + 1) (pb2 + 1)

def cbCommonKey (m : Memory) (key1 key2 : Key) : Nat :=
  let cbMax := min key1.cb key2.cb
  let pb1 := key1.keyPrefix.pv
  let pb2 := key2.keyPrefix.pv
  let ib := if pb1 = pb2 then min key1.keyPrefix.cb key2.keyPrefix.cb else 0
  cbCommonKeyFrom m key1 key2 (cbMax - ib) ib (pb1 + ib) (pb2 + ib)

def Data.bytes (m : Memory) (data : Data) : List UInt8 := slice m data.pv data.cb

def Key.bytes (m : Memory) (key : Key) : List UInt8 := key.keyPrefix.bytes m ++ key.suffix.bytes m

def commonLength {α : Type*} [DecidableEq α] : List α → List α → Nat
  | x :: xs, y :: ys => if x = y then commonLength xs ys + 1 else 0
  | _, _ => 0

variable {m : Memory}

@[simp] theorem Data.bytes_length (data : Data) : (data.bytes m).length = data.cb :=
  slice_length _ _ _

@[simp] theorem Data.bytes_null : Data.null.bytes m = [] := rfl

@[simp] theorem Key.bytes_length (key : Key) : (key.bytes m).length = key.cb := by
  simp [Key.bytes, Key.cb]

theorem Key.bytes_advance (key : Key) {cb : Nat} (hle : cb ≤ key.cb) :
    (key.advance cb).bytes m = (key.bytes m).drop cb := by
  rw [Key.advance]
  split
  case isTrue hlt =>
    simp only [Key.bytes, Data.bytes]
    rw [drop_append_of_le_length (by simpa using hlt.le), drop_slice _ (hlt.le)]
  case isFalse hge =>
    have hsuffix : cb - key.keyPrefix.cb ≤ key.suffix.cb := by
      rw [Key.cb] at hle
      omega
    rw [Key.bytes, Key.bytes, Data.bytes_null, nil_append, drop_append,
      drop_of_length_le (by simpa using Nat.le_of_not_lt hge), nil_append,
      Data.bytes_length, Data.bytes, Data.bytes, drop_slice _ hsuffix]

theorem Key.bytes_take (key : Key) (n : Nat) :
    (key.bytes m).take n = slice m key.keyPrefix.pv (min n key.keyPrefix.cb) ++
      slice m key.suffix.pv (min (n - key.keyPrefix.cb) key.suffix.cb) := by
  have htake (a cb k : Nat) : (slice m a cb).take k = slice m a (min k cb) := by
    rw [← take_slice m (min_le_right k cb), take_eq_take_iff, slice_length]
    omega
  rw [Key.bytes, take_append, Data.bytes_length, Data.bytes, Data.bytes, htake, htake]

theorem compare_ite_zero (x y : Int) :
    compare (if x = 0 then y else x) 0 = (compare x 0).then (compare y 0) := by
  by_cases hx : x = 0
  · rw [if_pos hx, compare_eq_iff_eq.mpr hx, Ordering.eq_then]
  · rw [if_neg hx]
    cases hcmp : compare x 0 with
    | eq => exact absurd (compare_eq_iff_eq.mp hcmp) hx
    | lt => rfl
    | gt => rfl

theorem compare_neg_zero (x : Int) : compare (-x) 0 = (compare x 0).swap := by
  rcases lt_trichotomy x 0 with hx | hx | hx
  · rw [compare_lt_iff_lt.mpr hx, compare_gt_iff_gt.mpr (Int.neg_pos.mpr hx)]
    rfl
  · rw [hx]
    rfl
  · rw [compare_gt_iff_gt.mpr hx, compare_lt_iff_lt.mpr (Int.neg_neg_of_pos hx)]
    rfl

theorem compare_sub_zero (a b : Nat) : compare ((a : Int) - b) 0 = compare a b := by
  rcases lt_trichotomy a b with h | h | h
  · rw [compare_lt_iff_lt.mpr h, compare_lt_iff_lt.mpr (by omega)]
  · rw [compare_eq_iff_eq.mpr h, compare_eq_iff_eq.mpr (by omega)]
  · rw [compare_gt_iff_gt.mpr h, compare_gt_iff_gt.mpr (by omega)]

section Comparisons

variable (mc : Memcmp)

theorem cmpData_sign (data1 data2 : Data) :
    compare (cmpData mc m data1 data2) 0 = compare (data1.bytes m) (data2.bytes m) := by
  have hmin : (if (data1.cb : Int) - data2.cb < 0 then data1.cb else data2.cb) =
      min data1.cb data2.cb := by
    split <;> omega
  rw [cmpData, hmin, compare_ite_zero, mc.hsign, compare_sub_zero,
    compare_eq_take_then (data1.bytes m), Data.bytes_length, Data.bytes_length, Data.bytes,
    Data.bytes, take_slice _ (min_le_left _ _), take_slice _ (min_le_right _ _)]

/-- Three comparisons, one for each stretch on which neither key changes from its prefix to its
suffix. -/
def cmpStretches (m : Memory) (keyS keyL : Key) : Int :=
  let cb := min (keyL.keyPrefix.cb - keyS.keyPrefix.cb) keyS.suffix.cb
  let cmp1 := if keyS.keyPrefix.pv = keyL.keyPrefix.pv then 0 else
    mc.memcmp m keyS.keyPrefix.pv keyL.keyPrefix.pv keyS.keyPrefix.cb
  let cmp2 := mc.memcmp m keyS.suffix.pv (keyL.keyPrefix.pv + keyS.keyPrefix.cb) cb
  let cmp3 := mc.memcmp m (keyS.suffix.pv + cb) keyL.suffix.pv
    (min (keyS.suffix.cb - cb) keyL.suffix.cb)
  if cmp1 = 0 then if cmp2 = 0 then cmp3 else cmp2 else cmp1

variable (key1 key2 : Key)

theorem cmpKeyShortest_eq : cmpKeyShortest mc m key1 key2 =
      if key1.keyPrefix.cb < key2.keyPrefix.cb then cmpStretches mc m key1 key2
      else -cmpStretches mc m key2 key1 := by
  by_cases hlt : key1.keyPrefix.cb < key2.keyPrefix.cb
  · simp [cmpKeyShortest, cmpStretches, hlt]
  · simp [cmpKeyShortest, cmpStretches, hlt]

theorem cmpStretches_sign {keyS keyL : Key} (hle : keyS.keyPrefix.cb ≤ keyL.keyPrefix.cb) :
    compare (cmpStretches mc m keyS keyL) 0 = compare ((keyS.bytes m).take (min keyS.cb keyL.cb))
        ((keyL.bytes m).take (min keyS.cb keyL.cb)) := by
  have hfirst : compare (if keyS.keyPrefix.pv = keyL.keyPrefix.pv then 0 else
        mc.memcmp m keyS.keyPrefix.pv keyL.keyPrefix.pv keyS.keyPrefix.cb) 0 =
      compare (slice m keyS.keyPrefix.pv keyS.keyPrefix.cb)
        (slice m keyL.keyPrefix.pv keyS.keyPrefix.cb) := by
    by_cases hpv : keyS.keyPrefix.pv = keyL.keyPrefix.pv
    · rw [if_pos hpv, hpv, Std.ReflOrd.compare_self, Std.ReflOrd.compare_self]
    · rw [if_neg hpv, mc.hsign]
  rw [cmpStretches, compare_ite_zero, compare_ite_zero, hfirst, mc.hsign, mc.hsign,
    Key.bytes_take, Key.bytes_take]
  generalize hcb : min (keyL.keyPrefix.cb - keyS.keyPrefix.cb) keyS.suffix.cb = cb
  generalize hcb' : min (keyS.suffix.cb - cb) keyL.suffix.cb = cb'
  -- the second stretch ends where a key ends or the longer prefix does
  have hS : min (min keyS.cb keyL.cb) keyS.keyPrefix.cb = keyS.keyPrefix.cb := by
    simp only [Key.cb]
    omega
  have hS' : min (min keyS.cb keyL.cb - keyS.keyPrefix.cb) keyS.suffix.cb = cb + cb' := by
    simp only [Key.cb]
    omega
  have hL : min (min keyS.cb keyL.cb) keyL.keyPrefix.cb = keyS.keyPrefix.cb + cb := by
    simp only [Key.cb]
    omega
  have hL' : min (min keyS.cb keyL.cb - keyL.keyPrefix.cb) keyL.suffix.cb = cb' := by
    simp only [Key.cb]
    omega
  rw [hS, hS', hL, hL', ← slice_append, ← slice_append, append_assoc,
    compare_append (by simp), compare_append (by simp)]

theorem cmpKeyShortest_sign : compare (cmpKeyShortest mc m key1 key2) 0 =
      compare ((key1.bytes m).take (min key1.cb key2.cb))
        ((key2.bytes m).take (min key1.cb key2.cb)) := by
  rw [cmpKeyShortest_eq]
  by_cases hlt : key1.keyPrefix.cb < key2.keyPrefix.cb
  · rw [if_pos hlt, cmpStretches_sign mc (hlt.le)]
  · rw [if_neg hlt, compare_neg_zero, cmpStretches_sign mc (Nat.le_of_not_lt hlt),
      min_comm, ← Std.OrientedOrd.eq_swap]

theorem cmpKey_sign :
    compare (cmpKey mc m key1 key2) 0 = compare (key1.bytes m) (key2.bytes m) := by
  rw [cmpKey, compare_ite_zero, cmpKeyShortest_sign, compare_sub_zero,
    compare_eq_take_then (key1.bytes m), Key.bytes_length, Key.bytes_length]

theorem cmpKeyData_sign (kd1 kd2 : KeyData) :
    compare (cmpKeyData mc m kd1 kd2) 0 = (compare (kd1.key.bytes m) (kd2.key.bytes m)).then
      (compare (kd1.data.bytes m) (kd2.data.bytes m)) := by
  rw [cmpKeyData, compare_ite_zero, cmpKey_sign, cmpData_sign]

theorem fKeysEqual_iff : fKeysEqual mc m key1 key2 = true ↔ key1.bytes m = key2.bytes m := by
  rw [fKeysEqual]
  split
  case isTrue hcb =>
    rw [decide_eq_true_eq, ← compare_eq_iff_eq, cmpKeyShortest_sign, hcb, min_self,
      take_of_length_le (by simp [hcb]), take_of_length_le (by simp)]
    exact Std.LawfulEqOrd.compare_eq_iff_eq
  case isFalse hcb =>
    refine ⟨fun h => by simp at h, fun h => absurd ?_ hcb⟩
    simpa using congrArg length h

theorem cmpKeyWithKeyData_sign (key : Key) (keydata : KeyData) :
    compare (cmpKeyWithKeyData mc m key keydata) 0 =
      compare (key.bytes m) (keydata.key.bytes m ++ keydata.data.bytes m) := by
  rw [cmpKeyWithKeyData, compare_ite_zero]
  by_cases hcb : key.cb > keydata.key.cb
  · -- the first comparison uses up the key of the node, the second goes on in its data
    have hif (x y : Int) : (if x = 0 ∧ key.cb > keydata.key.cb then y else x) =
        if x = 0 then y else x := by
      simp [hcb]
    have hlength : compare ((key.cb : Int) - (keydata.key.cb + keydata.data.cb)) 0 =
        compare ((key.bytes m).drop keydata.key.cb).length (keydata.data.bytes m).length := by
      rw [← compare_sub_zero, length_drop, Key.bytes_length, Data.bytes_length]
      congr 1
      omega
    have hadvance : (key.advance keydata.key.cb).cb = key.cb - keydata.key.cb := by
      rw [← Key.bytes_length (m := m), Key.bytes_advance key (hcb.le), length_drop,
        Key.bytes_length]
    have hsegment : (Key.mk .null keydata.data).bytes m = keydata.data.bytes m := rfl
    have hsize : (Key.mk .null keydata.data).cb = keydata.data.cb := zero_add _
    rw [hif, compare_ite_zero, cmpKeyShortest_sign, cmpKeyShortest_sign, hlength,
      Key.bytes_advance key (hcb.le), hsegment, hadvance, hsize,
      min_eq_right (hcb.le), Ordering.then_assoc]
    have hrest := compare_eq_take_then ((key.bytes m).drop keydata.key.cb) (keydata.data.bytes m)
    rw [length_drop, Key.bytes_length, Data.bytes_length] at hrest
    have hfirst : (keydata.key.bytes m).take keydata.key.cb = keydata.key.bytes m :=
      take_of_length_le (by simp)
    rw [length_drop, Key.bytes_length, Data.bytes_length, ← hrest, hfirst, ← compare_append,
      take_append_drop]
    simp [hcb.le]
  · have hle := Nat.le_of_not_lt hcb
    have hlength : compare ((key.cb : Int) - (keydata.key.cb + keydata.data.cb)) 0 =
        compare (key.bytes m).length (keydata.key.bytes m ++ keydata.data.bytes m).length := by
      rw [← compare_sub_zero, length_append, Key.bytes_length, Key.bytes_length,
        Data.bytes_length]
      congr 1
    rw [if_neg (fun h => hcb h.2), cmpKeyShortest_sign, hlength,
      compare_eq_take_then (key.bytes m), length_append, Key.bytes_length, Key.bytes_length,
      Data.bytes_length, min_eq_left hle, min_eq_left (Nat.le_add_right_of_le hle),
      take_append_of_le_length (by simpa using hle)]

section Words

variable {α : Type*} [DecidableEq α]

theorem commonLength_nil_left (ys : List α) : commonLength [] ys = 0 := rfl

theorem commonLength_nil_right (xs : List α) : commonLength xs [] = 0 := by
  cases xs <;> rfl

theorem commonLength_append (xs ys ys' : List α) :
    commonLength (xs ++ ys) (xs ++ ys') = xs.length + commonLength ys ys' := by
  induction xs with
  | nil => simp
  | cons x xs ih =>
    rw [cons_append, cons_append, commonLength, if_pos rfl, ih, length_cons]
    omega

end Words

/-- The pointer the loop holds at offset `ib`, before it looks whether the prefix ends there. -/
def Key.PointsTo (key : Key) (ib pb : Nat) : Prop :=
  (ib < key.keyPrefix.cb → pb = key.keyPrefix.pv + ib) ∧
    (key.keyPrefix.cb < ib → pb = key.suffix.pv + (ib - key.keyPrefix.cb))

variable {ib : Nat}

theorem Key.drop_of_pointsTo {key : Key} {pb : Nat} (hpb : key.PointsTo ib pb) (hlt : ib < key.cb) :
    (key.bytes m).drop ib = m (if key.keyPrefix.cb = ib then key.suffix.pv else pb) ::
      (key.bytes m).drop (ib + 1) := by
  obtain ⟨hin, hpast⟩ := hpb
  rw [drop_eq_getElem_cons (by simpa using hlt)]
  congr 1
  simp only [Key.bytes, Data.bytes, getElem_append, slice_length, slice_getElem]
  split
  case isTrue hlt' => rw [if_neg (ne_of_gt hlt'), hin hlt']
  case isFalse hge =>
    by_cases heq : key.keyPrefix.cb = ib
    · rw [if_pos heq, heq, Nat.sub_self, add_zero]
    · rw [if_neg heq, hpast (by omega)]

theorem Key.PointsTo.next {key : Key} {pb : Nat} (hpb : key.PointsTo ib pb) :
    key.PointsTo (ib + 1) ((if key.keyPrefix.cb = ib then key.suffix.pv else pb) + 1) := by
  obtain ⟨hin, hpast⟩ := hpb
  constructor
  · intro hlt
    rw [if_neg (by omega), hin (by omega)]
    omega
  · intro hlt
    split
    · omega
    · rw [hpast (by omega)]
      omega

theorem cbCommonKeyFrom_eq (cbRem : Nat) {pb1 pb2 : Nat}
    (hpb1 : key1.PointsTo ib pb1) (hpb2 : key2.PointsTo ib pb2)
    (hrem : ib + cbRem = min key1.cb key2.cb) : cbCommonKeyFrom m key1 key2 cbRem ib pb1 pb2 =
      ib + commonLength ((key1.bytes m).drop ib) ((key2.bytes m).drop ib) := by
  induction cbRem generalizing ib pb1 pb2 with
  | zero =>
    rw [cbCommonKeyFrom]
    by_cases hle : key1.cb ≤ key2.cb
    · have hend : (key1.bytes m).drop ib = [] := by
        rw [drop_eq_nil_iff, Key.bytes_length]
        omega
      rw [hend, commonLength_nil_left, add_zero]
    · have hend : (key2.bytes m).drop ib = [] := by
        rw [drop_eq_nil_iff, Key.bytes_length]
        omega
      rw [hend, commonLength_nil_right, add_zero]
  | succ cbRem ih =>
    have hnext := ih hpb1.next hpb2.next (by omega)
    rw [cbCommonKeyFrom, Key.drop_of_pointsTo hpb1 (by omega),
      Key.drop_of_pointsTo hpb2 (by omega), commonLength]
    generalize (if key1.keyPrefix.cb = ib then key1.suffix.pv else pb1) = pb1' at *
    generalize (if key2.keyPrefix.cb = ib then key2.suffix.pv else pb2) = pb2' at *
    by_cases heq : m pb1' = m pb2'
    · rw [if_neg (not_not.mpr heq), if_pos heq, hnext]
      omega
    · rw [if_pos heq, if_neg heq, add_zero]

theorem cbCommonKey_eq : cbCommonKey m key1 key2 = commonLength (key1.bytes m) (key2.bytes m) := by
  generalize hib : (if key1.keyPrefix.pv = key2.keyPrefix.pv then
    min key1.keyPrefix.cb key2.keyPrefix.cb else 0) = ib
  have hle1 : ib ≤ key1.keyPrefix.cb := by
    rw [← hib]
    split <;> omega
  have hle2 : ib ≤ key2.keyPrefix.cb := by
    rw [← hib]
    split <;> omega
  have hle : ib ≤ min key1.cb key2.cb := by
    simp only [Key.cb]
    omega
  -- what is skipped is one stretch of memory, read through both keys
  have hsame : (key1.bytes m).take ib = (key2.bytes m).take ib := by
    rw [Key.bytes_take, Key.bytes_take, min_eq_left hle1, min_eq_left hle2,
      Nat.sub_eq_zero_of_le hle1, Nat.sub_eq_zero_of_le hle2, Nat.zero_min, Nat.zero_min]
    by_cases hpv : key1.keyPrefix.pv = key2.keyPrefix.pv
    · rw [hpv, slice_zero, slice_zero]
    · rw [if_neg hpv] at hib
      simp [← hib]
  have hpoints (key : Key) (hle : ib ≤ key.keyPrefix.cb) :
      key.PointsTo ib (key.keyPrefix.pv + ib) := ⟨fun _ => rfl, fun h => absurd h (by omega)⟩
  have hloop := cbCommonKeyFrom_eq (m := m) key1 key2 (min key1.cb key2.cb - ib)
    (hpoints key1 hle1) (hpoints key2 hle2) (by omega)
  have hlength : ((key2.bytes m).take ib).length = ib := by
    rw [length_take, Key.bytes_length]
    omega
  have hsplit := commonLength_append ((key2.bytes m).take ib) ((key1.bytes m).drop ib)
    ((key2.bytes m).drop ib)
  rw [← hsame, take_append_drop, hsame, take_append_drop, hlength] at hsplit
  rw [cbCommonKey, hib, hloop, hsplit]

/-- However keys are split, and wherever their parts lie in memory, the functions see their bytes
in one piece. -/
theorem comparisons_splitIndependent (m : Memory) (key1 key2 : Key) (keydata : KeyData) :
    compare (cmpKeyShortest mc m key1 key2) 0 =
        compare ((key1.bytes m).take (min (key1.bytes m).length (key2.bytes m).length))
          ((key2.bytes m).take (min (key1.bytes m).length (key2.bytes m).length)) ∧
      compare (cmpKey mc m key1 key2) 0 = compare (key1.bytes m) (key2.bytes m) ∧
      (fKeysEqual mc m key1 key2 = true ↔ key1.bytes m = key2.bytes m) ∧
      compare (cmpKeyWithKeyData mc m key1 keydata) 0 =
        compare (key1.bytes m) (keydata.key.bytes m ++ keydata.data.bytes m) ∧
      cbCommonKey m key1 key2 = commonLength (key1.bytes m) (key2.bytes m) := by
  rw [Key.bytes_length, Key.bytes_length]
  exact ⟨cmpKeyShortest_sign mc key1 key2, cmpKey_sign mc key1 key2, fKeysEqual_iff mc key1 key2,
    cmpKeyWithKeyData_sign mc key1 keydata, cbCommonKey_eq key1 key2⟩

end Comparisons

end EseLinux.KeyCompare
