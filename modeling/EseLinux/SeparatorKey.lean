import EseLinux.KeyCompare

/-!
Separator keys.  A split of a leaf page puts a key between the last node of the left page and the
first one of the right page into the parent: the shortest word that parts their bookmarks.
-/

namespace EseLinux.KeyCompare

open ByteMemory OrderCode Std List Key

section Words

variable {α : Type*} [DecidableEq α]

theorem commonLength_le_left (xs ys : List α) : commonLength xs ys ≤ xs.length := by
  induction xs generalizing ys with
  | nil => exact Nat.zero_le _
  | cons x xs ih =>
    rcases ys with _ | ⟨y, ys⟩
    · exact Nat.zero_le _
    · rw [commonLength, length_cons]
      split
      · exact Nat.succ_le_succ (ih ys)
      · exact Nat.zero_le _

variable {ys xs : List α}

theorem commonLength_fork {x y : α} (hne : x ≠ y) (ws xs ys : List α) :
    commonLength (ws ++ x :: xs) (ws ++ y :: ys) = ws.length := by
  rw [commonLength_append, commonLength, if_neg hne, add_zero]

theorem take_commonLength (xs ys : List α) :
    xs.take (commonLength xs ys) = ys.take (commonLength xs ys) := by
  induction xs generalizing ys with
  | nil => rw [commonLength_nil_left, take_zero, take_zero]
  | cons x xs ih =>
    rcases ys with _ | ⟨y, ys⟩
    · rw [commonLength_nil_right, take_zero, take_zero]
    · rw [commonLength]
      split
      case isTrue heq => rw [take_succ_cons, take_succ_cons, ih, heq]
      · rw [take_zero, take_zero]

theorem commonLength_comm (xs ys : List α) : commonLength xs ys = commonLength ys xs := by
  induction xs generalizing ys with
  | nil => rw [commonLength_nil_left, commonLength_nil_right]
  | cons x xs ih =>
    rcases ys with _ | ⟨y, ys⟩
    · rfl
    · rw [commonLength, commonLength, ih ys]
      by_cases heq : x = y
      · rw [if_pos heq, if_pos heq.symm]
      · rw [if_neg heq, if_neg (Ne.symm heq)]

theorem commonLength_le_right (xs ys : List α) : commonLength xs ys ≤ ys.length :=
  commonLength_comm xs ys ▸ commonLength_le_left ys xs

theorem eq_of_commonLength_eq (hx : commonLength xs ys = xs.length)
    (hy : commonLength xs ys = ys.length) : xs = ys := by
  have htake := take_commonLength xs ys
  rwa [hx, take_length, ← hx, hy, take_length] at htake

variable [Ord α] [OrientedOrd α] [LawfulEqOrd α]

theorem take_commonLength_gt (h : compare xs ys = .lt) :
    compare (ys.take (commonLength ys xs + 1)) xs = .gt := by
  induction xs generalizing ys with
  | nil =>
    rcases ys with _ | ⟨y, ys⟩
    · cases h
    · rfl
  | cons x xs ih =>
    rcases ys with _ | ⟨y, ys⟩
    · cases h
    · rw [List.compare_cons_cons] at h
      rw [commonLength, List.take_succ_cons, List.compare_cons_cons]
      split
      case isTrue heq =>
        rw [heq, ReflOrd.compare_self] at h ⊢
        exact ih h
      case isFalse hne =>
        have hlt : compare x y = .lt :=
          lt_of_ne_gt_of_ne (fun hgt => by rw [hgt] at h; cases h) (Ne.symm hne)
        rw [OrientedCmp.gt_of_lt hlt]
        rfl

omit [LawfulEqOrd α] in
theorem commonLength_lt_of_between {xs ys zs : List α} (hx : compare xs zs = .lt)
    (hy : compare zs ys ≠ .gt) : commonLength ys xs < zs.length := by
  induction zs generalizing xs ys with
  | nil =>
    rcases xs with _ | ⟨x, xs⟩
    · cases hx
    · cases hx
  | cons z zs ih =>
    rcases xs with _ | ⟨x, xs⟩
    · rw [commonLength_nil_right]
      exact Nat.zero_lt_succ _
    · rcases ys with _ | ⟨y, ys⟩
      · exact absurd rfl hy
      · rw [List.compare_cons_cons] at hx hy
        rw [commonLength, length_cons]
        split
        case isTrue heq =>
          -- the letter between two equal ones is the same
          have hxz : compare x z = .eq := by
            cases hcmp : compare x z with
            | eq => rfl
            | gt => rw [hcmp] at hx; cases hx
            | lt => rw [heq, OrientedCmp.gt_of_lt hcmp] at hy; exact absurd rfl hy
          have hzy : compare z y = .eq := by
            rw [heq]
            exact OrientedCmp.eq_symm hxz
          rw [hxz] at hx
          rw [hzy] at hy
          exact Nat.succ_lt_succ (ih hx hy)
        · exact Nat.zero_lt_succ _

theorem commonLength_of_between {zs : List α} (hx : compare xs ys ≠ .gt)
    (hy : compare ys zs ≠ .gt) :
    commonLength xs zs = min (commonLength xs ys) (commonLength ys zs) := by
  induction ys generalizing xs zs with
  | nil =>
    rcases xs with _ | ⟨x, xs⟩
    · rw [commonLength_nil_left, commonLength_nil_left, Nat.zero_min]
    · exact absurd rfl hx
  | cons y ys ih =>
    rcases xs with _ | ⟨x, xs⟩
    · rw [commonLength_nil_left, commonLength_nil_left, Nat.zero_min]
    · rcases zs with _ | ⟨z, zs⟩
      · exact absurd rfl hy
      · rw [List.compare_cons_cons] at hx hy
        rw [commonLength, commonLength, commonLength]
        by_cases hxy : x = y
        · by_cases hyz : y = z
          · rw [hxy, ReflOrd.compare_self] at hx
            rw [hyz, ReflOrd.compare_self] at hy
            rw [if_pos hxy, if_pos hyz, if_pos (hxy.trans hyz), ih hx hy, Nat.succ_min_succ]
          · rw [if_neg hyz, if_neg (hxy ▸ hyz), Nat.min_zero]
        · have hlt : compare x y = .lt :=
            lt_of_ne_gt_of_ne (fun hgt => by rw [hgt] at hx; exact hx rfl) hxy
          have hxz : x ≠ z := by
            rintro rfl
            rw [OrientedCmp.gt_of_lt hlt] at hy
            exact hy rfl
          rw [if_neg hxy, if_neg hxz, Nat.zero_min]

end Words

def Key.copyIntoBuffer (m : Memory) (key : Key) (pvDest cbMax : Nat) : Memory :=
  let cbPrefix := key.keyPrefix.cb
  let m := store m pvDest (slice m key.keyPrefix.pv (min cbPrefix cbMax))
  store m (pvDest + cbPrefix) (slice m key.suffix.pv (min key.suffix.cb (cbMax - cbPrefix)))

/-- The loop of `CbCommonData` with `cbRem` bytes left to compare. -/
def cbCommonDataFrom (m : Memory) (pb1 pb2 : Nat) : Nat → Nat → Nat
  | 0, ib => ib
  | cbRem + 1, ib =>
    if m (pb1 + ib) = m (pb2 + ib) then cbCommonDataFrom m pb1 pb2 cbRem (ib + 1) else ib

def cbCommonData (m : Memory) (data1 data2 : Data) : Nat :=
  cbCommonDataFrom m data1.pv data2.pv (min data1.cb data2.cb) 0

def Key.pbAt (key : Key) (ib : Nat) : Nat :=
  if key.keyPrefix.cb > ib then key.keyPrefix.pv + ib else key.suffix.pv + (ib - key.keyPrefix.cb)

section Separator

variable (m : Memory) (kdfPrev kdfSplit : KeyData)

def fSplitKeysEqual : Bool :=
  decide (cbCommonKey m kdfSplit.key kdfPrev.key = kdfSplit.key.cb ∧
    cbCommonKey m kdfSplit.key kdfPrev.key = kdfPrev.key.cb)

def cbDataCommon : Nat :=
  if fSplitKeysEqual m kdfPrev kdfSplit then cbCommonData m kdfSplit.data kdfPrev.data else 0

def cbSeparator : Nat :=
  cbCommonKey m kdfSplit.key kdfPrev.key + cbDataCommon m kdfPrev kdfSplit + 1

/-- The key is built in the buffer that is allocated; `none` is `JET_errOutOfMemory`. -/
def errBTIComputeSeparatorKey (pvAlloc : Option Nat) : Option (Memory × Key) := do
  let cbKeyCommon := cbCommonKey m kdfSplit.key kdfPrev.key
  let cbDataCommon := cbDataCommon m kdfPrev kdfSplit
  let pv ← pvAlloc
  let fKeysEqual := fSplitKeysEqual m kdfPrev kdfSplit
  let m := kdfSplit.key.copyIntoBuffer m pv cbKeyCommon
  let m :=
    if !fKeysEqual then
      store m (pv + cbKeyCommon) [m (kdfSplit.key.pbAt cbKeyCommon)]
    else
      let m := store m (pv + cbKeyCommon) (slice m kdfSplit.data.pv cbDataCommon)
      store m (pv + cbKeyCommon + cbDataCommon) [m (kdfSplit.data.pv + cbDataCommon)]
  return (m, ⟨.null, ⟨pv, cbKeyCommon + cbDataCommon + 1⟩⟩)

end Separator

/-- A chunk lies outside a buffer of `cb` bytes. -/
def Data.Apart (data : Data) (pv cb : Nat) : Prop := data.pv + data.cb ≤ pv ∨ pv + cb ≤ data.pv

structure KeyData.Apart (kd : KeyData) (pv cb : Nat) : Prop where
  keyPrefix : kd.key.keyPrefix.Apart pv cb
  suffix : kd.key.suffix.Apart pv cb
  data : kd.data.Apart pv cb

variable {bs : List UInt8}

section Written

variable {m : Memory} {pv cb : Nat} {data : Data}

theorem Data.Apart.slice_store (h : data.Apart pv cb)
    (hbs : bs.length ≤ cb) {i k : Nat} (hi : i + k ≤ data.cb) :
    slice (store m pv bs) (data.pv + i) k = slice m (data.pv + i) k := by
  apply AgreeOn.slice_eq
  apply store_agreeOn
  rcases h with hbefore | hbehind
  · exact .inl (by omega)
  · exact .inr (by omega)

theorem Data.Apart.bytes_store (h : data.Apart pv cb)
    (hbs : bs.length ≤ cb) : data.bytes (store m pv bs) = data.bytes m :=
  h.slice_store hbs (i := 0) (Nat.le_of_eq (Nat.zero_add _))

theorem Data.Apart.mono (h : data.Apart pv cb) {cb' : Nat} (hle : cb' ≤ cb) : data.Apart pv cb' :=
  h.imp_right fun hbehind => by omega

theorem copyIntoBuffer_eq {key : Key} (hsuffix : key.suffix.Apart pv cb) :
    key.copyIntoBuffer m pv cb = store m pv ((key.bytes m).take cb) := by
  rw [copyIntoBuffer, bytes_take]
  by_cases hle : cb ≤ key.keyPrefix.cb
  · rw [Nat.sub_eq_zero_of_le hle, Nat.min_zero, Nat.zero_min, slice_zero, slice_zero, store_nil,
      append_nil, min_comm]
  · have hlength : (slice m key.keyPrefix.pv key.keyPrefix.cb).length ≤ cb := by
      rw [slice_length]
      omega
    have hread := hsuffix.slice_store (m := m) hlength (i := 0)
      (k := min key.suffix.cb (cb - key.keyPrefix.cb)) (by omega)
    rw [min_eq_left (by omega), min_eq_right (Nat.le_of_not_le hle)]
    have happend := store_append m pv (slice m key.keyPrefix.pv key.keyPrefix.cb)
      (slice m key.suffix.pv (min key.suffix.cb (cb - key.keyPrefix.cb)))
    rw [slice_length] at happend
    rw [add_zero] at hread
    rw [hread, happend, min_comm key.suffix.cb]

variable {ib : Nat}

theorem Data.Apart.store_behind (h : data.Apart pv (bs.length + ib + 1)) (hib : ib < data.cb) :
    let m' := store (store m pv bs) (pv + bs.length) (slice (store m pv bs) data.pv ib)
    store m' (pv + bs.length + ib) [m' (data.pv + ib)] =
      store m pv (bs ++ (data.bytes m).take (ib + 1)) := by
  have hread : slice (store m pv bs) (data.pv + 0) ib = slice m (data.pv + 0) ib :=
    h.slice_store (by omega) (by omega)
  have hlength : (bs ++ slice m data.pv ib).length = bs.length + ib := by
    rw [length_append, slice_length]
  have hlast : store m pv (bs ++ slice m data.pv ib) (data.pv + ib) = m (data.pv + ib) :=
    head_eq_of_cons_eq (h.slice_store (k := 1) (by omega) (by omega))
  have happend := store_append m pv (bs ++ slice m data.pv ib) [m (data.pv + ib)]
  rw [add_zero] at hread
  rw [hlength] at happend
  intro m'
  rw [Data.bytes, take_slice _ (show ib + 1 ≤ data.cb from hib), ← slice_append, ← append_assoc]
  simp only [m', hread, store_append, hlast, add_assoc pv, happend]
  rfl

theorem Key.bytes_take_succ (key : Key) (hib : ib < key.cb) :
    (key.bytes m).take (ib + 1) = (key.bytes m).take ib ++ [m (key.pbAt ib)] := by
  rw [bytes_take, bytes_take, pbAt]
  rw [cb] at hib
  split
  case isTrue hlt =>
    have hmin : min (ib + 1) key.keyPrefix.cb = ib + 1 := min_eq_left hlt
    rw [hmin, min_eq_left (hlt.le), show ib + 1 - key.keyPrefix.cb = 0 by omega,
      show ib - key.keyPrefix.cb = 0 by omega, Nat.zero_min, slice_zero, append_nil,
      append_nil, ← slice_append]
    rfl
  case isFalse hge =>
    have hsize : min (ib + 1 - key.keyPrefix.cb) key.suffix.cb = ib - key.keyPrefix.cb + 1 := by
      omega
    have hsize' : min (ib - key.keyPrefix.cb) key.suffix.cb = ib - key.keyPrefix.cb := by omega
    rw [min_eq_right (show key.keyPrefix.cb ≤ ib + 1 by omega),
      min_eq_right (Nat.le_of_not_lt hge), hsize, hsize', ← slice_append, append_assoc]
    rfl

theorem Key.pbAt_store {key : Key} (hpre : key.keyPrefix.Apart pv cb)
    (hsuffix : key.suffix.Apart pv cb) (hib : ib < key.cb)
    (hbs : bs.length ≤ cb) : store m pv bs (key.pbAt ib) = m (key.pbAt ib) := by
  have hone (a : Nat) (h : slice (store m pv bs) a 1 = slice m a 1) : store m pv bs a = m a :=
    head_eq_of_cons_eq h
  rw [Key.cb] at hib
  apply hone
  rw [pbAt]
  split
  · exact hpre.slice_store hbs (by omega)
  · exact hsuffix.slice_store hbs (by omega)

theorem Data.bytes_drop_eq_cons (data : Data) (hib : ib < data.cb) :
    (data.bytes m).drop ib = m (data.pv + ib) :: (data.bytes m).drop (ib + 1) := by
  rw [drop_eq_getElem_cons (by simpa using hib)]
  simp only [Data.bytes, slice_getElem]

theorem cbCommonDataFrom_eq (m : Memory) (data1 data2 : Data) (cbRem : Nat)
    (hrem : ib + cbRem = min data1.cb data2.cb) : cbCommonDataFrom m data1.pv data2.pv cbRem ib =
      ib + commonLength ((data1.bytes m).drop ib) ((data2.bytes m).drop ib) := by
  induction cbRem generalizing ib with
  | zero =>
    have hzero : commonLength ((data1.bytes m).drop ib) ((data2.bytes m).drop ib) = 0 := by
      have hle := commonLength_le_left ((data1.bytes m).drop ib) ((data2.bytes m).drop ib)
      have hle' := commonLength_le_right ((data1.bytes m).drop ib) ((data2.bytes m).drop ib)
      rw [length_drop, Data.bytes_length] at hle hle'
      omega
    rw [cbCommonDataFrom, hzero, add_zero]
  | succ cbRem ih =>
    rw [cbCommonDataFrom, data1.bytes_drop_eq_cons (by omega), data2.bytes_drop_eq_cons (by omega),
      commonLength]
    split
    · rw [ih (by omega)]
      omega
    · rfl

theorem cbCommonData_eq (m : Memory) (data1 data2 : Data) :
    cbCommonData m data1 data2 = commonLength (data1.bytes m) (data2.bytes m) := by
  rw [cbCommonData, cbCommonDataFrom_eq m data1 data2 _ (zero_add _), drop_zero,
    drop_zero, zero_add]

end Written

def KeyData.bookmark (fUnique : Bool) (kdf : KeyData) : KeyData :=
  { kdf with data := if fUnique then .null else kdf.data }

def KeyData.bytes (m : Memory) (kd : KeyData) : List UInt8 := kd.key.bytes m ++ kd.data.bytes m

theorem KeyData.bookmark_true_bytes (m : Memory) (kdf : KeyData) :
    (kdf.bookmark true).bytes m = kdf.key.bytes m := append_nil _

theorem KeyData.bookmark_false_bytes (m : Memory) (kdf : KeyData) :
    (kdf.bookmark false).bytes m = kdf.key.bytes m ++ kdf.data.bytes m := rfl

def ProperlyBegins (xs ys : List UInt8) : Prop := xs <+: ys ∧ xs ≠ ys

section Separates

variable {m : Memory} {fUnique : Bool} {kdfPrev kdfSplit : KeyData} {pv : Nat} (mc : Memcmp)

structure Adjacent (mc : Memcmp) (m : Memory) (fUnique : Bool) (kdfPrev kdfSplit : KeyData) :
    Prop where
  lt : cmpKeyData mc m (kdfPrev.bookmark fUnique) (kdfSplit.bookmark fUnique) < 0
  keys : fUnique = true ∨ ¬ ProperlyBegins (kdfPrev.key.bytes m) (kdfSplit.key.bytes m) ∧
    ¬ ProperlyBegins (kdfSplit.key.bytes m) (kdfPrev.key.bytes m)

section

variable (h : Adjacent mc m fUnique kdfPrev kdfSplit)
include h

theorem Adjacent.compare_then : (compare (kdfPrev.key.bytes m) (kdfSplit.key.bytes m)).then
      (compare ((kdfPrev.bookmark fUnique).data.bytes m)
        ((kdfSplit.bookmark fUnique).data.bytes m)) = .lt := by
  have hlt := compare_lt_iff_lt.mpr h.lt
  rwa [cmpKeyData_sign] at hlt

theorem Adjacent.keys_lt (hne : kdfPrev.key.bytes m ≠ kdfSplit.key.bytes m) :
    compare (kdfPrev.key.bytes m) (kdfSplit.key.bytes m) = .lt := by
  have hthen := h.compare_then
  exact lt_of_ne_gt_of_ne (fun hgt => by rw [hgt] at hthen; cases hthen) hne

theorem Adjacent.of_keys_ne (hne : kdfPrev.key.bytes m ≠ kdfSplit.key.bytes m) :
    let ib := commonLength (kdfSplit.key.bytes m) (kdfPrev.key.bytes m)
    ib < kdfSplit.key.cb ∧
      commonLength ((kdfSplit.bookmark fUnique).bytes m) ((kdfPrev.bookmark fUnique).bytes m) = ib ∧
      compare ((kdfPrev.bookmark fUnique).bytes m) ((kdfSplit.bookmark fUnique).bytes m) = .lt := by
  have hlt := h.keys_lt mc hne
  have hsplit : commonLength (kdfSplit.key.bytes m) (kdfPrev.key.bytes m) <
      (kdfSplit.key.bytes m).length :=
    commonLength_lt_of_between hlt (by rw [ReflOrd.compare_self]; decide)
  refine ⟨by rwa [bytes_length] at hsplit, ?_⟩
  rcases h.keys with hunique | ⟨hprev, hsplit⟩
  · rw [hunique, KeyData.bookmark_true_bytes, KeyData.bookmark_true_bytes]
    exact ⟨rfl, hlt⟩
  · obtain ⟨x, y, hxy, ws, xs, ys, hx, hy⟩ :=
      ((prefix_or_fork (kdfPrev.key.bytes m) (kdfSplit.key.bytes m)).resolve_left
        fun hbegins => hprev ⟨hbegins, hne⟩).resolve_left fun hbegins => hsplit ⟨hbegins, hne.symm⟩
    simp only [KeyData.bytes, KeyData.bookmark, hx, hy, append_assoc, cons_append,
      commonLength_fork hxy.symm, compare_fork hxy] at hlt ⊢
    exact ⟨trivial, hlt⟩

theorem Adjacent.of_keys_eq (heq : kdfPrev.key.bytes m = kdfSplit.key.bytes m) : fUnique = false ∧
      commonLength (kdfSplit.data.bytes m) (kdfPrev.data.bytes m) < kdfSplit.data.cb ∧
      commonLength ((kdfSplit.bookmark fUnique).bytes m) ((kdfPrev.bookmark fUnique).bytes m) =
        kdfSplit.key.cb + commonLength (kdfSplit.data.bytes m) (kdfPrev.data.bytes m) ∧
      compare ((kdfPrev.bookmark fUnique).bytes m) ((kdfSplit.bookmark fUnique).bytes m) = .lt := by
  have hthen := h.compare_then
  rw [heq, ReflOrd.compare_self, Ordering.eq_then] at hthen
  cases fUnique with
  | true => cases hthen
  | false =>
    have hdata : compare (kdfPrev.data.bytes m) (kdfSplit.data.bytes m) = .lt := hthen
    have hless := commonLength_lt_of_between hdata (by rw [ReflOrd.compare_self]; decide)
    rw [Data.bytes_length] at hless
    rw [KeyData.bookmark_false_bytes, KeyData.bookmark_false_bytes, heq]
    refine ⟨rfl, hless, ?_, ?_⟩
    · rw [commonLength_append, bytes_length]
    · rw [compare_append rfl, ReflOrd.compare_self]
      exact hdata

theorem Adjacent.bytes_lt :
    compare ((kdfPrev.bookmark fUnique).bytes m) ((kdfSplit.bookmark fUnique).bytes m) = .lt := by
  by_cases heq : kdfPrev.key.bytes m = kdfSplit.key.bytes m
  · exact (h.of_keys_eq mc heq).2.2.2
  · exact (h.of_keys_ne mc heq).2.2

end

theorem fSplitKeysEqual_iff :
    fSplitKeysEqual m kdfPrev kdfSplit = true ↔ kdfPrev.key.bytes m = kdfSplit.key.bytes m := by
  rw [fSplitKeysEqual, decide_eq_true_eq, cbCommonKey_eq]
  constructor
  · rintro ⟨hsplit, hprev⟩
    rw [← bytes_length (m := m)] at hsplit hprev
    exact (eq_of_commonLength_eq hsplit hprev).symm
  · intro heq
    have hself := commonLength_append (kdfSplit.key.bytes m) [] []
    rw [append_nil, bytes_length] at hself
    have hcb := congrArg length heq
    rw [bytes_length, bytes_length] at hcb
    rw [heq, hcb]
    exact ⟨hself, hself⟩

theorem Adjacent.errBTIComputeSeparatorKey_eq (h : Adjacent mc m fUnique kdfPrev kdfSplit)
    (hapart : kdfSplit.Apart pv (cbSeparator m kdfPrev kdfSplit)) :
    cbSeparator m kdfPrev kdfSplit = commonLength ((kdfSplit.bookmark fUnique).bytes m)
        ((kdfPrev.bookmark fUnique).bytes m) + 1 ∧
      errBTIComputeSeparatorKey m kdfPrev kdfSplit (some pv) =
        some (store m pv (((kdfSplit.bookmark fUnique).bytes m).take
          (cbSeparator m kdfPrev kdfSplit)), ⟨.null, ⟨pv, cbSeparator m kdfPrev kdfSplit⟩⟩) := by
  by_cases heq : kdfPrev.key.bytes m = kdfSplit.key.bytes m
  · obtain ⟨rfl, hless, hcommon, -⟩ := h.of_keys_eq mc heq
    have hequal : fSplitKeysEqual m kdfPrev kdfSplit = true := fSplitKeysEqual_iff.mpr heq
    have hkey : cbCommonKey m kdfSplit.key kdfPrev.key = kdfSplit.key.cb :=
      (of_decide_eq_true hequal).1
    have hdata : cbDataCommon m kdfPrev kdfSplit =
        commonLength (kdfSplit.data.bytes m) (kdfPrev.data.bytes m) := by
      rw [cbDataCommon, if_pos hequal, cbCommonData_eq]
    rw [hcommon]
    rw [cbSeparator, hkey, hdata] at hapart ⊢
    refine ⟨rfl, ?_⟩
    simp only [errBTIComputeSeparatorKey, Option.bind_eq_bind, Option.bind_some, hequal,
      Bool.not_true, Bool.false_eq_true, if_false, hkey, hdata]
    generalize commonLength (kdfSplit.data.bytes m) (kdfPrev.data.bytes m) = ib at *
    have hall : (kdfSplit.key.bytes m).take kdfSplit.key.cb = kdfSplit.key.bytes m :=
      take_of_length_le (by rw [bytes_length])
    have hdst : kdfSplit.data.Apart pv ((kdfSplit.key.bytes m).length + ib + 1) := by
      rw [bytes_length]
      exact hapart.data
    have hbehind := hdst.store_behind (m := m) hless
    have htake : (kdfSplit.key.bytes m ++ kdfSplit.data.bytes m).take
        ((kdfSplit.key.bytes m).length + (ib + 1)) =
        kdfSplit.key.bytes m ++ (kdfSplit.data.bytes m).take (ib + 1) :=
      take_length_add_append _
    rw [bytes_length] at hbehind htake
    rw [copyIntoBuffer_eq (hapart.suffix.mono (by omega)), hall, hbehind,
      KeyData.bookmark_false_bytes, ← htake]
    rfl
  · obtain ⟨hless, hcommon, -⟩ := h.of_keys_ne mc heq
    have hequal : fSplitKeysEqual m kdfPrev kdfSplit = false :=
      Bool.eq_false_of_not_eq_true (mt fSplitKeysEqual_iff.mp heq)
    have hdata : cbDataCommon m kdfPrev kdfSplit = 0 := by
      rw [cbDataCommon, hequal, if_neg (by decide)]
    rw [hcommon]
    rw [cbSeparator, cbCommonKey_eq, hdata, add_zero] at hapart ⊢
    refine ⟨rfl, ?_⟩
    simp only [errBTIComputeSeparatorKey, Option.bind_eq_bind, Option.bind_some, hequal,
      Bool.not_false, if_true, cbCommonKey_eq, hdata]
    generalize commonLength (kdfSplit.key.bytes m) (kdfPrev.key.bytes m) = ib at *
    have hlength : ((kdfSplit.key.bytes m).take ib).length = ib := by
      rw [length_take, bytes_length]
      omega
    have happend := store_append m pv ((kdfSplit.key.bytes m).take ib) [m (kdfSplit.key.pbAt ib)]
    rw [hlength] at happend
    rw [copyIntoBuffer_eq (hapart.suffix.mono (Nat.le_succ ib)),
      pbAt_store hapart.keyPrefix hapart.suffix hless (by omega), happend,
      ← bytes_take_succ _ hless, KeyData.bytes,
      take_append_of_le_length (by rw [bytes_length]; exact hless)]
    rfl

end Separates

theorem KeyData.Apart.bytes_store {m : Memory} {kdf : KeyData} {pv cb : Nat} (h : kdf.Apart pv cb)
    (hbs : bs.length ≤ cb) (fUnique : Bool) :
    (kdf.bookmark fUnique).bytes (store m pv bs) = (kdf.bookmark fUnique).bytes m := by
  have hkey : kdf.key.bytes (store m pv bs) = kdf.key.bytes m := by
    rw [Key.bytes, Key.bytes, h.keyPrefix.bytes_store hbs, h.suffix.bytes_store hbs]
  cases fUnique with
  | true => rw [KeyData.bookmark_true_bytes, KeyData.bookmark_true_bytes, hkey]
  | false =>
    rw [KeyData.bookmark_false_bytes, KeyData.bookmark_false_bytes, hkey, h.data.bytes_store hbs]

/-- The key that `ErrBTIComputeSeparatorKey` builds is greater than the bookmark of the left node
and not greater than the one of the right node, and no shorter key is. -/
theorem separatorKey_separates (mc : Memcmp) (m : Memory) (fUnique : Bool)
    (kdfPrev kdfSplit : KeyData) (pv : Nat) (h : Adjacent mc m fUnique kdfPrev kdfSplit)
    (hprev : kdfPrev.Apart pv (cbSeparator m kdfPrev kdfSplit))
    (hsplit : kdfSplit.Apart pv (cbSeparator m kdfPrev kdfSplit)) :
    ∃ m' key, errBTIComputeSeparatorKey m kdfPrev kdfSplit (some pv) = some (m', key) ∧
      0 < cmpKeyWithKeyData mc m' key (kdfPrev.bookmark fUnique) ∧
      cmpKeyWithKeyData mc m' key (kdfSplit.bookmark fUnique) ≤ 0 ∧
      ∀ (m'' : Memory) (key' : Key),
        (kdfPrev.bookmark fUnique).bytes m'' = (kdfPrev.bookmark fUnique).bytes m →
        (kdfSplit.bookmark fUnique).bytes m'' = (kdfSplit.bookmark fUnique).bytes m →
        0 < cmpKeyWithKeyData mc m'' key' (kdfPrev.bookmark fUnique) →
        cmpKeyWithKeyData mc m'' key' (kdfSplit.bookmark fUnique) ≤ 0 → key.cb ≤ key'.cb := by
  obtain ⟨hcb, heq⟩ := h.errBTIComputeSeparatorKey_eq mc hsplit
  have hlt := h.bytes_lt mc
  have hself : compare ((kdfSplit.bookmark fUnique).bytes m) ((kdfSplit.bookmark fUnique).bytes m) ≠
      .gt := by
    rw [ReflOrd.compare_self]
    decide
  have hless := commonLength_lt_of_between hlt hself
  have hlength : (((kdfSplit.bookmark fUnique).bytes m).take
      (cbSeparator m kdfPrev kdfSplit)).length = cbSeparator m kdfPrev kdfSplit := by
    rw [length_take]
    omega
  refine ⟨_, _, heq, ?_⟩
  generalize hw : ((kdfSplit.bookmark fUnique).bytes m).take (cbSeparator m kdfPrev kdfSplit) =
    w at *
  have hkey : (mk .null ⟨pv, cbSeparator m kdfPrev kdfSplit⟩).bytes (store m pv w) = w := by
    change [] ++ slice (store m pv w) pv (cbSeparator m kdfPrev kdfSplit) = w
    rw [nil_append, ← hlength]
    exact slice_store m pv w
  have hgt := take_commonLength_gt hlt
  rw [← hcb, hw] at hgt
  refine ⟨?_, ?_, ?_⟩
  · apply compare_gt_iff_gt.mp
    rw [cmpKeyWithKeyData_sign, hkey]
    change compare w ((kdfPrev.bookmark fUnique).bytes (store m pv w)) = .gt
    rwa [hprev.bytes_store (Nat.le_of_eq hlength)]
  · apply compare_le_iff_le.mp
    rw [cmpKeyWithKeyData_sign, hkey]
    change compare w ((kdfSplit.bookmark fUnique).bytes (store m pv w)) ≠ .gt
    rw [hsplit.bytes_store (Nat.le_of_eq hlength), ← hw]
    exact compare_ne_gt_of_begins (List.take_prefix _ _)
  · intro m'' key' hbytes hbytes' hgt' hle'
    have hleft := compare_gt_iff_gt.mpr hgt'
    have hright := compare_le_iff_le.mpr hle'
    rw [cmpKeyWithKeyData_sign] at hleft hright
    change compare (key'.bytes m'') ((kdfPrev.bookmark fUnique).bytes m'') = .gt at hleft
    change compare (key'.bytes m'') ((kdfSplit.bookmark fUnique).bytes m'') ≠ .gt at hright
    rw [hbytes] at hleft
    rw [hbytes'] at hright
    have hshort := commonLength_lt_of_between (OrientedCmp.lt_of_gt hleft) hright
    rw [bytes_length] at hshort
    change 0 + cbSeparator m kdfPrev kdfSplit ≤ key'.cb
    omega

/-- Two nodes of a tree without unique keys whose keys share the prefix `1 2`: the key `1 2 3` with
the data `9`, and the key `1 2 5 7` with the data `8`. -/
def leafMemory : Memory := ofBytes [1, 2, 3, 9, 5, 7, 8]

def leafPrev : KeyData := ⟨⟨⟨0, 2⟩, ⟨2, 1⟩⟩, ⟨3, 1⟩⟩

def leafSplit : KeyData := ⟨⟨⟨0, 2⟩, ⟨4, 2⟩⟩, ⟨6, 1⟩⟩

theorem leafNodes_separated :
    ∃ m' key, errBTIComputeSeparatorKey leafMemory leafPrev leafSplit (some 16) = some (m', key) ∧
      key.bytes m' = [1, 2, 5] ∧ 0 < cmpKeyWithKeyData signMemcmp m' key leafPrev ∧
      cmpKeyWithKeyData signMemcmp m' key leafSplit ≤ 0 := by
  have hadjacent : Adjacent signMemcmp leafMemory false leafPrev leafSplit := by
    refine ⟨by decide, .inr ⟨fun h => ?_, fun h => ?_⟩⟩
    · exact absurd h.1 (by decide)
    · exact absurd h.1 (by decide)
  have hapart (kdf : KeyData) (hkdf : kdf = leafPrev ∨ kdf = leafSplit) :
      kdf.Apart 16 (cbSeparator leafMemory leafPrev leafSplit) := by
    rcases hkdf with rfl | rfl
    · exact ⟨.inl (by decide), .inl (by decide), .inl (by decide)⟩
    · exact ⟨.inl (by decide), .inl (by decide), .inl (by decide)⟩
  obtain ⟨m', key, heq, hgt, hle, -⟩ := separatorKey_separates signMemcmp leafMemory false leafPrev
    leafSplit 16 hadjacent (hapart _ (.inl rfl)) (hapart _ (.inr rfl))
  have hbytes : (errBTIComputeSeparatorKey leafMemory leafPrev leafSplit (some 16)).all
      (fun out => out.2.bytes out.1 == [1, 2, 5]) = true := by decide
  rw [heq, Option.all_some, beq_iff_eq] at hbytes
  exact ⟨m', key, heq, hbytes, hgt, hle⟩

end EseLinux.KeyCompare
