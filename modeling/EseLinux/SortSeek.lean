import EseLinux.Bisect
import EseLinux.ExternalSort

/-!
Seeking a key in a sort that stayed in memory.  The pairs are bisected for the first record whose
key is not less than the search key, and the seek type then moves the cursor by one record or
turns the outcome into an error.  The bisection ends at any record of the search key, so a seek is
what its type says just if no two records have that key.
-/

namespace EseLinux.ExternalSort

inductive SeekErr where
  | success
  | wrnNDFoundLess
  | wrnNDFoundGreater
  | errRecordNotFound
  | errNoCurrentRecord
  | errInternalError
  | errIllegalOperation
  | errKeyNotMade
  deriving DecidableEq

inductive SeekType where
  | lt | le | eq | ge | gt
  deriving DecidableEq

/-- A cursor on a sort with what a seek looks at: how the sort was opened, and the key it was
given. -/
structure SeekFucb where
  fucb : Fucb
  fTTScrollable : Bool
  fTTIndexed : Bool
  fKSPrepared : Bool
  dataSearchKey : List UInt8

section Model

variable (cbPage : Nat)

def signOf : Ordering → Int
  | .lt => -1
  | .eq => 0
  | .gt => 1

/-- The bisection of the pairs `0 .. ispairMac`. -/
def ispairSORTISeekByKey (scb : Scb) (ispairMac : Nat) (keySeek : List UInt8) :
    Option Bisect.Stop :=
  Bisect.bisect
    (fun ispair => some (signOf (KeyOrder.cmpKey (scb.record cbPage ispair).key keySeek)))
    (ispairMac + 2) 0 ispairMac ⟨none, 0, -1⟩

def errSORTSeek (fucb : Fucb) (key : List UInt8) : Option (SeekErr × Fucb) :=
  if fucb.scb.cRecords = 0 then some (.errRecordNotFound, fucb)
  else
    (ispairSORTISeekByKey cbPage fucb.scb (fucb.scb.ispairMac - 1) key).map fun stop =>
      match stop.found with
      | none => (.wrnNDFoundLess, { fucb with ispairCurr := fucb.scb.ispairMac - 1 })
      | some ispair =>
        (if stop.cmp = 0 then .success else .wrnNDFoundGreater, { fucb with ispairCurr := ispair })

def errSORTPrev (fucb : Fucb) : SeekErr × Fucb :=
  if fucb.ispairCurr ≤ 0 then (.errNoCurrentRecord, { fucb with ispairCurr := -1 })
  else (.success, { fucb with ispairCurr := fucb.ispairCurr - 1 })

def errIsamSortMovePrevious (cursor : SeekFucb) : Option (SeekErr × SeekFucb) :=
  if cursor.fTTScrollable = false ∧ cursor.fTTIndexed = false then
    some (.errIllegalOperation, cursor)
  else
    let r := errSORTPrev cursor.fucb
    some (r.1, { cursor with fucb := r.2 })

def errIsamSortMoveNext (cursor : SeekFucb) : Option (SeekErr × SeekFucb) :=
  (errSORTNext cbPage cursor.fucb).map fun r =>
    (match r.1 with
      | .ok _ => .success
      | .error .errNoCurrentRecord => .errNoCurrentRecord
      | .error _ => .errInternalError, { cursor with fucb := r.2 })

def moveToSeek : SeekErr × SeekFucb → SeekErr × SeekFucb
  | (.errNoCurrentRecord, cursor) => (.errRecordNotFound, cursor)
  | r => r

def seekByType (type : SeekType) (err : SeekErr) (cursor : SeekFucb) :
    Option (SeekErr × SeekFucb) :=
  match type, err with
  | .lt, .success | .lt, .wrnNDFoundGreater | .le, .wrnNDFoundGreater =>
    (errIsamSortMovePrevious cursor).map moveToSeek
  | .lt, .wrnNDFoundLess | .le, .wrnNDFoundLess => some (.success, cursor)
  | .eq, .wrnNDFoundLess | .eq, .wrnNDFoundGreater => some (.errRecordNotFound, cursor)
  | .ge, .wrnNDFoundGreater | .gt, .wrnNDFoundGreater => some (.success, cursor)
  | .ge, .wrnNDFoundLess | .gt, .wrnNDFoundLess => some (.errRecordNotFound, cursor)
  | .gt, .success => (errIsamSortMoveNext cbPage cursor).map moveToSeek
  | _, err => some (err, cursor)

def errIsamSortSeek (cursor : SeekFucb) (type : SeekType) : Option (SeekErr × SeekFucb) :=
  if cursor.fTTScrollable = false ∧ cursor.fTTIndexed = false then
    some (.errIllegalOperation, cursor)
  else if cursor.fKSPrepared = false then some (.errKeyNotMade, cursor)
  else
    (errSORTSeek cbPage cursor.fucb cursor.dataSearchKey).bind fun r =>
      -- the key is used up by a seek that found anything
      let fKSPrepared := if r.1 = .errRecordNotFound then cursor.fKSPrepared else false
      seekByType cbPage type r.1 { cursor with fucb := r.2, fKSPrepared }

end Model

def SeekType.Wants : SeekType → Ordering → Prop
  | .lt, o => o = .lt
  | .le, o => o ≠ .gt
  | .eq, o => o = .eq
  | .ge, o => o ≠ .lt
  | .gt, o => o = .gt

/-- The sort has stayed in memory, its pairs are in the order of the keys, and the cursor may be
sought on with the key it was given. -/
structure Seekable (cbPage : Nat) (cursor : SeekFucb) : Prop where
  memory : cursor.fucb.scb.runs = []
  count : cursor.fucb.scb.cRecords = cursor.fucb.scb.ispairMac
  sorted : ∀ i j, i < j → j < cursor.fucb.scb.ispairMac →
    KeyOrder.cmpKey (cursor.fucb.scb.record cbPage i).key
      (cursor.fucb.scb.record cbPage j).key ≠ .gt
  opened : cursor.fTTScrollable = true ∨ cursor.fTTIndexed = true
  prepared : cursor.fKSPrepared = true

section Spec

variable (cbPage : Nat) (cursor : SeekFucb)

def SeekFucb.order (i : Nat) : Ordering :=
  KeyOrder.cmpKey (cursor.fucb.scb.record cbPage i).key cursor.dataSearchKey

/-- The bisection puts the cursor on the first record that is not less than the search key. -/
def SeeksFirst : Prop :=
  (∃ i < cursor.fucb.scb.ispairMac, cursor.order cbPage i ≠ .lt) →
    ∃ err fucb', errSORTSeek cbPage cursor.fucb cursor.dataSearchKey = some (err, fucb') ∧
      ∃ i < cursor.fucb.scb.ispairMac, fucb'.ispairCurr = i ∧ cursor.order cbPage i ≠ .lt ∧
        ∀ j < i, cursor.order cbPage j = .lt

/-- A seek succeeds just if there is a record as its type wants it, and then the cursor is on such
a record. -/
def SeeksType (type : SeekType) : Prop :=
  ∃ err cursor', errIsamSortSeek cbPage cursor type = some (err, cursor') ∧
    (err = .success ↔ ∃ i < cursor.fucb.scb.ispairMac, type.Wants (cursor.order cbPage i)) ∧
    (err = .success → ∃ i < cursor.fucb.scb.ispairMac,
      cursor'.fucb.ispairCurr = i ∧ type.Wants (cursor.order cbPage i))

end Spec

/-- Records less than the search key stand before `a`, those of the search key from `a` to `b`,
and the greater ones from `b` on. -/
def Around (cbPage : Nat) (cursor : SeekFucb) (a b : Nat) : Prop :=
  Bisect.Splits (cursor.order cbPage) cursor.fucb.scb.ispairMac a b

def SeekType.Within (a b : Nat) : SeekType → Nat → Prop
  | .lt, i => i < a
  | .le, i => i < b
  | .eq, i => a ≤ i ∧ i < b
  | .ge, i => a ≤ i
  | .gt, i => b ≤ i

section Correct

variable {cbPage : Nat} {cursor : SeekFucb} {a b i : Nat}

theorem Seekable.order_isLE (h : Seekable cbPage cursor) {j : Nat} (hij : i ≤ j)
    (hj : j < cursor.fucb.scb.ispairMac) :
    (cursor.order cbPage j = .lt → cursor.order cbPage i = .lt) ∧
      (cursor.order cbPage j ≠ .gt → cursor.order cbPage i ≠ .gt) := by
  rcases Nat.eq_or_lt_of_le hij with rfl | hlt
  · exact ⟨id, id⟩
  · have hle := Ordering.ne_gt_iff_isLE.mp (h.sorted i j hlt hj)
    simp only [SeekFucb.order, Ordering.ne_gt_iff_isLE, KeyOrder.cmpKey_eq_compare] at hle ⊢
    exact ⟨fun hless => Std.TransCmp.lt_of_isLE_of_lt hle hless,
      fun hless => Std.TransCmp.isLE_trans hle hless⟩

theorem Seekable.exists_around (h : Seekable cbPage cursor) : ∃ a b, Around cbPage cursor a b :=
  Bisect.exists_splits (fun _ _ hij hj => (h.order_isLE hij hj).1)
    fun _ _ hij hj => (h.order_isLE hij hj).2

theorem Around.wants_iff (h : Around cbPage cursor a b) (type : SeekType)
    (hi : i < cursor.fucb.scb.ispairMac) :
    type.Wants (cursor.order cbPage i) ↔ type.Within a b i := by
  cases type with
  | lt => exact h.less i hi
  | le => exact h.notGreater i hi
  | eq => exact h.eq_iff hi
  | ge => exact h.notLess_iff hi
  | gt => exact h.gt_iff hi

theorem Around.unique_iff (h : Around cbPage cursor a b) :
    (∀ i < cursor.fucb.scb.ispairMac, ∀ j < cursor.fucb.scb.ispairMac,
      cursor.order cbPage i = .eq → cursor.order cbPage j = .eq → i = j) ↔ b ≤ a + 1 := by
  have hmac := h.le_n
  have heq : ∀ i < cursor.fucb.scb.ispairMac, cursor.order cbPage i = .eq ↔ a ≤ i ∧ i < b :=
    fun i hi => h.wants_iff .eq hi
  constructor
  · intro hunique
    by_contra hlt
    have hsame := hunique a (by omega) (a + 1) (by omega) ((heq _ (by omega)).mpr (by omega))
      ((heq _ (by omega)).mpr (by omega))
    omega
  · intro hle i hi j hj hi' hj'
    have hi' := (heq i hi).mp hi'
    have hj' := (heq j hj).mp hj'
    omega

inductive Found (cursor : SeekFucb) (a b : Nat) : SeekErr → Fucb → Prop
  | empty (hmac : cursor.fucb.scb.ispairMac = 0) : Found cursor a b .errRecordNotFound cursor.fucb
  | less (hpos : 0 < cursor.fucb.scb.ispairMac) (ha : a = cursor.fucb.scb.ispairMac) :
      Found cursor a b .wrnNDFoundLess
        { cursor.fucb with ispairCurr := (cursor.fucb.scb.ispairMac - 1 : Nat) }
  | equal (k : Nat) (ha : a ≤ k) (hb : k < b) :
      Found cursor a b .success { cursor.fucb with ispairCurr := k }
  | greater (ha : a = b) (hb : b < cursor.fucb.scb.ispairMac) :
      Found cursor a b .wrnNDFoundGreater { cursor.fucb with ispairCurr := b }

variable {o : Ordering}

theorem signOf_lt_zero : signOf o < 0 ↔ o = .lt := by
  cases o <;> decide

theorem signOf_eq_zero : signOf o = 0 ↔ o = .eq := by
  cases o <;> decide

theorem signOf_pos : 0 < signOf o ↔ o = .gt := by
  cases o <;> decide

theorem Seekable.seek_found (h : Seekable cbPage cursor) (hab : Around cbPage cursor a b) :
    ∃ err fucb', errSORTSeek cbPage cursor.fucb cursor.dataSearchKey = some (err, fucb') ∧
      Found cursor a b err fucb' := by
  have hle := hab.le_b
  have hmac := hab.le_n
  rw [errSORTSeek, h.count]
  by_cases hzero : cursor.fucb.scb.ispairMac = 0
  · exact ⟨_, _, if_pos hzero, .empty hzero⟩
  rw [if_neg hzero]
  have hmono i j (hij : i ≤ j) (hj : j < cursor.fucb.scb.ispairMac)
      (hneg : signOf (cursor.order cbPage j) < 0) : signOf (cursor.order cbPage i) < 0 := by
    exact signOf_lt_zero.mpr ((h.order_isLE hij hj).1 (signOf_lt_zero.mp hneg))
  obtain ⟨stop, hstop, hends⟩ : ∃ stop, ispairSORTISeekByKey cbPage cursor.fucb.scb
      (cursor.fucb.scb.ispairMac - 1) cursor.dataSearchKey = some stop ∧
      Bisect.Ends (fun i => signOf (cursor.order cbPage i)) cursor.fucb.scb.ispairMac stop := by
    exact Bisect.bisect_ends (fun i _ => rfl) hmono _ rfl (by omega) (by omega)
      (fun i hi => absurd hi (Nat.not_lt_zero i)) (by omega) (by omega) (by omega)
  rw [hstop]
  rcases stop with ⟨_ | k, mid, cmp⟩
  · have hall : ∀ i < cursor.fucb.scb.ispairMac, signOf (cursor.order cbPage i) < 0 := hends
    have hlast := (hab.less (cursor.fucb.scb.ispairMac - 1) (by omega)).mp
      (signOf_lt_zero.mp (hall _ (by omega)))
    refine ⟨_, _, rfl, ?_⟩
    have hcast : ((cursor.fucb.scb.ispairMac : Int) - 1) =
        (cursor.fucb.scb.ispairMac - 1 : Nat) := by omega
    simp only [hcast]
    exact .less (by omega) (by omega)
  · obtain ⟨hk, hcmp, hnonneg, hbefore⟩ : k < cursor.fucb.scb.ispairMac ∧
        cmp = signOf (cursor.order cbPage k) ∧ 0 ≤ signOf (cursor.order cbPage k) ∧
        (0 < signOf (cursor.order cbPage k) → ∀ i < k, signOf (cursor.order cbPage i) < 0) := hends
    subst hcmp
    refine ⟨_, _, rfl, ?_⟩
    by_cases heq : signOf (cursor.order cbPage k) = 0
    · rw [if_pos heq]
      obtain ⟨ha, hb⟩ := (hab.wants_iff .eq hk).mp (signOf_eq_zero.mp heq)
      exact .equal k ha hb
    · rw [if_neg heq]
      have hgt : 0 < signOf (cursor.order cbPage k) := by omega
      have hbk : b ≤ k := (hab.wants_iff .gt hk).mp (signOf_pos.mp hgt)
      have hka : k ≤ a := by
        by_contra hlt
        have hless := (hab.less a (by omega)).mp (signOf_lt_zero.mp (hbefore hgt a (by omega)))
        exact lt_irrefl a hless
      obtain rfl : k = b := by omega
      exact .greater (by omega) hk

variable {cursor' : SeekFucb} {type : SeekType}

theorem Around.seeksType_of_success (hab : Around cbPage cursor a b)
    (hseek : errIsamSortSeek cbPage cursor type = some (.success, cursor'))
    (hi : i < cursor.fucb.scb.ispairMac) (hcurr : cursor'.fucb.ispairCurr = i)
    (hwithin : type.Within a b i) : SeeksType cbPage cursor type := by
  have hwants := (hab.wants_iff type hi).mpr hwithin
  exact ⟨_, _, hseek, iff_of_true rfl ⟨i, hi, hwants⟩, fun _ => ⟨i, hi, hcurr, hwants⟩⟩

theorem Around.seeksType_of_none (hab : Around cbPage cursor a b)
    (hseek : errIsamSortSeek cbPage cursor type = some (.errRecordNotFound, cursor'))
    (hnone : ∀ i < cursor.fucb.scb.ispairMac, ¬ type.Within a b i) :
    SeeksType cbPage cursor type := by
  refine ⟨_, _, hseek, iff_of_false (by decide) ?_, fun h => absurd h (by decide)⟩
  rintro ⟨i, hi, hwants⟩
  exact hnone i hi ((hab.wants_iff type hi).mp hwants)

theorem Around.seeksType_previous (hab : Around cbPage cursor a b) {k : Nat}
    (hseek : errIsamSortSeek cbPage cursor type = (errIsamSortMovePrevious cursor').map moveToSeek)
    (hopened : cursor'.fTTScrollable = true ∨ cursor'.fTTIndexed = true)
    (hcurr : cursor'.fucb.ispairCurr = k) (hk : k ≤ cursor.fucb.scb.ispairMac)
    (hwithin : ∀ i < cursor.fucb.scb.ispairMac, type.Within a b i ↔ i < k) :
    SeeksType cbPage cursor type := by
  have hflags : ¬(cursor'.fTTScrollable = false ∧ cursor'.fTTIndexed = false) := by
    rcases hopened with h | h <;> simp [h]
  rw [errIsamSortMovePrevious, if_neg hflags, errSORTPrev, hcurr] at hseek
  by_cases hzero : k = 0
  · rw [if_pos (by omega)] at hseek
    refine hab.seeksType_of_none hseek fun i hi hin => ?_
    have hlt := (hwithin i hi).mp hin
    omega
  · rw [if_neg (by omega)] at hseek
    refine hab.seeksType_of_success hseek (i := k - 1) (by omega) (by dsimp only; omega) ?_
    exact (hwithin (k - 1) (by omega)).mpr (by omega)

theorem errIsamSortMoveNext_eq {k : Nat}
    (hmemory : cursor'.fucb.scb.runs = []) (hcurr : cursor'.fucb.ispairCurr = k)
    (hk : k < cursor'.fucb.scb.ispairMac) : (errIsamSortMoveNext cbPage cursor').map moveToSeek =
      if k + 1 < cursor'.fucb.scb.ispairMac then
        some (.success, { cursor' with fucb := { cursor'.fucb with ispairCurr := (k + 1 : Nat) } })
      else
        some (.errRecordNotFound, { cursor' with
          fucb := { cursor'.fucb with ispairCurr := cursor'.fucb.scb.ispairMac } }) := by
  rw [errIsamSortMoveNext, errSORTNext, hcurr, if_neg (by rw [hmemory]; simp), if_neg (by omega)]
  by_cases hnext : k + 1 < cursor'.fucb.scb.ispairMac
  · rw [if_pos (by omega), if_pos hnext]
    rfl
  · rw [if_neg (by omega), if_neg hnext]
    rfl

theorem Seekable.isamSortSeek_eq (h : Seekable cbPage cursor) {err : SeekErr} {fucb' : Fucb}
    (hseek : errSORTSeek cbPage cursor.fucb cursor.dataSearchKey = some (err, fucb'))
    (type : SeekType) :
    errIsamSortSeek cbPage cursor type = seekByType cbPage type err { cursor with
      fucb := fucb',
      fKSPrepared := if err = .errRecordNotFound then cursor.fKSPrepared else false } := by
  have hflags : ¬(cursor.fTTScrollable = false ∧ cursor.fTTIndexed = false) := by
    rcases h.opened with h | h <;> simp [h]
  rw [errIsamSortSeek, if_neg hflags, if_neg (by rw [h.prepared]; decide), hseek]
  rfl

theorem Seekable.seeksType (h : Seekable cbPage cursor) (hab : Around cbPage cursor a b)
    (hunique : b ≤ a + 1) (type : SeekType) : SeeksType cbPage cursor type := by
  have hle := hab.le_b
  have hmac := hab.le_n
  obtain ⟨err, fucb', hseek, hfound⟩ := h.seek_found hab
  have hisam := h.isamSortSeek_eq hseek type
  cases hfound with
  | empty hzero =>
    have hnone : errIsamSortSeek cbPage cursor type = some (.errRecordNotFound, cursor) := by
      rw [hisam]
      cases type <;> rfl
    exact hab.seeksType_of_none hnone fun i hi => absurd hi (by omega)
  | less hpos ha =>
    cases type with
    | lt => exact hab.seeksType_of_success hisam (i := _) (by omega) rfl (show _ < a by omega)
    | le => exact hab.seeksType_of_success hisam (i := _) (by omega) rfl (show _ < b by omega)
    | eq => exact hab.seeksType_of_none hisam fun i hi hin => by have := hin.1; omega
    | ge => exact hab.seeksType_of_none hisam fun i hi hin => by have : a ≤ i := hin; omega
    | gt => exact hab.seeksType_of_none hisam fun i hi hin => by have : b ≤ i := hin; omega
  | equal k ha hb =>
    cases type with
    | lt =>
      refine hab.seeksType_previous hisam h.opened (k := k) rfl (by omega) fun i _ => ?_
      show i < a ↔ i < k
      omega
    | le => exact hab.seeksType_of_success hisam (i := k) (by omega) rfl hb
    | eq => exact hab.seeksType_of_success hisam (i := k) (by omega) rfl ⟨ha, hb⟩
    | ge => exact hab.seeksType_of_success hisam (i := k) (by omega) rfl ha
    | gt =>
      have hmove := hisam.trans (errIsamSortMoveNext_eq h.memory (k := k) rfl
        (show k < cursor.fucb.scb.ispairMac by omega))
      by_cases hnext : k + 1 < cursor.fucb.scb.ispairMac
      · rw [if_pos hnext] at hmove
        exact hab.seeksType_of_success hmove hnext rfl (show b ≤ k + 1 by omega)
      · rw [if_neg hnext] at hmove
        exact hab.seeksType_of_none hmove fun i hi hin => by have : b ≤ i := hin; omega
  | greater ha hb =>
    cases type with
    | lt =>
      refine hab.seeksType_previous hisam h.opened (k := b) rfl hmac fun i _ => ?_
      show i < a ↔ i < b
      rw [ha]
    | le => exact hab.seeksType_previous hisam h.opened (k := b) rfl hmac fun i _ => Iff.rfl
    | eq =>
      refine hab.seeksType_of_none hisam fun i hi hin => ?_
      exact absurd (lt_of_le_of_lt hin.1 hin.2) (by omega)
    | ge => exact hab.seeksType_of_success hisam (i := b) hb rfl (show a ≤ b by omega)
    | gt => exact hab.seeksType_of_success hisam (i := b) hb rfl (le_rfl)

end Correct

/-- Each type of seek finds what it wants, and the bisection the first record not less than the
search key, just if no two records have the search key. -/
theorem seek_honours_iff {cbPage : Nat} {cursor : SeekFucb} (h : Seekable cbPage cursor) :
    (SeeksFirst cbPage cursor ∧ ∀ type, SeeksType cbPage cursor type) ↔
      ∀ i < cursor.fucb.scb.ispairMac, ∀ j < cursor.fucb.scb.ispairMac,
        (cursor.fucb.scb.record cbPage i).key = cursor.dataSearchKey →
        (cursor.fucb.scb.record cbPage j).key = cursor.dataSearchKey → i = j := by
  obtain ⟨a, b, hab⟩ := h.exists_around
  have hkey : ∀ i, (cursor.fucb.scb.record cbPage i).key = cursor.dataSearchKey ↔
      cursor.order cbPage i = .eq := by
    intro i
    rw [SeekFucb.order, KeyOrder.cmpKey_eq_compare]
    exact Std.LawfulEqCmp.compare_eq_iff_eq.symm
  simp only [hkey]
  rw [hab.unique_iff]
  have hmac := hab.le_n
  constructor
  · rintro ⟨hfirst, htype⟩
    by_contra hlt
    obtain ⟨err, fucb', hseek, hfound⟩ := h.seek_found hab
    cases hfound with
    | empty hzero => omega
    | less hpos ha => omega
    | greater ha hb => omega
    | equal k ha hb =>
      -- the first record of the key is followed by another, and that is where the last type ends
      obtain ⟨i, hi, hcurr, hnotless, hbefore⟩ : ∃ i < cursor.fucb.scb.ispairMac, (k : Int) = i ∧
          cursor.order cbPage i ≠ .lt ∧ ∀ j < i, cursor.order cbPage j = .lt := by
        obtain ⟨err, fucb', hseek', hcurr⟩ := hfirst ⟨k, by omega,
          fun hless => absurd ((hab.less k (by omega)).mp hless) (by omega)⟩
        obtain ⟨rfl, rfl⟩ := Prod.mk.inj (Option.some.inj (hseek.symm.trans hseek'))
        exact hcurr
      have hka : k = a := by
        by_contra hne
        exact absurd ((hab.less a (by omega)).mp (hbefore a (by omega))) (by omega)
      have hmove := (h.isamSortSeek_eq hseek .gt).trans (errIsamSortMoveNext_eq h.memory
        (k := k) rfl (show k < cursor.fucb.scb.ispairMac by omega))
      rw [if_pos (show k + 1 < cursor.fucb.scb.ispairMac by omega)] at hmove
      obtain ⟨err, cursor', hseek', -, hend⟩ := htype .gt
      obtain ⟨rfl, rfl⟩ := Prod.mk.inj (Option.some.inj (hmove.symm.trans hseek'))
      obtain ⟨j, hj, hcurr', hwants⟩ := hend rfl
      have hbj : b ≤ j := (hab.wants_iff .gt hj).mp hwants
      have hj' : ((k + 1 : Nat) : Int) = j := hcurr'
      omega
  · intro hunique
    refine ⟨?_, h.seeksType hab hunique⟩
    rintro ⟨i, hi, hnotless⟩
    have hai : a ≤ i := (hab.wants_iff .ge hi).mp hnotless
    obtain ⟨err, fucb', hseek, hfound⟩ := h.seek_found hab
    refine ⟨err, fucb', hseek, a, by omega, ?_, (hab.wants_iff .ge (by omega)).mpr (le_rfl),
      fun j hj => (hab.less j (by omega)).mpr hj⟩
    cases hfound with
    | empty hzero => omega
    | less hpos ha => omega
    | equal k ha hb => exact congrArg Int.ofNat (show k = a by omega)
    | greater ha hb => exact congrArg Int.ofNat ha.symm

/-- A scrollable sort of `inserted` that stayed in memory, with the search key `1`. -/
def seekOne (inserted : List Srec) : SeekFucb where
  fucb :=
    ((runSort 4096 (fun _ _ _ => 0) ⟨false, false⟩ (fun _ => ⟨0, []⟩) (fun _ => 0)
      inserted).map Prod.snd).getD
        ⟨errSORTOpen ⟨false, false⟩ (fun _ => ⟨0, []⟩) fun _ => 0, noMerge, -1⟩
  fTTScrollable := true
  fTTIndexed := false
  fKSPrepared := true
  dataSearchKey := [1]

theorem seekOne_seekable {inserted : List Srec}
    (hmemory : (seekOne inserted).fucb.scb.runs.isEmpty = true)
    (hcount : (seekOne inserted).fucb.scb.cRecords = (seekOne inserted).fucb.scb.ispairMac)
    (hsorted : ∀ j < (seekOne inserted).fucb.scb.ispairMac, ∀ i < j,
      KeyOrder.cmpKey ((seekOne inserted).fucb.scb.record 4096 i).key
        ((seekOne inserted).fucb.scb.record 4096 j).key ≠ .gt) :
    Seekable 4096 (seekOne inserted) where
  memory := List.isEmpty_iff.mp hmemory
  count := hcount
  sorted i j hij hj := hsorted j hj i hij
  opened := .inl rfl
  prepared := rfl

def threeOnes : List Srec := [⟨[1], [5]⟩, ⟨[1], [6]⟩, ⟨[1], [7]⟩]

/-- Three records of the search key: the seek for one that is less succeeds, on the first of the
three. -/
theorem threeOnes_seek_less : Seekable 4096 (seekOne threeOnes) ∧
    (seekOne threeOnes).fucb.scb.records 4096 = threeOnes ∧
    (errIsamSortSeek 4096 (seekOne threeOnes) .lt).map (fun r => (r.1, r.2.fucb.ispairCurr)) =
      some (.success, 0) ∧
    (errIsamSortSeek 4096 (seekOne threeOnes) .gt).map (fun r => (r.1, r.2.fucb.ispairCurr)) =
      some (.success, 2) ∧
    ¬ SeeksType 4096 (seekOne threeOnes) .lt := by
  have hall : ∀ i < (seekOne threeOnes).fucb.scb.ispairMac,
      (seekOne threeOnes).order 4096 i = .eq := by
    decide +kernel
  have hless : (errIsamSortSeek 4096 (seekOne threeOnes) .lt).map
      (fun r => (r.1, r.2.fucb.ispairCurr)) = some (.success, 0) := by
    decide +kernel
  refine ⟨seekOne_seekable (by decide +kernel) (by decide +kernel) (by decide +kernel),
    by decide +kernel, hless, by decide +kernel, ?_⟩
  rintro ⟨err, cursor', hseek, hiff, -⟩
  rw [hseek] at hless
  obtain ⟨i, hi, hwants⟩ := hiff.mp (Prod.mk.inj (Option.some.inj hless)).1
  have hlt : (seekOne threeOnes).order 4096 i = .lt := hwants
  rw [hall i hi] at hlt
  exact absurd hlt (by decide)

theorem oneOfThree_seeks : Seekable 4096 (seekOne [⟨[2], []⟩, ⟨[1], [5]⟩, ⟨[0], []⟩]) ∧
    SeeksFirst 4096 (seekOne [⟨[2], []⟩, ⟨[1], [5]⟩, ⟨[0], []⟩]) ∧
    ∀ type, SeeksType 4096 (seekOne [⟨[2], []⟩, ⟨[1], [5]⟩, ⟨[0], []⟩]) type := by
  have hseekable : Seekable 4096 (seekOne [⟨[2], []⟩, ⟨[1], [5]⟩, ⟨[0], []⟩]) :=
    seekOne_seekable (by decide +kernel) (by decide +kernel) (by decide +kernel)
  exact ⟨hseekable, (seek_honours_iff hseekable).mpr (by decide +kernel)⟩

end EseLinux.ExternalSort
