import EseLinux.Bisect
import EseLinux.SortQuick

/-!
The table `CTable` of `collection.hxx`: entries kept in the order of their keys, which need not be
unique.  Small tables are sorted by insertion and searched from the front, large ones are sorted
by partitions and bisected.
-/

namespace EseLinux.SortedTable

open SegmentSort SortQuick Function Std List

variable {α : Type*} {m n : Nat}

section Sorting

variable (cmp : α → α → Ordering)

def insertionSort (ikeyentryMin ikeyentryMax : Nat) (a : Nat → α) : Nat → α :=
  sortiInsertionSort cmp ikeyentryMin ikeyentryMax a

/-- Sorts the first, middle and last entries, so that the least of them is first. -/
def leastFirst (a : Nat → α) (first mid last : Nat) : Nat → α :=
  sortTwo cmp (sortTwo cmp (sortTwo cmp a first mid) first last) mid last

/-- Divides a part in two, with the divisor at the end of the first, at the index returned.  The
scan for entries to swap begins with the divisor itself. -/
def divideTable (a : Nat → α) (ikeyentryMin ikeyentryMax : Nat) : (Nat → α) × Nat :=
  let a' := leastFirst cmp a ikeyentryMin (ikeyentryMin + (ikeyentryMax - ikeyentryMin) / 2)
    (ikeyentryMax - 1)
  let r := partitionLoop cmp a' ikeyentryMin ikeyentryMin (ikeyentryMax - 1)
  (swap r.1 ikeyentryMin r.2, r.2)

/-- The larger and the smaller part.  If no entry is greater than the divisor, the divisor is a
part of its own. -/
def limits (ikeyentryMin ikeyentryMax last : Nat) : (Nat × Nat) × (Nat × Nat) :=
  if ikeyentryMax - (last + 1) = 0 then ((ikeyentryMin, last), (last, ikeyentryMax))
  else if ikeyentryMax - (last + 1) > last + 1 - ikeyentryMin then
    ((last + 1, ikeyentryMax), (ikeyentryMin, last + 1))
  else ((ikeyentryMin, last + 1), (last + 1, ikeyentryMax))

def ckeyentryMin : Nat := 32

def cpartMax : Nat := 16

def cost (part : Nat × Nat) : Nat := 2 * (part.2 - part.1 - 1) + 1

theorem cost_pos (part : Nat × Nat) : 0 < cost part := Nat.succ_pos _

theorem cost_mk (part : Nat × Nat) : cost (part.1, part.2) = cost part := rfl

theorem cost_limits {ikeyentryMin ikeyentryMax last : Nat} (hmin : ikeyentryMin ≤ last)
    (hmax : last < ikeyentryMax) (hsize : 1 < ikeyentryMax - ikeyentryMin) :
    cost (limits ikeyentryMin ikeyentryMax last).1 +
      cost (limits ikeyentryMin ikeyentryMax last).2 <
      cost (ikeyentryMin, ikeyentryMax) := by
  unfold limits cost
  split
  · dsimp only
    omega
  · split <;> (dsimp only; omega)

variable [TransCmp cmp]

theorem partitionLoop_self (a : Nat → α) {last : Nat} (h : m ≤ last) :
    partitionLoop cmp a m m last = partitionLoop cmp a m (m + 1) last := by
  have hself : cmp (a m) (a m) = .eq := ReflCmp.compare_self
  have hskip : skipLe cmp a m m last = skipLe cmp a m (m + 1) last := by
    rw [skipLe, if_pos ⟨h, by rw [hself]; decide⟩]
  conv_lhs => rw [partitionLoop]
  conv_rhs => rw [partitionLoop]
  rw [hskip]

omit [TransCmp cmp] in
theorem rearranged_leastFirst (a : Nat → α) {m n first mid last : Nat}
    (hfirst : m ≤ first ∧ first < n) (hmid : m ≤ mid ∧ mid < n) (hlast : m ≤ last ∧ last < n) :
    Rearranged m n a (leastFirst cmp a first mid last) :=
  ((rearranged_sortTwo cmp a hfirst hmid).trans (rearranged_sortTwo cmp _ hfirst hlast)).trans
    (rearranged_sortTwo cmp _ hmid hlast)

/-- The divisor ends at the index returned, after the entries not greater than it and before the
greater ones. -/
structure DividesAt (m n : Nat) (a : Nat → α) (r : (Nat → α) × Nat) : Prop where
  moved : Rearranged m n a r.1
  bound : m ≤ r.2 ∧ r.2 < n
  before : ∀ i, m ≤ i → i < r.2 → Le cmp (r.1 i) (r.1 r.2)
  behind : ∀ i, r.2 < i → i < n → Le cmp (r.1 r.2) (r.1 i)

theorem divideTable_spec (a : Nat → α) (h : 1 < n - m) :
    DividesAt cmp m n a (divideTable cmp a m n) := by
  simp only [divideTable]
  have hleast : Rearranged m n a (leastFirst cmp a m (m + (n - m) / 2) (n - 1)) :=
    rearranged_leastFirst cmp a (by omega) (by omega) (by omega)
  generalize leastFirst cmp a m (m + (n - m) / 2) (n - 1) = b at *
  rw [partitionLoop_self cmp b (by omega)]
  obtain ⟨hmoved, hbound, hbefore, hbehind⟩ := partitionLoop_divides cmp b (n - 1)
    (Nat.lt_add_one m) (by omega)
  generalize partitionLoop cmp b m (m + 1) (n - 1) = r at *
  have hdivisor : r.1 m = b m := hmoved.outside (by omega)
  rw [← hdivisor] at hbefore hbehind
  refine ⟨(hleast.trans (hmoved.mono (by omega) (by omega))).trans
    (rearranged_swap r.1 (by omega) (by omega)), by dsimp only; omega, ?_, ?_⟩
  · intro i hi hlt
    dsimp only at hlt ⊢
    rw [swap_right]
    by_cases hat : i = m
    · rw [hat, swap_left]
      exact hbefore r.2 (by omega) (le_rfl)
    · rw [swap_of_ne r.1 hat (by omega)]
      exact hbefore i (by omega) (by omega)
  · intro i hi hlt
    dsimp only at hi ⊢
    rw [swap_right, swap_of_ne r.1 (by omega) (by omega)]
    exact le_of_gt (hbehind i hi (by omega))

def tableParts (a : Nat → α) (ikeyentryMin ikeyentryMax : Nat) : (Nat × Nat) × (Nat × Nat) :=
  limits ikeyentryMin ikeyentryMax (divideTable cmp a ikeyentryMin ikeyentryMax).2

theorem cost_tableParts (a : Nat → α) (h : ¬ n - m < ckeyentryMin) :
    cost (tableParts cmp a m n).1 + cost (tableParts cmp a m n).2 < cost (m, n) := by
  unfold ckeyentryMin at h
  have hbound := (divideTable_spec cmp a (show 1 < n - m by omega)).bound
  exact cost_limits hbound.1 hbound.2 (by omega)

end Sorting

section Stack

variable (cmp : α → α → Ordering)

/-- The larger part waits on a stack, and is sorted by a recursive call when the stack is full. -/
def quickSort [TransCmp cmp] (a : Nat → α) (ikeyentryMin ikeyentryMax : Nat)
    (rgpart : List (Nat × Nat)) : Nat → α :=
  if _h : ikeyentryMax - ikeyentryMin < ckeyentryMin then
    match rgpart with
    | [] => insertionSort cmp ikeyentryMin ikeyentryMax a
    | part :: rgpart =>
      quickSort (insertionSort cmp ikeyentryMin ikeyentryMax a) part.1 part.2 rgpart
  else if rgpart.length < cpartMax then
    quickSort (divideTable cmp a ikeyentryMin ikeyentryMax).1
      (tableParts cmp a ikeyentryMin ikeyentryMax).2.1
      (tableParts cmp a ikeyentryMin ikeyentryMax).2.2
      ((tableParts cmp a ikeyentryMin ikeyentryMax).1 :: rgpart)
  else
    quickSort
      (quickSort (divideTable cmp a ikeyentryMin ikeyentryMax).1
        (tableParts cmp a ikeyentryMin ikeyentryMax).1.1
        (tableParts cmp a ikeyentryMin ikeyentryMax).1.2 [])
      (tableParts cmp a ikeyentryMin ikeyentryMax).2.1
      (tableParts cmp a ikeyentryMin ikeyentryMax).2.2 rgpart
termination_by cost (ikeyentryMin, ikeyentryMax) + (rgpart.map cost).sum
decreasing_by
  · rw [map_cons, sum_cons, cost_mk]
    have := cost_pos (ikeyentryMin, ikeyentryMax)
    omega
  all_goals
    have hcost := cost_tableParts cmp a _h
    simp only [map_cons, map_nil, sum_cons, sum_nil, cost_mk]
    omega

variable [TransCmp cmp]

theorem pending_tableParts {lo hi : Nat} {a : Nat → α} {parts : List (Nat × Nat)}
    (h : Pending (Le cmp) lo hi a ((m, n) :: parts)) (hsize : ¬ n - m < ckeyentryMin) :
    Rearranged lo hi a (divideTable cmp a m n).1 ∧ Pending (Le cmp) lo hi (divideTable cmp a m n).1
        ((tableParts cmp a m n).1 :: (tableParts cmp a m n).2 :: parts) := by
  unfold ckeyentryMin at hsize
  have hin := h.inside _ mem_cons_self
  obtain ⟨hmoved, hbound, hbefore, hbehind⟩ := divideTable_spec cmp a (show 1 < n - m by omega)
  refine ⟨hmoved.mono hin.1 hin.2, ?_⟩
  unfold tableParts limits
  generalize hr : divideTable cmp a m n = r at *
  split
  · exact h.split hmoved hbound.1 hbound.2 (by omega) hbefore hbehind
  · split
    · exact .exchange (h.split hmoved hbound.1 hbound.2 (by omega) hbefore hbehind)
    · exact h.split hmoved hbound.1 hbound.2 (by omega) hbefore hbehind

theorem quickSort_pending (a : Nat → α) (m n : Nat) (rgpart : List (Nat × Nat)) {lo hi : Nat}
    (h : Pending (Le cmp) lo hi a ((m, n) :: rgpart)) :
    Rearranged lo hi a (quickSort cmp a m n rgpart) ∧
      SortedOn (Le cmp) lo hi (quickSort cmp a m n rgpart) := by
  fun_induction quickSort cmp a m n rgpart generalizing lo hi with
  | case1 a m n hsize =>
    exact (h.solve (sortiInsertionSort_spec cmp m n a)).imp_right Pending.sortedOn
  | case2 a m n hsize part rgpart ih =>
    exact sorts_of_step (h.solve (sortiInsertionSort_spec cmp m n a)) ih
  | case3 a m n rgpart hsize hroom ih =>
    exact sorts_of_step ((pending_tableParts cmp h hsize).imp_right Pending.exchange) ih
  | case4 a m n rgpart hsize hroom ihcall ih =>
    -- the stack is full, so the larger part is sorted by a call of its own
    obtain ⟨hmoved, hparts⟩ := pending_tableParts cmp h hsize
    obtain ⟨hcall, hparts⟩ := hparts.solve (ihcall (pending_whole (Le cmp) _ _ _))
    exact sorts_of_step ⟨hmoved.trans hcall, hparts⟩ ih

end Stack

inductive Err where
  | success
  | outOfMemory
  | keyChange
  deriving DecidableEq

inductive Search where
  | linear
  | binary
  deriving DecidableEq

/-- The entries of the array, of which the first `size` are counted, and the search chosen for
them. -/
structure Table (α : Type*) where
  entry : Nat → α
  size : Nat
  search : Search

namespace Table

def entries (t : Table α) : List α := (range t.size).map t.entry

def passes (fHigh : Bool) : Ordering → Bool
  | .lt => true
  | .eq => fHigh
  | .gt => false

def linearLoop (p : Nat → Bool) : Nat → Nat → Nat
  | 0, ikeyentry => ikeyentry
  | count + 1, ikeyentry => if p ikeyentry then linearLoop p count (ikeyentry + 1) else ikeyentry

def binaryLoop (p : Nat → Bool) (ikeyentryMin ikeyentryMax : Nat) : Nat :=
  if ikeyentryMin < ikeyentryMax then
    if p (ikeyentryMin + (ikeyentryMax - ikeyentryMin) / 2) then
      binaryLoop p (ikeyentryMin + (ikeyentryMax - ikeyentryMin) / 2 + 1) ikeyentryMax
    else binaryLoop p ikeyentryMin (ikeyentryMin + (ikeyentryMax - ikeyentryMin) / 2)
  else ikeyentryMax
termination_by ikeyentryMax - ikeyentryMin

/-- The halvings that leave nothing of `n`. -/
def log2n (n : Nat) : Nat := if n = 0 then 0 else log2n (n / 2) + 1

section Model

variable (cmp : α → α → Ordering) [TransCmp cmp]

def configureSearch (t : Table α) : Table α :=
  if 2 * log2n t.size < t.size then
    { t with entry := quickSort cmp t.entry 0 t.size [], search := .binary }
  else { t with entry := insertionSort cmp 0 t.size t.entry, search := .linear }

def setEntries : Nat → List α → (Nat → α) → (Nat → α)
  | _, [], a => a
  | ientry, e :: es, a => setEntries (ientry + 1) es (update a ientry e)

/-- Loads entries behind those of the table, if there is memory for them. -/
def errLoad (memory : Bool) (rgentry : List α) (t : Table α) : Err × Table α :=
  if memory then
    (.success, configureSearch cmp
      { t with entry := setEntries t.size rgentry t.entry, size := t.size + rgentry.length })
  else (.outOfMemory, t)

/-- Takes the entries of an array in place of its own, if there is memory for them. -/
def errCloneArray (memory : Bool) (array : List α) (t : Table α) : Err × Table α :=
  if memory then
    (.success, configureSearch cmp
      { t with entry := setEntries 0 array t.entry, size := array.length })
  else (.outOfMemory, t)

omit [TransCmp cmp] in
/-- Sets an entry that compares equal to the one at `ientry` in its place. -/
def errUpdateEntry (ientry : Nat) (e : α) (t : Table α) : Err × Table α :=
  if cmp (t.entry ientry) e = .eq then
    (.success, { t with entry := update t.entry ientry e })
  else (.keyChange, t)

end Model

section Seek

variable (t : Table α) (o : α → Ordering)

def find (fHigh : Bool) : Nat :=
  match t.search with
  | .linear => linearLoop (fun i => passes fHigh (o (t.entry i))) t.size 0
  | .binary => binaryLoop (fun i => passes fHigh (o (t.entry i))) 0 t.size

def pEntry (ientry : Nat) : Option Nat := if ientry < t.size then some ientry else none

/-- The entry before `ientry`; the greatest index of all, before zero, is that of none. -/
def pEntryBefore (ientry : Nat) : Option Nat := if ientry = 0 then none else t.pEntry (ientry - 1)

def seekLT : Option Nat :=
  let ikeyentry := t.find o false
  if ikeyentry < t.size ∧ o (t.entry ikeyentry) = .lt then t.pEntry ikeyentry
  else t.pEntryBefore ikeyentry

def seekLE : Option Nat :=
  let ikeyentry := t.find o false
  if ikeyentry < t.size ∧ o (t.entry ikeyentry) ≠ .gt then t.pEntry ikeyentry
  else t.pEntryBefore ikeyentry

def seekEQ : Option Nat :=
  let ikeyentry := t.find o false
  if ikeyentry < t.size ∧ o (t.entry ikeyentry) = .eq then t.pEntry ikeyentry else none

def seekHI : Option Nat :=
  let ikeyentry := t.find o true
  if 0 < ikeyentry ∧ o (t.entry (ikeyentry - 1)) = .eq then t.pEntry (ikeyentry - 1) else none

def seekGE : Option Nat :=
  let ikeyentry := t.find o true
  if 0 < ikeyentry ∧ o (t.entry (ikeyentry - 1)) = .eq then t.pEntry (ikeyentry - 1)
  else t.pEntry ikeyentry

def seekGT : Option Nat := t.pEntry (t.find o true)

end Seek

end Table

inductive Seek where
  | lt | le | eq | hi | ge | gt
  deriving DecidableEq

def Table.seek (t : Table α) (o : α → Ordering) : Seek → Option Nat
  | .lt => t.seekLT o
  | .le => t.seekLE o
  | .eq => t.seekEQ o
  | .hi => t.seekHI o
  | .ge => t.seekGE o
  | .gt => t.seekGT o

/-- No entry compares with the key as `c` says. -/
def Absent (o : Nat → Ordering) (n : Nat) (c : Ordering) : Prop := ∀ i < n, o i ≠ c

def First (o : Nat → Ordering) (n : Nat) (c : Ordering) (i : Nat) : Prop :=
  i < n ∧ o i = c ∧ ∀ j < i, o j ≠ c

def Last (o : Nat → Ordering) (n : Nat) (c : Ordering) (i : Nat) : Prop :=
  i < n ∧ o i = c ∧ ∀ j, i < j → j < n → o j ≠ c

/-- The entry that a seek is named after.  An equal one is preferred, and the nearest otherwise. -/
def Named (o : Nat → Ordering) (n : Nat) : Seek → Option Nat → Prop
  | .lt, none => Absent o n .lt
  | .lt, some i => Last o n .lt i
  | .le, none => Absent o n .lt ∧ Absent o n .eq
  | .le, some i => First o n .eq i ∨ Absent o n .eq ∧ Last o n .lt i
  | .eq, none | .hi, none => Absent o n .eq
  | .eq, some i => First o n .eq i
  | .hi, some i => Last o n .eq i
  | .ge, none => Absent o n .eq ∧ Absent o n .gt
  | .ge, some i => Last o n .eq i ∨ Absent o n .eq ∧ First o n .gt i
  | .gt, none => Absent o n .gt
  | .gt, some i => First o n .gt i

variable {i : Nat}

section Search

open Bisect

variable {p : Nat → Bool} {n k : Nat} {fHigh : Bool}

theorem linearLoop_eq (hp : ∀ i < n, p i = true ↔ i < k) (hkn : k ≤ n) (count : Nat)
    (hik : i ≤ k) (hcount : i + count = n) : Table.linearLoop p count i = k := by
  induction count generalizing i with
  | zero =>
    rw [Table.linearLoop]
    omega
  | succ count ih =>
    rw [Table.linearLoop]
    by_cases hlt : i < k
    · rw [if_pos ((hp i (by omega)).mpr hlt)]
      exact ih hlt (by omega)
    · rw [if_neg (fun hpass => hlt ((hp i (by omega)).mp hpass))]
      omega

theorem binaryLoop_eq (hp : ∀ i < n, p i = true ↔ i < k) {m' : Nat} (hm : m ≤ k) (hm' : k ≤ m')
    (hn : m' ≤ n) : Table.binaryLoop p m m' = k := by
  fun_induction Table.binaryLoop p m m' with
  | case1 m m' hlt hpass ih =>
    have hmid := (hp (m + (m' - m) / 2) (by omega)).mp hpass
    exact ih (by omega) hm' hn
  | case2 m m' hlt hpass ih =>
    have hmid := mt (hp (m + (m' - m) / 2) (by omega)).mpr hpass
    exact ih hm (by omega) (by omega)
  | case3 m m' hge => omega

variable {t : Table α} {o : α → Ordering} {a b : Nat}

theorem find_eq (hp : ∀ i < t.size, Table.passes fHigh (o (t.entry i)) = true ↔ i < k)
    (hkn : k ≤ t.size) : t.find o fHigh = k := by
  unfold Table.find
  cases t.search with
  | linear => exact linearLoop_eq hp hkn t.size (Nat.zero_le k) (Nat.zero_add _)
  | binary => exact binaryLoop_eq hp (Nat.zero_le k) hkn (Nat.le_refl _)

theorem find_low (h : Splits (fun i => o (t.entry i)) t.size a b) : t.find o false = a := by
  refine find_eq (fun i hi => ?_) (Nat.le_trans h.le_b h.le_n)
  rw [← h.less i hi]
  cases o (t.entry i) <;> decide

theorem find_high (h : Splits (fun i => o (t.entry i)) t.size a b) : t.find o true = b := by
  refine find_eq (fun i hi => ?_) h.le_n
  rw [← h.notGreater i hi]
  cases o (t.entry i) <;> decide

end Search

section Named

open Bisect

variable {c : Nat → Ordering} {n a b : Nat}

section

variable (h : Splits c n a b)
include h

theorem absent_lt (ha : a = 0) : Absent c n .lt :=
  fun i hi hlt => absurd ((h.less i hi).mp hlt) (by omega)

theorem absent_eq (hab : a = b) : Absent c n .eq := by
  intro i hi heq
  have := (h.eq_iff hi).mp heq
  omega

theorem absent_gt (hb : b = n) : Absent c n .gt :=
  fun i hi hgt => absurd ((h.gt_iff hi).mp hgt) (by omega)

theorem last_lt (ha : 0 < a) : Last c n .lt (a - 1) := by
  have hn : a ≤ n := Nat.le_trans h.le_b h.le_n
  refine ⟨by omega, (h.less _ (by omega)).mpr (by omega), fun j hj hjn hlt => ?_⟩
  exact absurd ((h.less j hjn).mp hlt) (by omega)

theorem first_eq (hab : a < b) : First c n .eq a := by
  have hn := h.le_n
  refine ⟨by omega, (h.eq_iff (by omega)).mpr ⟨le_rfl, hab⟩, fun j hj heq => ?_⟩
  exact absurd ((h.eq_iff (by omega)).mp heq).1 (by omega)

theorem last_eq (hab : a < b) : Last c n .eq (b - 1) := by
  have hn := h.le_n
  refine ⟨by omega, (h.eq_iff (by omega)).mpr (by omega), fun j hj hjn heq => ?_⟩
  exact absurd ((h.eq_iff hjn).mp heq).2 (by omega)

theorem first_gt (hb : b < n) : First c n .gt b := by
  refine ⟨hb, (h.gt_iff hb).mpr (le_rfl), fun j hj hgt => ?_⟩
  exact absurd ((h.gt_iff (by omega)).mp hgt) (by omega)

end

variable {t : Table α} {o : α → Ordering}

theorem seek_named (h : Splits (fun i => o (t.entry i)) t.size a b) (seek : Seek) :
    Named (fun i => o (t.entry i)) t.size seek (t.seek o seek) := by
  have hab := h.le_b
  have hn := h.le_n
  -- what stands at the bounds, where the seeks look
  have hlow : ¬(a < t.size ∧ o (t.entry a) = .lt) :=
    fun hlt => absurd ((h.less a hlt.1).mp hlt.2) (lt_irrefl a)
  have hequal : (a < t.size ∧ o (t.entry a) = .eq) ↔ a < b :=
    ⟨fun heq => ((h.eq_iff heq.1).mp heq.2).2,
      fun hlt => ⟨by omega, (h.eq_iff (by omega)).mpr ⟨le_rfl, hlt⟩⟩⟩
  have hnot : (a < t.size ∧ o (t.entry a) ≠ .gt) ↔ a < b :=
    ⟨fun hne => (h.notGreater a hne.1).mp hne.2,
      fun hlt => ⟨by omega, (h.notGreater a (by omega)).mpr hlt⟩⟩
  have hhigh : (0 < b ∧ o (t.entry (b - 1)) = .eq) ↔ a < b := by
    constructor
    · rintro ⟨hpos, heq⟩
      have := (h.eq_iff (by omega)).mp heq
      omega
    · exact fun hlt => ⟨by omega, (h.eq_iff (by omega)).mpr (by omega)⟩
  cases seek with
  | lt =>
    simp only [Table.seek, Table.seekLT, find_low h, if_neg hlow, Table.pEntryBefore, Table.pEntry]
    by_cases ha : a = 0
    · rw [if_pos ha]
      exact absent_lt h ha
    · rw [if_neg ha, if_pos (by omega)]
      exact last_lt h (by omega)
  | le =>
    simp only [Table.seek, Table.seekLE, find_low h, hnot, Table.pEntryBefore, Table.pEntry]
    by_cases heq : a < b
    · rw [if_pos heq, if_pos (by omega)]
      exact .inl (first_eq h heq)
    · rw [if_neg heq]
      by_cases ha : a = 0
      · rw [if_pos ha]
        exact ⟨absent_lt h ha, absent_eq h (by omega)⟩
      · rw [if_neg ha, if_pos (by omega)]
        exact .inr ⟨absent_eq h (by omega), last_lt h (by omega)⟩
  | eq =>
    simp only [Table.seek, Table.seekEQ, find_low h, hequal, Table.pEntry]
    by_cases heq : a < b
    · rw [if_pos heq, if_pos (by omega)]
      exact first_eq h heq
    · rw [if_neg heq]
      exact absent_eq h (by omega)
  | hi =>
    simp only [Table.seek, Table.seekHI, find_high h, hhigh, Table.pEntry]
    by_cases heq : a < b
    · rw [if_pos heq, if_pos (by omega)]
      exact last_eq h heq
    · rw [if_neg heq]
      exact absent_eq h (by omega)
  | ge =>
    simp only [Table.seek, Table.seekGE, find_high h, hhigh, Table.pEntry]
    by_cases heq : a < b
    · rw [if_pos heq, if_pos (by omega)]
      exact .inl (last_eq h heq)
    · rw [if_neg heq]
      by_cases hb : b < t.size
      · rw [if_pos hb]
        exact .inr ⟨absent_eq h (by omega), first_gt h hb⟩
      · rw [if_neg hb]
        exact ⟨absent_eq h (by omega), absent_gt h (by omega)⟩
  | gt =>
    simp only [Table.seek, Table.seekGT, find_high h, Table.pEntry]
    by_cases hb : b < t.size
    · rw [if_pos hb]
      exact first_gt h hb
    · rw [if_neg hb]
      exact absent_gt h (by omega)

end Named

section Order

variable {κ : Type*} (order : α ⊕ κ → α ⊕ κ → Ordering)

def cmpEntry (x y : α) : Ordering := order (.inl x) (.inl y)

def cmpKey (key : κ) (x : α) : Ordering := order (.inl x) (.inr key)

instance transCmp_cmpEntry [TransCmp order] : TransCmp (cmpEntry order) where
  eq_swap {x y} := by
    have hswap : order (.inl x) (.inl y) = (order (.inl y) (.inl x)).swap := OrientedCmp.eq_swap
    exact hswap
  isLE_trans {x y z} hxy hyz := by
    have htrans : (order (.inl x) (.inl z)).isLE = true := TransCmp.isLE_trans hxy hyz
    exact htrans

variable [TransCmp order]

/-- The tables that loads and updates make, with the entries loaded into them.  An update takes
the place of one of them. -/
inductive Reaches : Table α → List α → Prop
  | new (entry : Nat → α) : Reaches ⟨entry, 0, .linear⟩ []
  | load {t loaded} (h : Reaches t loaded) (memory : Bool) (rgentry : List α) :
      Reaches (t.errLoad (cmpEntry order) memory rgentry).2
        (if memory then loaded ++ rgentry else loaded)
  | cloneArray {t loaded} (h : Reaches t loaded) (memory : Bool) (array : List α) :
      Reaches (t.errCloneArray (cmpEntry order) memory array).2 (if memory then array else loaded)
  | update {t loaded rest} (h : Reaches t loaded) {ientry : Nat} (hentry : ientry < t.size) (e : α)
      (hloaded : loaded.Perm (t.entry ientry :: rest)) :
      Reaches (t.errUpdateEntry (cmpEntry order) ientry e).2
        (if cmpEntry order (t.entry ientry) e = .eq then e :: rest else loaded)

end Order

section Correct

variable (cmp : α → α → Ordering) [TransCmp cmp]

theorem configureSearch_spec (t : Table α) :
    (t.configureSearch cmp).size = t.size ∧
      Rearranged 0 t.size t.entry (t.configureSearch cmp).entry ∧
      SortedOn (Le cmp) 0 t.size (t.configureSearch cmp).entry := by
  unfold Table.configureSearch
  split
  · exact ⟨rfl, quickSort_pending cmp t.entry 0 t.size [] (pending_whole (Le cmp) _ _ _)⟩
  · exact ⟨rfl, sortiInsertionSort_spec cmp 0 t.size t.entry⟩

theorem map_setEntries (es : List α) (n : Nat) (a : Nat → α) :
    (range (n + es.length)).map (Table.setEntries n es a) = (range n).map a ++ es := by
  induction es generalizing n a with
  | nil => rw [append_nil]; rfl
  | cons e es ih =>
    have hfront : (range n).map (update a n e) = (range n).map a := by
      apply map_congr_left
      intro i hi
      exact update_of_ne (Nat.ne_of_lt (mem_range.mp hi)) e a
    have hlength : n + (es.length + 1) = n + 1 + es.length := by omega
    rw [Table.setEntries, length_cons, hlength, ih, range_succ, map_append,
      hfront, map_singleton, update_self, append_assoc]
    rfl

variable {rest : List α}

theorem perm_set {l : List α} (hi : i < l.length) (e : α)
    (hperm : l.Perm (l[i] :: rest)) : (l.set i e).Perm (e :: rest) := by
  have hrest : (l.eraseIdx i).Perm rest :=
    ((getElem_cons_eraseIdx_perm hi).trans hperm).cons_inv
  exact (set_perm_cons_eraseIdx hi e).trans (hrest.cons e)

theorem entries_update (t : Table α) (hi : i < t.size) (e : α) {loaded : List α}
    (hperm : t.entries.Perm loaded) (hloaded : loaded.Perm (t.entry i :: rest)) :
    ((range t.size).map (update t.entry i e)).Perm (e :: rest) := by
  have hset : (range t.size).map (update t.entry i e) = t.entries.set i e := by
    apply ext_getElem
    · simp [Table.entries]
    · intro j hj hj'
      by_cases hji : j = i
      · subst hji
        simp
      · simp [Table.entries, hji, Ne.symm hji]
  have hlength : i < t.entries.length := by simpa [Table.entries] using hi
  have hentry : t.entries[i] = t.entry i := by simp [Table.entries]
  rw [hset]
  apply perm_set hlength
  rw [hentry]
  exact hperm.trans hloaded

structure Holds (t : Table α) (loaded : List α) : Prop where
  perm : t.entries.Perm loaded
  sorted : SortedOn (Le cmp) 0 t.size t.entry

theorem holds_configureSearch (t : Table α) : Holds cmp (t.configureSearch cmp) t.entries := by
  obtain ⟨hsize, hmoved, hsorted⟩ := configureSearch_spec cmp t
  refine ⟨?_, by rwa [hsize]⟩
  rw [Table.entries, hsize]
  exact hmoved.perm

variable {cmp} {t : Table α} {loaded : List α}

theorem Holds.load (h : Holds cmp t loaded) (rgentry : List α) :
    Holds cmp (t.errLoad cmp true rgentry).2 (loaded ++ rgentry) := by
  obtain ⟨hperm, hsorted⟩ := holds_configureSearch cmp
    { t with entry := Table.setEntries t.size rgentry t.entry, size := t.size + rgentry.length }
  refine ⟨hperm.trans ?_, hsorted⟩
  rw [Table.entries, map_setEntries]
  exact h.perm.append_right rgentry

theorem holds_cloneArray (array : List α) :
    Holds cmp (t.errCloneArray cmp true array).2 array := by
  obtain ⟨hperm, hsorted⟩ := holds_configureSearch cmp
    { t with entry := Table.setEntries 0 array t.entry, size := array.length }
  refine ⟨hperm.trans ?_, hsorted⟩
  have hentries := map_setEntries array 0 t.entry
  rw [Nat.zero_add, range_zero, map_nil, nil_append] at hentries
  rw [Table.entries, hentries]

theorem Holds.update (h : Holds cmp t loaded) (hi : i < t.size) {e : α}
    (heq : cmp (t.entry i) e = .eq) (hloaded : loaded.Perm (t.entry i :: rest)) :
    Holds cmp { t with entry := update t.entry i e } (e :: rest) := by
  refine ⟨entries_update t hi e h.perm hloaded, ?_⟩
  intro j k hj hjk hk
  have hle := h.sorted j k hj hjk hk
  have hsame : Le cmp (t.entry i) e ∧ Le cmp e (t.entry i) := by
    have hswap : cmp e (t.entry i) = .eq := OrientedCmp.eq_comm.mp heq
    exact ⟨le_of_ne_gt (by rw [heq]; decide), le_of_ne_gt (by rw [hswap]; decide)⟩
  dsimp only at hk ⊢
  rcases eq_or_ne j i with rfl | hji
  · rw [update_self, update_of_ne (ne_of_gt hjk)]
    exact IsTrans.trans _ _ _ hsame.2 hle
  · rw [update_of_ne hji]
    rcases eq_or_ne k i with rfl | hki
    · rw [update_self]
      exact IsTrans.trans _ _ _ hle hsame.1
    · rw [update_of_ne hki]
      exact hle

end Correct

section Runs

variable {κ : Type*} {order : α ⊕ κ → α ⊕ κ → Ordering} [TransCmp order] {t : Table α}
  {loaded : List α}

theorem Reaches.holds (h : Reaches order t loaded) : Holds (cmpEntry order) t loaded := by
  induction h with
  | new entry => exact ⟨Perm.refl _, fun i j _ _ hj => absurd hj (Nat.not_lt_zero j)⟩
  | load _ memory rgentry ih =>
    cases memory with
    | false => exact ih
    | true => exact ih.load rgentry
  | cloneArray _ memory array ih =>
    cases memory with
    | false => exact ih
    | true => exact holds_cloneArray array
  | update _ hentry e hloaded ih =>
    unfold Table.errUpdateEntry
    split
    case isTrue heq => exact ih.update hentry heq hloaded
    case isFalse => exact ih

theorem Holds.exists_splits (h : Holds (cmpEntry order) t loaded) (key : κ) :
    ∃ a b, Bisect.Splits (fun i => cmpKey order key (t.entry i)) t.size a b := by
  have hle i j (hij : i ≤ j) (hj : j < t.size) :
      (order (.inl (t.entry i)) (.inl (t.entry j))).isLE := by
    rcases Nat.eq_or_lt_of_le hij with rfl | hlt
    · have hself : order (.inl (t.entry i)) (.inl (t.entry i)) = .eq := ReflCmp.compare_self
      rw [hself]
      rfl
    · exact h.sorted i j (Nat.zero_le i) hlt hj
  apply Bisect.exists_splits
  · exact fun i j hij hj hless => TransCmp.lt_of_isLE_of_lt (hle i j hij hj) hless
  · intro i j hij hj hnot
    have hle' := Ordering.ne_gt_iff_isLE.mp hnot
    exact Ordering.ne_gt_iff_isLE.mpr (TransCmp.isLE_trans (hle i j hij hj) hle')

end Runs

/-- After any loads and updates the table holds the entries loaded in order, and every seek returns
the entry it is named after, or none if there is none. -/
theorem table_sorted_and_seeks {κ : Type*} {order : α ⊕ κ → α ⊕ κ → Ordering}
    [TransCmp order] {t : Table α} {loaded : List α} (h : Reaches order t loaded) :
    t.entries.Perm loaded ∧
      (∀ i j, i < j → j < t.size → cmpEntry order (t.entry i) (t.entry j) ≠ .gt) ∧
      ∀ (key : κ) (seek : Seek), Named (fun i => cmpKey order key (t.entry i)) t.size seek
          (t.seek (cmpKey order key) seek) := by
  refine ⟨h.holds.perm, fun i j hij hj => ?_, fun key seek => ?_⟩
  · exact Ordering.ne_gt_iff_isLE.mpr (h.holds.sorted i j (Nat.zero_le i) hij hj)
  · obtain ⟨a, b, hsplits⟩ := h.holds.exists_splits key
    exact seek_named hsplits seek

def natOrder : Nat ⊕ Nat → Nat ⊕ Nat → Ordering := compareOn (Sum.elim id id)

instance transCmp_natOrder : TransCmp natOrder :=
  inferInstanceAs (TransCmp (compareOn (Sum.elim id id)))

def loadThree : Table Nat :=
  ((⟨fun _ => 0, 0, .linear⟩ : Table Nat).errLoad (cmpEntry natOrder) true [3, 1, 2]).2

theorem loadThree_sorted_and_seeks : Reaches natOrder loadThree [3, 1, 2] ∧
    loadThree.entries.Perm [3, 1, 2] ∧
    ∀ seek, Named (fun i => cmpKey natOrder 2 (loadThree.entry i)) loadThree.size seek
      (loadThree.seek (cmpKey natOrder 2) seek) := by
  have hreaches : Reaches natOrder loadThree [3, 1, 2] := .load (.new fun _ => 0) true [3, 1, 2]
  obtain ⟨hperm, -, hseeks⟩ := table_sorted_and_seeks hreaches
  exact ⟨hreaches, hperm, hseeks 2⟩

end EseLinux.SortedTable
