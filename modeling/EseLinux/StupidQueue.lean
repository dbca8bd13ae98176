import EseLinux.ByteMemory

/-!
The queue `CStupidQueue` of `collection.hxx`: elements of one size in a ring of memory that doubles
when it is full.  Counts and sizes are 32-bit; a memory access out of bounds or through a null
pointer, or a division by zero, ends the program.
-/

namespace EseLinux.StupidQueue

open ByteMemory List Option Nat

inductive Err where
  | success
  | outOfMemory
  | wrnEmptyQueue
  deriving DecidableEq

/-- Memory as `malloc` returns it. -/
structure Block where
  size : Nat
  bytes : Memory

def Block.read (b : Block) (off n : Nat) : Option (List UInt8) :=
  if off + n ≤ b.size then some (slice b.bytes off n) else none

def Block.write (b : Block) (off : Nat) (bs : List UInt8) : Option Block :=
  if off + bs.length ≤ b.size then some { b with bytes := store b.bytes off bs } else none

/-- `memcpy` from one part of a block to another. -/
def Block.copy (b : Block) (dst src n : Nat) : Option Block :=
  (b.read src n).bind (b.write dst)

structure Queue where
  cbElement : Nat
  iHead : Nat
  iTail : Nat
  cAlloc : Nat
  rg : Option Block

namespace Queue

def new (cbElement : Nat) : Queue := ⟨cbElement, 0, 0, 0, none⟩

def pvElement (q : Queue) (iElement : Nat) : Nat := iElement * q.cbElement % 2 ^ 32

def mGrowth : Nat := 2

/-- Once the old elements are copied to the start of the doubled memory, those that had wrapped
around are moved behind them. -/
def unwrap (q : Queue) : Option (Err × Queue) :=
  let half := q.cAlloc / mGrowth
  if half = 0 then none
  else
    let iT := (q.iTail + 1) % 2 ^ 32 % half
    if iT ≠ 0 then do
      let block ← q.rg
      let block ← block.copy (q.pvElement half) (q.pvElement 0) (iT * q.cbElement % 2 ^ 32)
      some (.success, { q with rg := some block, iTail := (half + q.iTail) % 2 ^ 32 })
    else some (.success, q)

/-- Doubles the memory.  `alloc` is what stands in the new memory, if there is any. -/
def errAdjustSize (q : Queue) (alloc : Option Memory) : Option (Err × Queue) :=
  let cNew := q.cAlloc * mGrowth % 2 ^ 32
  match alloc with
  | none => some (.outOfMemory, q)
  | some fresh => do
      let old ← q.rg
      let bytes ← old.read 0 (q.cAlloc * q.cbElement % 2 ^ 32)
      let block ← (Block.mk (q.cbElement * cNew % 2 ^ 32) fresh).write 0 bytes
      unwrap { q with cAlloc := cNew, rg := some block }

def putTail (q : Queue) (entry : List UInt8) : Option (Err × Queue) := do
  let iTail := (q.iTail + 1) % 2 ^ 32 % q.cAlloc
  let block ← q.rg
  let block ← block.write (q.pvElement iTail) entry
  some (.success, { q with iTail, rg := some block })

def errEnqueue (q : Queue) (alloc : Option Memory) (entry : List UInt8) : Option (Err × Queue) :=
  let first := if q.cAlloc = 0 then
      { q with cAlloc := 32, rg := alloc.map (Block.mk (q.cbElement * 32 % 2 ^ 32)) }
    else q
  if q.cAlloc = 0 ∧ first.rg.isNone then some (.outOfMemory, first)
  else if first.iHead = (first.iTail + 1) % 2 ^ 32 % first.cAlloc then do
    let r ← first.errAdjustSize alloc
    if r.1 ≠ .success then some r else r.2.putTail entry
  else first.putTail entry

def errPeek (q : Queue) : Option (Err × List UInt8) :=
  if q.iHead = q.iTail then some (.wrnEmptyQueue, [])
  else if q.cAlloc = 0 then none
  else do
    let block ← q.rg
    let entry ← block.read (q.pvElement ((q.iHead + 1) % 2 ^ 32 % q.cAlloc)) q.cbElement
    some (.success, entry)

def errDequeue (q : Queue) : Option (Err × List UInt8 × Queue) := do
  let (err, entry) ← q.errPeek
  if err = .success then
    some (err, entry, { q with iHead := (q.iHead + 1) % 2 ^ 32 % q.cAlloc })
  else some (err, entry, q)

end Queue

inductive Op where
  | enqueue (alloc : Option Memory) (entry : List UInt8)
  | peek
  | dequeue

abbrev Out := Err × List UInt8

def step (q : Queue) : Op → Option (Out × Queue)
  | .enqueue alloc entry => (q.errEnqueue alloc entry).map fun r => ((r.1, []), r.2)
  | .peek => q.errPeek.map fun r => (r, q)
  | .dequeue => q.errDequeue.map fun r => ((r.1, r.2.1), r.2.2)

/-- The queue that is meant.  An enqueue may fail and then changes nothing. -/
inductive Fifo : List (List UInt8) → Op → Out → List (List UInt8) → Prop
  | enqueued (es alloc entry) : Fifo es (.enqueue alloc entry) (.success, []) (es ++ [entry])
  | failed (es entry) : Fifo es (.enqueue none entry) (.outOfMemory, []) es
  | peeked (e es) : Fifo (e :: es) .peek (.success, e) (e :: es)
  | dequeued (e es) : Fifo (e :: es) .dequeue (.success, e) es
  | peekedNone : Fifo [] .peek (.wrnEmptyQueue, []) []
  | dequeuedNone : Fifo [] .dequeue (.wrnEmptyQueue, []) []

structure Ring (q : Queue) (es : List (List UInt8)) (b : Block) : Prop where
  rg : q.rg = some b
  size : b.size = q.cAlloc * q.cbElement
  fits : q.cAlloc * q.cbElement < 2 ^ 32
  cb_pos : 0 < q.cbElement
  two_le : 2 ≤ q.cAlloc
  head : q.iHead < q.cAlloc
  room : es.length < q.cAlloc
  tail : q.iTail = (q.iHead + es.length) % q.cAlloc
  stored : ∀ k (hk : k < es.length),
    slice b.bytes ((q.iHead + 1 + k) % q.cAlloc * q.cbElement) q.cbElement = es[k]

/-- The queue holds `es`, or has nothing allocated yet. -/
inductive Holds : Queue → List (List UInt8) → Prop
  | new {cbElement : Nat} (hpos : 0 < cbElement) : Holds (Queue.new cbElement) []
  | ring {q es b} (h : Ring q es b) : Holds q es

/-- What is asked of a step: the first memory is to be had, and a size that is allocated does not
wrap around. -/
def Allowed (q : Queue) : Op → Prop
  | .enqueue alloc _ =>
    if q.cAlloc = 0 then alloc.isSome ∧ 32 * q.cbElement < 2 ^ 32
    else q.iHead = (q.iTail + 1) % q.cAlloc → alloc.isSome → 2 * q.cAlloc * q.cbElement < 2 ^ 32
  | _ => True

def Sized (q : Queue) : Op → Prop
  | .enqueue _ entry => entry.length = q.cbElement
  | _ => True

section Correct

theorem mod_wrap {x c : Nat} (h : x < 2 * c) : x % c = if x < c then x else x - c := by
  split
  case isTrue hlt => exact mod_eq_of_lt hlt
  case isFalse hge =>
    rw [mod_eq_sub_mod (not_lt.mp hge), mod_eq_of_lt (by omega)]

variable {i : Nat}

theorem slot_le {c cb : Nat} (h : i < c) : i * cb + cb ≤ c * cb := by
  rw [← succ_mul]
  exact mul_le_mul_right cb h

variable {e : List UInt8}

theorem slice_store_slot (m : Memory) {j cb : Nat} (he : e.length = cb)
    (hij : i ≠ j) : slice (store m (i * cb) e) (j * cb) cb = slice m (j * cb) cb := by
  apply AgreeOn.slice_eq
  apply store_agreeOn
  rw [he]
  rcases lt_or_gt_of_ne hij with hlt | hgt
  · exact .inr (slot_le hlt)
  · exact .inl (slot_le hgt)

theorem slice_store_slice (m m' : Memory) {dst src off n k : Nat} (h : off + n ≤ k) :
    slice (store m dst (slice m' src k)) (dst + off) n = slice m' (src + off) n := by
  apply ext_getElem
  · rw [slice_length, slice_length]
  · intro i hi hi'
    rw [slice_length] at hi
    rw [slice_getElem, slice_getElem, store, slice_length, if_pos (by omega),
      getD_eq_getElem _ _ (by rw [slice_length]; omega), slice_getElem]
    congr 1
    omega

variable {q : Queue} {es : List (List UInt8)} {b : Block} {entry : List UInt8}

section

variable (h : Ring q es b)
include h

theorem Ring.cAlloc_lt : q.cAlloc < 2 ^ 32 :=
  lt_of_le_of_lt (Nat.le_mul_of_pos_right _ h.cb_pos) h.fits

theorem Ring.pvElement_eq (hi : i < q.cAlloc) : q.pvElement i = i * q.cbElement := by
  have hslot : i * q.cbElement + q.cbElement ≤ q.cAlloc * q.cbElement := slot_le hi
  have hfits := h.fits
  exact mod_eq_of_lt (by omega)

theorem Ring.tail_lt : q.iTail < q.cAlloc := by
  rw [h.tail]
  exact mod_lt _ (lt_of_lt_of_le (by decide) h.two_le)

theorem Ring.next_tail :
    (q.iTail + 1) % 2 ^ 32 % q.cAlloc = (q.iHead + 1 + es.length) % q.cAlloc := by
  have htail := h.tail_lt
  have hlt := h.cAlloc_lt
  rw [mod_eq_of_lt (show q.iTail + 1 < 2 ^ 32 by omega), h.tail, mod_add_mod]
  congr 1
  omega

theorem Ring.full_iff : q.iHead = (q.iTail + 1) % 2 ^ 32 % q.cAlloc ↔ es.length + 1 = q.cAlloc := by
  have hhead := h.head
  have hroom := h.room
  rw [h.next_tail, mod_wrap (by omega)]
  split <;> omega

theorem Ring.putTail (hroom : es.length + 1 < q.cAlloc) (hentry : entry.length = q.cbElement) :
    ∃ q' b', q.putTail entry = some (.success, q') ∧ Ring q' (es ++ [entry]) b' := by
  have hhead := h.head
  have hpos : 0 < q.cAlloc := by omega
  have hslot : (q.iHead + 1 + es.length) % q.cAlloc < q.cAlloc := mod_lt _ hpos
  obtain ⟨b', hb'⟩ : ∃ b' : Block, b' = ⟨b.size,
      store b.bytes ((q.iHead + 1 + es.length) % q.cAlloc * q.cbElement) entry⟩ := ⟨_, rfl⟩
  have hwrite : b.write (q.pvElement ((q.iHead + 1 + es.length) % q.cAlloc)) entry = some b' := by
    rw [h.pvElement_eq hslot, Block.write, if_pos, hb']
    rw [hentry, h.size]
    exact slot_le hslot
  have hput : q.putTail entry = some (.success,
      { q with iTail := (q.iHead + 1 + es.length) % q.cAlloc, rg := some b' }) := by
    simp only [Queue.putTail, h.next_tail, h.rg, bind_eq_bind, bind_some, hwrite]
  refine ⟨_, b', hput, rfl, ?_, h.fits, h.cb_pos, h.two_le, h.head, ?_, ?_, ?_⟩
  · rw [hb']
    exact h.size
  · rw [length_append]
    exact hroom
  · rw [length_append, length_singleton]
    dsimp only
    congr 1
    omega
  · intro k hk
    rw [length_append, length_singleton] at hk
    rw [hb']
    dsimp only
    rcases Nat.lt_succ_iff_lt_or_eq.mp hk with hlt | rfl
    · rw [getElem_append_left hlt, ← h.stored k hlt]
      apply slice_store_slot b.bytes hentry
      rw [mod_wrap (by omega), mod_wrap (by omega)]
      split <;> split <;> omega
    · rw [getElem_concat_length rfl]
      have hslice := slice_store b.bytes
        ((q.iHead + 1 + es.length) % q.cAlloc * q.cbElement) entry
      rwa [hentry] at hslice

theorem Ring.double (hfits : 2 * q.cAlloc * q.cbElement < 2 ^ 32)
    (fresh : Memory) : ∃ b', q.errAdjustSize (some fresh) =
        Queue.unwrap { q with cAlloc := 2 * q.cAlloc, rg := some b' } ∧
      b'.size = 2 * q.cAlloc * q.cbElement ∧
      ∀ i < q.cAlloc, slice b'.bytes (i * q.cbElement) q.cbElement =
        slice b.bytes (i * q.cbElement) q.cbElement := by
  have hsize := h.size
  have hle : q.cAlloc * q.cbElement ≤ 2 * q.cAlloc * q.cbElement :=
    mul_le_mul_right _ (by omega)
  have hdouble : q.cAlloc * Queue.mGrowth % 2 ^ 32 = 2 * q.cAlloc := by
    have hlt : 2 * q.cAlloc < 2 ^ 32 := lt_of_le_of_lt (Nat.le_mul_of_pos_right _ h.cb_pos) hfits
    rw [Queue.mGrowth, mul_comm, mod_eq_of_lt hlt]
  have hread : b.read 0 (q.cAlloc * q.cbElement % 2 ^ 32) =
      some (slice b.bytes 0 (q.cAlloc * q.cbElement)) := by
    rw [mod_eq_of_lt h.fits, Block.read, if_pos (by omega)]
  have hwrite : (Block.mk (2 * q.cAlloc * q.cbElement) fresh).write 0
        (slice b.bytes 0 (q.cAlloc * q.cbElement)) =
      some ⟨2 * q.cAlloc * q.cbElement,
        store fresh 0 (slice b.bytes 0 (q.cAlloc * q.cbElement))⟩ := by
    rw [Block.write, slice_length, if_pos (by dsimp only; omega)]
  refine ⟨⟨2 * q.cAlloc * q.cbElement,
    store fresh 0 (slice b.bytes 0 (q.cAlloc * q.cbElement))⟩, ?_, rfl, ?_⟩
  · simp only [Queue.errAdjustSize, h.rg, bind_eq_bind, bind_some, hdouble, hread,
      mul_comm q.cbElement, mod_eq_of_lt hfits, hwrite]
  · intro i hi
    have hpart : slice (store fresh 0 (slice b.bytes 0 (q.cAlloc * q.cbElement)))
        (0 + i * q.cbElement) q.cbElement = slice b.bytes (0 + i * q.cbElement) q.cbElement :=
      slice_store_slice fresh b.bytes (slot_le hi)
    rwa [zero_add] at hpart

theorem Ring.adjustSize (hfull : es.length + 1 = q.cAlloc)
    (hfits : 2 * q.cAlloc * q.cbElement < 2 ^ 32) (fresh : Memory) :
    ∃ q' b', q.errAdjustSize (some fresh) = some (.success, q') ∧ Ring q' es b' ∧
      q'.cAlloc = 2 * q.cAlloc ∧ q'.cbElement = q.cbElement := by
  obtain ⟨b', hadjust, hsize, hslots⟩ := h.double hfits fresh
  have hhead := h.head
  have hhalf : 2 * q.cAlloc / Queue.mGrowth = q.cAlloc := by
    rw [Queue.mGrowth]
    omega
  have htail : q.iTail = if q.iHead = 0 then es.length else q.iHead - 1 := by
    rw [h.tail, mod_wrap (by omega)]
    split <;> split <;> omega
  have hiT := h.full_iff.mpr hfull
  by_cases hzero : q.iHead = 0
  · -- nothing has wrapped around
    have hunwrap : Queue.unwrap { q with cAlloc := 2 * q.cAlloc, rg := some b' } =
        some (.success, { q with cAlloc := 2 * q.cAlloc, rg := some b' }) := by
      simp only [Queue.unwrap, hhalf, ← hiT]
      rw [if_neg (by omega), if_neg (by omega)]
    refine ⟨_, b', hadjust.trans hunwrap, ⟨rfl, hsize, hfits, h.cb_pos, ?_, ?_, ?_, ?_, ?_⟩,
      rfl, rfl⟩
    · dsimp only
      omega
    · dsimp only
      omega
    · dsimp only
      omega
    · dsimp only
      rw [htail, if_pos hzero, hzero, zero_add, mod_eq_of_lt (by omega)]
    · intro k hk
      dsimp only
      have hold := h.stored k hk
      rw [mod_eq_of_lt (by omega)] at hold ⊢
      rw [hslots _ (by omega)]
      exact hold
  · obtain ⟨b'', hb''⟩ : ∃ b'' : Block, b'' = ⟨b'.size, store b'.bytes (q.cAlloc * q.cbElement)
        (slice b'.bytes 0 (q.iHead * q.cbElement))⟩ := ⟨_, rfl⟩
    have hwrapped : q.iHead * q.cbElement ≤ q.cAlloc * q.cbElement :=
      mul_le_mul_right _ (hhead.le)
    have hcopy : b'.copy (q.cAlloc * q.cbElement) 0 (q.iHead * q.cbElement) = some b'' := by
      rw [Block.copy, Block.read, if_pos (by rw [hsize, mul_assoc]; omega), bind_some,
        Block.write, slice_length, if_pos (by rw [hsize, mul_assoc]; omega), hb'']
    have hunwrap : Queue.unwrap { q with cAlloc := 2 * q.cAlloc, rg := some b' } = some (.success,
        { q with cAlloc := 2 * q.cAlloc, rg := some b'', iTail := q.cAlloc + q.iTail }) := by
      have hlt := h.fits
      have htailLt : q.cAlloc + q.iTail < 2 ^ 32 := by
        have := h.tail_lt
        have : 2 * q.cAlloc ≤ 2 * q.cAlloc * q.cbElement := Nat.le_mul_of_pos_right _ h.cb_pos
        omega
      simp only [Queue.unwrap, hhalf, ← hiT, Queue.pvElement, zero_mul, zero_mod,
        mod_eq_of_lt hlt, mod_eq_of_lt (hwrapped.trans_lt hlt),
        mod_eq_of_lt htailLt, bind_eq_bind, bind_some, hcopy]
      rw [if_neg (by omega), if_pos (by omega)]
    refine ⟨_, b'', hadjust.trans hunwrap, ⟨rfl, ?_, hfits, h.cb_pos, ?_, ?_, ?_, ?_, ?_⟩, rfl, rfl⟩
    · rw [hb'']
      exact hsize
    · dsimp only
      omega
    · dsimp only
      omega
    · dsimp only
      omega
    · dsimp only
      rw [htail, if_neg hzero, mod_eq_of_lt (by omega)]
      omega
    · intro k hk
      dsimp only
      have hold := h.stored k hk
      rw [mod_wrap (by omega)] at hold
      rw [mod_eq_of_lt (by omega), hb'']
      dsimp only
      by_cases hin : q.iHead + 1 + k < q.cAlloc
      · rw [if_pos hin] at hold
        rw [AgreeOn.slice_eq (store_agreeOn _ _ _ _ _ (.inl (slot_le hin))), hslots _ hin]
        exact hold
      · -- an element that had wrapped around stands as far behind the old memory
        rw [if_neg hin] at hold
        have hpart : slice (store b'.bytes (q.cAlloc * q.cbElement)
              (slice b'.bytes 0 (q.iHead * q.cbElement)))
            (q.cAlloc * q.cbElement + (q.iHead + 1 + k - q.cAlloc) * q.cbElement) q.cbElement =
            slice b'.bytes (0 + (q.iHead + 1 + k - q.cAlloc) * q.cbElement) q.cbElement :=
          slice_store_slice b'.bytes b'.bytes (slot_le (by omega))
        rw [← add_mul, zero_add, hslots _ (by omega), hold] at hpart
        rw [← hpart]
        congr 2
        omega

end

theorem Ring.peek_cons (h : Ring q (e :: es) b) : q.errPeek = some (.success, e) := by
  have hhead := h.head
  have hroom := h.room
  have hlt := h.cAlloc_lt
  rw [length_cons] at hroom
  have hne : q.iHead ≠ q.iTail := by
    rw [h.tail, length_cons, mod_wrap (by omega)]
    split <;> omega
  have hslot : (q.iHead + 1) % q.cAlloc < q.cAlloc := mod_lt _ (by omega)
  have hread : b.read (q.pvElement ((q.iHead + 1) % q.cAlloc)) q.cbElement = some e := by
    rw [h.pvElement_eq hslot, Block.read, if_pos (by rw [h.size]; exact slot_le hslot)]
    exact congrArg some (h.stored 0 (succ_pos _))
  rw [Queue.errPeek, if_neg hne, if_neg (by omega)]
  simp only [mod_eq_of_lt (show q.iHead + 1 < 2 ^ 32 by omega), h.rg, bind_eq_bind,
    bind_some, hread]

theorem Ring.peek_nil (h : Ring q [] b) : q.errPeek = some (.wrnEmptyQueue, []) := by
  rw [Queue.errPeek, if_pos]
  rw [h.tail, length_nil, add_zero, mod_eq_of_lt h.head]

theorem Ring.dequeue (h : Ring q (e :: es) b) :
    ∃ q', q.errDequeue = some (.success, e, q') ∧ Ring q' es b ∧ q'.cbElement = q.cbElement := by
  have hhead := h.head
  have hroom := h.room
  have hlt := h.cAlloc_lt
  rw [length_cons] at hroom
  have hdequeue : q.errDequeue =
      some (.success, e, { q with iHead := (q.iHead + 1) % q.cAlloc }) := by
    simp only [Queue.errDequeue, h.peek_cons, bind_eq_bind, bind_some,
      mod_eq_of_lt (show q.iHead + 1 < 2 ^ 32 by omega), if_true]
  refine ⟨_, hdequeue, ⟨h.rg, h.size, h.fits, h.cb_pos, h.two_le, mod_lt _ (by omega),
    ?_, ?_, ?_⟩, rfl⟩
  · dsimp only
    omega
  · dsimp only
    rw [h.tail, length_cons, mod_add_mod]
    congr 1
    omega
  · intro k hk
    have hold := h.stored (k + 1) (succ_lt_succ hk)
    rw [getElem_cons_succ] at hold
    rw [← hold]
    rw [add_assoc, mod_add_mod]
    congr 3
    omega

variable {q' : Queue} {err : Err}

theorem putTail_sizes (h : q.putTail entry = some (err, q')) :
    q'.cAlloc = q.cAlloc ∧ q'.cbElement = q.cbElement := by
  simp only [Queue.putTail, bind_eq_bind, bind_eq_some_iff] at h
  obtain ⟨b, -, b', -, hsome⟩ := h
  obtain ⟨-, rfl⟩ := Prod.mk.inj (some.inj hsome)
  exact ⟨rfl, rfl⟩

theorem unwrap_sizes (h : q.unwrap = some (err, q')) :
    q'.cAlloc = q.cAlloc ∧ q'.cbElement = q.cbElement := by
  unfold Queue.unwrap at h
  dsimp only at h
  split at h
  · exact absurd h (by simp)
  · split at h
    · simp only [bind_eq_bind, bind_eq_some_iff] at h
      obtain ⟨b, -, b', -, hsome⟩ := h
      obtain ⟨-, rfl⟩ := Prod.mk.inj (some.inj hsome)
      exact ⟨rfl, rfl⟩
    · obtain ⟨-, rfl⟩ := Prod.mk.inj (some.inj h)
      exact ⟨rfl, rfl⟩

theorem Ring.adjustSize_wrapped (h : Ring q es b) (hfits : ¬ 2 * q.cAlloc * q.cbElement < 2 ^ 32)
    {fresh : Memory} (hadjust : q.errAdjustSize (some fresh) = some (err, q')) :
    ¬ q'.cAlloc * q'.cbElement < 2 ^ 32 := by
  have hlt := h.cAlloc_lt
  have hfit := h.fits
  have hpos := h.cb_pos
  simp only [Queue.errAdjustSize, h.rg, bind_eq_bind, bind_some, Queue.mGrowth,
    bind_eq_some_iff] at hadjust
  obtain ⟨bytes, hread, b', hwrite, hunwrap⟩ := hadjust
  obtain ⟨halloc, hcb⟩ := unwrap_sizes hunwrap
  rw [halloc, hcb]
  by_cases hsmall : 2 * q.cAlloc < 2 ^ 32
  · rw [mul_comm q.cAlloc 2, mod_eq_of_lt hsmall]
    exact hfits
  · -- a count that wraps around leaves no memory for the old elements
    have hone : q.cbElement = 1 := by
      by_contra hne
      have : q.cAlloc * 2 ≤ q.cAlloc * q.cbElement := mul_le_mul_left _ (by omega)
      omega
    rw [hone, mul_one] at hread
    rw [hone, one_mul] at hwrite
    rw [Block.read, mod_eq_of_lt hlt] at hread
    split at hread
    · obtain rfl := some.inj hread
      rw [Block.write, slice_length] at hwrite
      split at hwrite
      case isTrue hle =>
        dsimp only at hle
        omega
      case isFalse => exact absurd hwrite (by simp)
    · exact absurd hread (by simp)

theorem Holds.sizes (h : Holds q es) :
    q.cAlloc * q.cbElement < 2 ^ 32 ∧ (q.cAlloc ≠ 0 → q.rg ≠ none) := by
  cases h with
  | new hpos => exact ⟨by simp [Queue.new], fun hne => absurd rfl hne⟩
  | ring h =>
    refine ⟨h.fits, fun _ => ?_⟩
    rw [h.rg]
    simp

/-- A step returns what the queue that is meant returns, and the queue still holds what that one
holds. -/
def Keeps (q : Queue) (es : List (List UInt8)) (op : Op) : Prop :=
  ∃ out q' es', step q op = some (out, q') ∧ Fifo es op out es' ∧ Holds q' es' ∧
    q'.cbElement = q.cbElement

theorem keeps_peek (h : Holds q es) : Keeps q es .peek := by
  cases h with
  | new hpos => exact ⟨(.wrnEmptyQueue, []), _, [], rfl, .peekedNone, .new hpos, rfl⟩
  | ring h =>
    cases es with
    | nil => exact ⟨_, q, [], by rw [step, h.peek_nil]; rfl, .peekedNone, .ring h, rfl⟩
    | cons e es =>
      exact ⟨_, q, e :: es, by rw [step, h.peek_cons]; rfl, .peeked e es, .ring h, rfl⟩

theorem keeps_dequeue (h : Holds q es) : Keeps q es .dequeue := by
  cases h with
  | new hpos => exact ⟨(.wrnEmptyQueue, []), _, [], rfl, .dequeuedNone, .new hpos, rfl⟩
  | ring h =>
    cases es with
    | nil =>
      refine ⟨(.wrnEmptyQueue, []), q, [], ?_, .dequeuedNone, .ring h, rfl⟩
      rw [step, Queue.errDequeue, h.peek_nil]
      rfl
    | cons e es =>
      obtain ⟨q', hdequeue, hring, hcb⟩ := h.dequeue
      refine ⟨(.success, e), q', es, ?_, .dequeued e es, .ring hring, hcb⟩
      rw [step, hdequeue]
      rfl

variable {alloc : Option Memory}

theorem Ring.keeps_putTail {q₀ : Queue}
    (h : Ring q es b) (hroom : es.length + 1 < q.cAlloc) (hentry : entry.length = q.cbElement)
    (hcb : q.cbElement = q₀.cbElement) (henqueue : q₀.errEnqueue alloc entry = q.putTail entry) :
    Keeps q₀ es (.enqueue alloc entry) := by
  obtain ⟨q', b', hput, hring⟩ := h.putTail hroom hentry
  refine ⟨(.success, []), q', es ++ [entry], ?_, .enqueued es alloc entry, .ring hring,
    (putTail_sizes hput).2.trans hcb⟩
  rw [step, henqueue, hput]
  rfl

theorem keeps_enqueue_new {cbElement : Nat} (hpos : 0 < cbElement)
    (hentry : entry.length = cbElement) :
    Keeps (Queue.new cbElement) [] (.enqueue alloc entry) ↔
      alloc.isSome ∧ 32 * cbElement < 2 ^ 32 := by
  constructor
  · rintro ⟨out, q', es', hstep, -, hholds, -⟩
    obtain ⟨hfits, hrg⟩ := hholds.sizes
    cases alloc with
    | none =>
      obtain ⟨-, rfl⟩ := Prod.mk.inj (some.inj hstep)
      exact absurd rfl (hrg (show 32 ≠ 0 by decide))
    | some fresh =>
      refine ⟨rfl, ?_⟩
      obtain ⟨⟨err, q''⟩, hput, hout⟩ := map_eq_some_iff.mp hstep
      obtain ⟨-, rfl⟩ := Prod.mk.inj hout
      obtain ⟨halloc, hcb⟩ := putTail_sizes hput
      rw [halloc, hcb] at hfits
      exact hfits
  · rintro ⟨hsome, hfits⟩
    obtain ⟨fresh, rfl⟩ := isSome_iff_exists.mp hsome
    have hring : Ring ⟨cbElement, 0, 0, 32, some ⟨cbElement * 32 % 2 ^ 32, fresh⟩⟩ []
        ⟨cbElement * 32 % 2 ^ 32, fresh⟩ := by
      refine ⟨rfl, ?_, hfits, hpos, show 2 ≤ 32 by decide, show 0 < 32 by decide,
        show 0 < 32 by decide, rfl, fun k hk => absurd hk (not_lt_zero k)⟩
      rw [mul_comm, mod_eq_of_lt hfits]
    exact hring.keeps_putTail (show 1 < 32 by decide) hentry rfl rfl

theorem Ring.enqueue_eq (h : Ring q es b) (alloc : Option Memory) (entry : List UInt8) :
    q.errEnqueue alloc entry =
      if es.length + 1 = q.cAlloc then (q.errAdjustSize alloc).bind fun r =>
        if r.1 ≠ .success then some r else r.2.putTail entry
      else q.putTail entry := by
  have htwo := h.two_le
  have halloc : q.cAlloc ≠ 0 := by omega
  simp only [Queue.errEnqueue, halloc, if_false, false_and, h.full_iff]
  rfl

theorem Ring.keeps_enqueue (h : Ring q es b) (hentry : entry.length = q.cbElement) :
    Keeps q es (.enqueue alloc entry) ↔
      (es.length + 1 = q.cAlloc → alloc.isSome → 2 * q.cAlloc * q.cbElement < 2 ^ 32) := by
  have henqueue := h.enqueue_eq alloc entry
  have hroom := h.room
  by_cases hfull : es.length + 1 = q.cAlloc
  · rw [if_pos hfull] at henqueue
    cases alloc with
    | none =>
      refine iff_of_true ?_ fun _ hsome => absurd hsome (by decide)
      exact ⟨(.outOfMemory, []), q, es, by rw [step, henqueue]; rfl, .failed es entry, .ring h, rfl⟩
    | some fresh =>
      constructor
      · rintro ⟨out, q', es', hstep, -, hholds, -⟩ - -
        by_contra hfits
        rw [step, henqueue] at hstep
        obtain ⟨⟨err, q''⟩, hbind, hout⟩ := map_eq_some_iff.mp hstep
        obtain ⟨-, rfl⟩ := Prod.mk.inj hout
        obtain ⟨⟨err', q₁⟩, hadjust, hput⟩ := bind_eq_some_iff.mp hbind
        have hwrapped := h.adjustSize_wrapped hfits hadjust
        split at hput
        · obtain ⟨-, rfl⟩ := Prod.mk.inj (some.inj hput)
          exact hwrapped hholds.sizes.1
        · obtain ⟨halloc, hcb⟩ := putTail_sizes hput
          rw [← halloc, ← hcb] at hwrapped
          exact hwrapped hholds.sizes.1
      · intro hfits
        obtain ⟨q', b', hadjust, hring, halloc, hcb⟩ := h.adjustSize hfull (hfits hfull rfl) fresh
        rw [hadjust] at henqueue
        exact hring.keeps_putTail (by omega) (hentry.trans hcb.symm) hcb henqueue
  · rw [if_neg hfull] at henqueue
    refine iff_of_true ?_ fun hlength => absurd hlength hfull
    exact h.keeps_putTail (by omega) hentry rfl henqueue

theorem Holds.keeps_iff (h : Holds q es) {op : Op} (hsized : Sized q op) :
    Keeps q es op ↔ Allowed q op := by
  cases op with
  | peek => exact iff_of_true (keeps_peek h) trivial
  | dequeue => exact iff_of_true (keeps_dequeue h) trivial
  | enqueue alloc entry =>
    cases h with
    | new hpos => exact keeps_enqueue_new hpos hsized
    | ring h =>
      have htwo := h.two_le
      have hfull := h.full_iff
      rw [mod_eq_of_lt (show q.iTail + 1 < 2 ^ 32 by
        have := h.tail_lt
        have := h.cAlloc_lt
        omega)] at hfull
      rw [h.keeps_enqueue hsized, Allowed, if_neg (by omega), hfull]

end Correct

def run : Queue → List Op → Option (List Out × Queue)
  | q, [] => some ([], q)
  | q, op :: ops => (step q op).bind fun r => (run r.2 ops).map fun r' => (r.1 :: r'.1, r'.2)

inductive FifoRun : List (List UInt8) → List Op → List Out → List (List UInt8) → Prop
  | nil (es) : FifoRun es [] [] es
  | cons {es op out es' ops outs es''} (h : Fifo es op out es') (hs : FifoRun es' ops outs es'') :
      FifoRun es (op :: ops) (out :: outs) es''

def AllowedRun : Queue → List Op → Prop
  | _, [] => True
  | q, op :: ops => Sized q op ∧ Allowed q op ∧
      ∀ out q', step q op = some (out, q') → AllowedRun q' ops

theorem Holds.run {q : Queue} {es : List (List UInt8)} (h : Holds q es) (ops : List Op)
    (hallowed : AllowedRun q ops) :
    ∃ outs q' es', run q ops = some (outs, q') ∧ FifoRun es ops outs es' ∧ Holds q' es' := by
  induction ops generalizing q es with
  | nil => exact ⟨[], q, es, rfl, .nil es, h⟩
  | cons op ops ih =>
    obtain ⟨hsized, hop, hrest⟩ := hallowed
    obtain ⟨out, q', es', hstep, hfifo, hholds, -⟩ := (h.keeps_iff hsized).mpr hop
    obtain ⟨outs, q'', es'', hrun, hruns, hholds'⟩ := ih hholds (hrest out q' hstep)
    refine ⟨out :: outs, q'', es'', ?_, .cons hfifo hruns, hholds'⟩
    rw [StupidQueue.run, hstep, bind_some, hrun]
    rfl

/-- A step of a queue that holds `es` is a step of the queue that is meant just if the first memory
is to be had and no size wraps around.  A run of such steps is a run of the queue that is meant. -/
theorem queue_keeps_iff {cbElement : Nat} (hpos : 0 < cbElement) :
    (∀ q es op, Holds q es → Sized q op → (Keeps q es op ↔ Allowed q op)) ∧
      ∀ ops, AllowedRun (Queue.new cbElement) ops →
        ∃ outs q' es', run (Queue.new cbElement) ops = some (outs, q') ∧
          FifoRun [] ops outs es' ∧ Holds q' es' :=
  ⟨fun _ _ _ h hsized => h.keeps_iff hsized, fun ops hallowed => (Holds.new hpos).run ops hallowed⟩

/-- An enqueue that finds no memory leaves a queue that counts 32 elements at a null pointer, where
the next enqueue stores its element. -/
theorem failed_enqueue_unusable :
    (step (Queue.new 4) (.enqueue none [1, 2, 3, 4])).map Prod.fst = some (.outOfMemory, []) ∧
      run (Queue.new 4)
        [.enqueue none [1, 2, 3, 4], .enqueue (some fun _ => 0) [5, 6, 7, 8]] = none :=
  ⟨rfl, rfl⟩

/-- An element enqueued and dequeued. -/
theorem oneElement_keeps :
    AllowedRun (Queue.new 4) [.enqueue (some fun _ => 0) [1, 2, 3, 4], .dequeue] ∧
      ∃ outs q' es', run (Queue.new 4) [.enqueue (some fun _ => 0) [1, 2, 3, 4], .dequeue] =
          some (outs, q') ∧
        FifoRun [] [.enqueue (some fun _ => 0) [1, 2, 3, 4], .dequeue] outs es' ∧
        Holds q' es' := by
  have hallowed : AllowedRun (Queue.new 4)
      [.enqueue (some fun _ => 0) [1, 2, 3, 4], .dequeue] :=
    ⟨rfl, ⟨rfl, by decide⟩, fun _ _ _ => ⟨trivial, trivial, fun _ _ _ => trivial⟩⟩
  exact ⟨hallowed, (queue_keeps_iff (by decide)).2 _ hallowed⟩

end EseLinux.StupidQueue
