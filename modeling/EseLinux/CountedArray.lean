import EseLinux.DigitList

/-!
The dynamically resized array `CArray` of `collection.hxx`.

The array allocates more entries than it counts. Entries that are set one by one are counted;
`ErrLoadEntries` copies entries behind the counted ones and leaves the count as it is. Memory is
taken to be available.
-/

namespace EseLinux.CountedArray

open List

universe u

/-- The object representation of an entry: a fixed number of bytes that determine it. -/
structure Codec (E : Type u) where
  cb : Nat
  bytes : E → List UInt8
  ofBytes : List UInt8 → E
  cb_pos : 0 < cb
  bytes_length : ∀ e, (bytes e).length = cb
  ofBytes_bytes : ∀ e, ofBytes (bytes e) = e

namespace Codec

variable {E : Type u} (codec : Codec E)

def bytesAll (es : List E) : List UInt8 :=
  es.flatMap codec.bytes

def ofBytesAll (data : List UInt8) : List E :=
  (range (data.length / codec.cb)).map fun i =>
    codec.ofBytes ((data.drop (i * codec.cb)).take codec.cb)

theorem bytesAll_length (es : List E) : (codec.bytesAll es).length = es.length * codec.cb := by
  induction es with
  | nil => simp [bytesAll]
  | cons e es ih =>
    rw [bytesAll] at ih
    rw [bytesAll, flatMap_cons, length_append, ih, codec.bytes_length,
      length_cons, Nat.succ_mul, add_comm]

theorem ofBytesAll_append {head : List UInt8} (hhead : head.length = codec.cb)
    (rest : List UInt8) :
    codec.ofBytesAll (head ++ rest) = codec.ofBytes head :: codec.ofBytesAll rest := by
  have hlen : (head ++ rest).length / codec.cb = rest.length / codec.cb + 1 := by
    rw [length_append, hhead, Nat.add_div_left _ codec.cb_pos]
  rw [ofBytesAll, hlen, range_succ_eq_map, map_cons, map_map, ofBytesAll]
  congr 1
  · rw [zero_mul, drop_zero, take_left' hhead]
  · apply map_congr_left
    intro i _
    rw [Function.comp_apply, Nat.succ_mul, add_comm, ← drop_drop, drop_left' hhead]

theorem ofBytesAll_bytesAll (es : List E) : codec.ofBytesAll (codec.bytesAll es) = es := by
  induction es with
  | nil => simp [ofBytesAll, bytesAll]
  | cons e es ih =>
    rw [bytesAll, flatMap_cons, codec.ofBytesAll_append (codec.bytes_length e),
      codec.ofBytes_bytes]
    congr 1

end Codec

inductive Err where
  | invalidData
  deriving DecidableEq, Repr

/-- The allocated entries, of which the first `centry` are counted. -/
structure CArray (E : Type u) where
  rgentry : List E
  centry : Nat
  centryGrowth : Nat
  entryDefault : Option E
  centry_le : centry ≤ rgentry.length

namespace CArray

variable {E : Type u} [Inhabited E]

def empty : CArray E where
  rgentry := []
  centry := 0
  centryGrowth := 1
  entryDefault := none
  centry_le := Nat.le_refl 0

def entries (a : CArray E) : List E :=
  a.rgentry.take a.centry

def setCapacity (a : CArray E) (centryMax : Nat) : CArray E :=
  if a.rgentry.length = centryMax then a
  else
    { a with
      rgentry := a.rgentry.take (min a.centry centryMax) ++
        replicate (centryMax - min a.centry centryMax) default
      centry := min a.centry centryMax
      centry_le := by
        have := a.centry_le
        simp only [length_append, length_take, length_replicate]
        omega }

def sizeMax : Nat := 2 ^ 64 - 1

/-- The capacity asked for when `centry` entries do not fit, rounded up to the next bucket. -/
def grownCapacity (a : CArray E) (centry : Nat) : Nat :=
  let centryT := a.rgentry.length + (centry - a.rgentry.length - 1) / a.centryGrowth *
    a.centryGrowth
  if centryT ≤ sizeMax - a.centryGrowth then centryT + a.centryGrowth else centry

def grown (a : CArray E) (centry : Nat) : CArray E :=
  if a.rgentry.length < centry then a.setCapacity (a.grownCapacity centry) else a

/-- The entries that become counted take the default entry if there is one. -/
def fillDefault (a : CArray E) (centry : Nat) : List E :=
  match a.entryDefault with
  | some entry => a.rgentry.take a.centry ++ replicate (centry - a.centry) entry ++
      a.rgentry.drop (max centry a.centry)
  | none => a.rgentry

/-- The array with `centry` entries counted, for which `grown` has always made room. -/
def setSize (a : CArray E) (centry : Nat) : CArray E :=
  if h : centry ≤ ((a.grown centry).fillDefault centry).length then
    { a.grown centry with
      rgentry := (a.grown centry).fillDefault centry
      centry := centry
      centry_le := h }
  else a.grown centry

def setEntry (a : CArray E) (ientry : Nat) (entry : E) : CArray E :=
  let sized := if a.centry < ientry + 1 then a.setSize (ientry + 1) else a
  { sized with
    rgentry := sized.rgentry.set ientry entry
    centry_le := by
      rw [length_set]
      exact sized.centry_le }

/-- `ErrLoadEntries`: room is made behind the counted entries, and the bytes are copied there. -/
def loadEntries (codec : Codec E) (a : CArray E) (data : List UInt8) : Except Err (CArray E) :=
  if data.length % codec.cb ≠ 0 then .error .invalidData
  else
    let grown := a.setCapacity (data.length / codec.cb + a.centry)
    .ok { grown with
      rgentry := grown.rgentry.take grown.centry ++ codec.ofBytesAll data
      centry_le := by
        have := grown.centry_le
        rw [length_append, length_take]
        omega }

section Size

variable (a : CArray E) {centry : Nat}

omit [Inhabited E] in
@[simp] theorem entries_length : a.entries.length = a.centry := by
  have := a.centry_le
  rw [entries, length_take]
  omega

theorem setCapacity_length (centryMax : Nat) :
    (a.setCapacity centryMax).rgentry.length = centryMax := by
  have := a.centry_le
  unfold setCapacity
  split
  · assumption
  · simp only [length_append, length_take, length_replicate]
    omega

theorem setCapacity_centry {centryMax : Nat} (h : a.centry ≤ centryMax) :
    (a.setCapacity centryMax).centry = a.centry := by
  unfold setCapacity
  split
  · rfl
  · exact min_eq_left h

theorem setCapacity_entries {centryMax : Nat} (h : a.centry ≤ centryMax) :
    (a.setCapacity centryMax).entries = a.entries := by
  have := a.centry_le
  rw [entries, setCapacity_centry a h, setCapacity]
  split
  · rfl
  · simp only [min_eq_left h]
    rw [take_left' (by rw [length_take]; omega), entries]

omit [Inhabited E] in
theorem le_grownCapacity (hgrowth : 0 < a.centryGrowth) (h : a.rgentry.length < centry) :
    centry ≤ a.grownCapacity centry := by
  unfold grownCapacity
  simp only
  split
  · have := Nat.div_add_mod (centry - a.rgentry.length - 1) a.centryGrowth
    have := Nat.mod_lt (centry - a.rgentry.length - 1) hgrowth
    rw [Nat.mul_comm _ a.centryGrowth]
    omega
  · exact Nat.le_refl _

theorem grown_spec (hgrowth : 0 < a.centryGrowth) (centry : Nat) :
    centry ≤ (a.grown centry).rgentry.length ∧ (a.grown centry).centry = a.centry ∧
      (a.grown centry).entries = a.entries := by
  unfold grown
  split
  · rename_i h
    have hcap := a.le_grownCapacity hgrowth h
    have hle : a.centry ≤ a.grownCapacity centry := by
      have := a.centry_le
      omega
    exact ⟨by rw [setCapacity_length]; exact hcap, setCapacity_centry a hle,
      setCapacity_entries a hle⟩
  · exact ⟨by omega, rfl, rfl⟩

omit [Inhabited E] in
theorem fillDefault_spec (h : centry ≤ a.rgentry.length) :
    (a.fillDefault centry).length = a.rgentry.length ∧
      (a.fillDefault centry).take a.centry = a.entries := by
  have := a.centry_le
  unfold fillDefault
  split
  · constructor
    · simp only [length_append, length_take, length_replicate, length_drop]
      omega
    · rw [append_assoc, take_left' (by rw [length_take]; omega), entries]
  · exact ⟨rfl, rfl⟩

theorem setSize_spec (hgrowth : 0 < a.centryGrowth) (centry : Nat) :
    (a.setSize centry).centry = centry ∧ centry ≤ (a.setSize centry).rgentry.length ∧
      (a.setSize centry).rgentry.take a.centry = a.entries := by
  obtain ⟨hroom, hcount, hentries⟩ := a.grown_spec hgrowth centry
  obtain ⟨hlen, htake⟩ := (a.grown centry).fillDefault_spec hroom
  have hle : centry ≤ ((a.grown centry).fillDefault centry).length := by rw [hlen]; exact hroom
  rw [setSize, dif_pos hle]
  exact ⟨rfl, hle, by rw [← hcount, htake, hentries]⟩

theorem setCapacity_growth (centryMax : Nat) :
    (a.setCapacity centryMax).centryGrowth = a.centryGrowth := by
  unfold setCapacity
  split <;> rfl

theorem setSize_growth (centry : Nat) : (a.setSize centry).centryGrowth = a.centryGrowth := by
  have hgrown : (a.grown centry).centryGrowth = a.centryGrowth := by
    unfold grown
    split
    · exact a.setCapacity_growth _
    · rfl
  unfold setSize
  split
  · exact hgrown
  · exact hgrown

theorem setEntry_growth (ientry : Nat) (entry : E) :
    (a.setEntry ientry entry).centryGrowth = a.centryGrowth := by
  simp only [setEntry]
  split
  · exact a.setSize_growth _
  · rfl

theorem entries_setEntry_size (hgrowth : 0 < a.centryGrowth) (entry : E) :
    (a.setEntry a.centry entry).entries = a.entries ++ [entry] := by
  obtain ⟨hcount, hroom, htake⟩ := a.setSize_spec hgrowth (a.centry + 1)
  have hset : (a.setEntry a.centry entry).rgentry =
      (a.setSize (a.centry + 1)).rgentry.set a.centry entry := by
    simp [setEntry]
  have hcentry : (a.setEntry a.centry entry).centry = a.centry + 1 := by
    simp [setEntry, hcount]
  rw [entries, hset, hcentry, set_eq_take_append_cons_drop, if_pos (by omega), htake,
    append_cons, take_left' (by simp)]

end Size

theorem loadEntries_spec {codec : Codec E} {a : CArray E} {data : List UInt8} {b : CArray E}
    (h : a.loadEntries codec data = .ok b) :
    b.centry = a.centry ∧ b.rgentry = a.entries ++ codec.ofBytesAll data := by
  unfold loadEntries at h
  split at h
  · cases h
  · cases h
    have hle : a.centry ≤ data.length / codec.cb + a.centry := Nat.le_add_left ..
    refine ⟨setCapacity_centry a hle, ?_⟩
    change (a.setCapacity (data.length / codec.cb + a.centry)).entries ++ _ = _
    rw [setCapacity_entries a hle]

end CArray
end EseLinux.CountedArray
