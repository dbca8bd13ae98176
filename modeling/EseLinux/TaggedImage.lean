import EseLinux.PageFormat
import EseLinux.TaggedColumns
import Mathlib.Data.List.TakeWhile

/-!
The tagged columns of a record as an offset table, in the order of their ranks.
-/

namespace EseLinux.TaggedColumns

open BitField ByteMemory OffsetTable PageFormat

/-- The work buffer: the record length, and the bytes of the record from `ibTagged` on. -/
structure Rec where
  cbPage : Nat
  cbKeyMost : Nat
  ibTagged : Nat
  buf : Memory
  cbRec : Nat

def Rec.fSmallPage (r : Rec) : Bool := fIsSmallPage r.cbPage

/-- `CPAGE::CbPageDataMax`: the page without its header, one tag, and the tag of an insertion. -/
def cbNDNodeMost (cbPage : Nat) : Nat :=
  cbPage - (if fIsSmallPage cbPage then 40 else 80) - cbTag - cbTag

def cbRecordMost (cbPage cbKeyMost : Nat) : Nat :=
  if fIsSmallPage cbPage then cbNDNodeMost cbPage - 2 - max 255 (2 + cbKeyMost)
  else cbNDNodeMost cbPage - 2 - 2 - cbKeyMost

def Rec.tagFields (r : Rec) : TagFields :=
  let cb := r.cbRec - r.ibTagged
  { fSmallPage := r.fSmallPage
    buf := r.buf
    cbTaggedColumns := cb
    cTaggedColumns := if cb = 0 then 0 else (tagfldFormat r.fSmallPage).ib r.buf 0 0 / cbTagfld }

structure Holds (t : TagFields) (items : List Item) : Prop where
  table : Table t.format t.buf 0 items t.cbTaggedColumns
  count : t.cTaggedColumns = items.length

theorem ulPred_eq {n : Nat} (hpos : 1 ≤ n) (hlt : n ≤ 2 ^ 32) : ulPred n = n - 1 := by
  simp only [ulPred]
  omega

structure Column where
  fid : Nat
  fDerived : Bool
deriving DecidableEq, Repr

def Column.rank (c : Column) : Nat := c.fid + 2 ^ 31 * (!c.fDerived).toNat

theorem cmpKey_eq {fid w : Nat} (hfid : fid < 65536) :
    TagFields.cmpKey fid w = (Column.mk fid (decide (w &&& TagFields.fDerivedBit ≠ 0))).rank := by
  have hmask : 0x8000ffff &&& (fid + 65536 * w) = fid + 2 ^ 31 * (w.testBit 15).toNat := by
    have hand := and_add_two_pow_mul (k := 16) (p := 0xffff) (q := fid) (by decide) hfid 0x8000 w
    rw [Nat.and_comm 0xffff, show (0xffff : Nat) = 2 ^ 16 - 1 from rfl,
      Nat.and_two_pow_sub_one_eq_mod, Nat.mod_eq_of_lt hfid, Nat.and_comm 0x8000,
      show (0x8000 : Nat) = 2 ^ 15 from rfl, Nat.and_two_pow] at hand
    rw [show (0x8000ffff : Nat) = 2 ^ 16 - 1 + 2 ^ 16 * 2 ^ 15 from rfl,
      show (65536 : Nat) = 2 ^ 16 from rfl, hand]
    omega
  have hbit : decide (w &&& TagFields.fDerivedBit ≠ 0) = w.testBit 15 := by
    rw [TagFields.fDerivedBit, show (0x8000 : Nat) = 2 ^ 15 from rfl, Nat.and_two_pow]
    cases w.testBit 15 <;> simp
  have hxor := xor_add_two_pow_mul (k := 31) (show fid < 2 ^ 31 by omega) (w.testBit 15).toNat 1
  rw [TagFields.cmpKey, hmask, hbit, Column.rank]
  refine hxor.trans ?_
  cases w.testBit 15 <;> rfl

theorem lowerBound_eq {less : Nat → Bool} {fuel p n cut : Nat} (hfuel : n ≤ fuel) (hp : p ≤ cut)
    (hcut : cut ≤ p + n) (hless : ∀ i, p ≤ i → i < p + n → (less i = true ↔ i < cut)) :
    TagFields.lowerBound less fuel p n = cut := by
  induction fuel generalizing p n with
  | zero =>
    rw [TagFields.lowerBound]
    omega
  | succ fuel ih =>
    rw [TagFields.lowerBound]
    split
    · omega
    case isFalse hn =>
      have hhalf := hless (p + n / 2) (by omega) (by omega)
      dsimp only
      split
      case isTrue hlt =>
        have hlt' := hhalf.mp hlt
        refine ih (by omega) (by omega) (by omega) fun i hlo hhi => hless i (by omega) ?_
        omega
      case isFalse hge =>
        have hge' : ¬ p + n / 2 < cut := fun h => hge (hhalf.mpr h)
        exact ih (by omega) hp (by omega) fun i hlo hhi => hless i hlo (by omega)

theorem newIbWord_derived (fDerived : Bool) :
    decide (TagFields.newIbWord fDerived &&& TagFields.fDerivedBit ≠ 0) = fDerived := by
  cases fDerived <;> decide

theorem cmpKey_new (col : Column) (hfid : col.fid < 65536) :
    TagFields.cmpKey col.fid (TagFields.newIbWord col.fDerived) = col.rank := by
  rw [cmpKey_eq hfid, newIbWord_derived]

end EseLinux.TaggedColumns
