import Mathlib.Data.Set.Card
import EseLinux.RedBlackMerge

/-!
The log redo map of `logredomap.cxx`: the pages of redo operations that could not be replayed, each
with the entry of the first of them.  The map is a red-black tree by page number.

Page numbers are 32 bits wide, so that the successor of the highest one is zero.  The map is taken
to be initialised.
-/

namespace EseLinux.LogRedoMap

open RedBlackTree SortedAssoc Function List

abbrev Pgno : Type := Fin (2 ^ 32)

def pgnoNull : Pgno := 0

def pgnoMax : Pgno := Fin.last (2 ^ 32 - 1)

structure Lgpos where
  ib : UInt16
  isec : UInt16
  lGeneration : UInt32
  deriving DecidableEq, Repr

def Lgpos.qw (lgpos : Lgpos) : Nat :=
  lgpos.ib.toNat + 2 ^ 16 * lgpos.isec.toNat + 2 ^ 32 * lgpos.lGeneration.toNat

def lgposMax : Lgpos := ⟨0xffff, 0xffff, 0x7fffffff⟩

def cmpLgpos (lgpos1 lgpos2 : Lgpos) : Int :=
  if lgpos1.qw < lgpos2.qw then -1 else if lgpos2.qw < lgpos1.qw then 1 else 0

structure RedoMapEntry where
  lgpos : Lgpos
  err : Int
  dbtimeBefore : Nat
  dbtimePage : Nat
  dbtimeAfter : Nat
  deriving DecidableEq, Repr

def dbtimeNil : Nat := 0xffffffffffffffff

def RedoMapEntry.default (err : Int) : RedoMapEntry :=
  ⟨lgposMax, err, dbtimeNil, dbtimeNil, dbtimeNil⟩

abbrev RedoMapTree : Type := Node Pgno RedoMapEntry

def fPgnoSet (rmt : RedoMapTree) (pgno : Pgno) : Bool :=
  (rmt.errFind pgno).1 = .success

inductive Err where
  | success
  | outOfMemory
  deriving DecidableEq, Repr

/-- The node is allocated before the key is looked for; a key that is there already is no error. -/
def errSetPgno (rmt : RedoMapTree) (pgno : Pgno) (rme : RedoMapEntry) (memory : Bool) :
    Option (Err × RedoMapTree) :=
  if memory then (rmt.errInsert pgno rme).map fun x => (.success, x.2)
  else some (.outOfMemory, rmt)

/-- The loop of `ClearPgno`, for at most so many rounds. -/
def clearLoop : Nat → RedoMapTree → Pgno → Pgno → Option RedoMapTree
  | 0, _, _, _ => none
  | rounds + 1, rmt, pgnoCurrent, pgnoEnd =>
    match rmt.findGreaterThanOrEqual pgnoCurrent none with
    | none => some rmt
    | some (pgnoFound, _) =>
      if pgnoFound ≤ pgnoEnd then
        (rmt.errDelete pgnoFound).bind fun x => clearLoop rounds x.2 (pgnoFound + 1) pgnoEnd
      else some rmt

/-- `ClearPgno`. The loop is followed for one round more than there are entries; `none` then stands
for a loop that is still running. -/
def clearPgno (rmt : RedoMapTree) (pgnoStart pgnoEnd : Pgno) : Option RedoMapTree :=
  clearLoop (rmt.entries.length + 1) rmt pgnoStart pgnoEnd

structure Oldest where
  pgno : Pgno
  rme : RedoMapEntry
  cpg : BitVec 32

def Oldest.next (o : Oldest) (pgnoFound : Pgno) (rmeFound : RedoMapEntry) : Oldest :=
  if cmpLgpos rmeFound.lgpos o.rme.lgpos < 0 then ⟨pgnoFound, rmeFound, o.cpg + 1⟩
  else { o with cpg := o.cpg + 1 }

/-- The loop of `GetOldestLgposEntry`, for at most so many rounds. -/
def oldestLoop : Nat → RedoMapTree → Pgno → Oldest → Option Oldest
  | 0, _, _, _ => none
  | rounds + 1, rmt, pgnoCurrent, o =>
    match rmt.findGreaterThanOrEqual pgnoCurrent none with
    | none => some o
    | some (pgnoFound, rmeFound) =>
      oldestLoop rounds rmt (pgnoFound + 1) (o.next pgnoFound rmeFound)

/-- `err` is what the variable of the oldest entry holds when it is constructed. -/
def getOldestLgposEntry (rounds : Nat) (rmt : RedoMapTree) (err : Int) : Option Oldest :=
  oldestLoop rounds rmt 1 ⟨pgnoNull, RedoMapEntry.default err, 0⟩

abbrev PgnoMap : Type := Pgno → Option RedoMapEntry

inductive Op where
  | set (pgno : Pgno) (rme : RedoMapEntry) (memory : Bool)
  | clear (pgnoStart pgnoEnd : Pgno)
  | oldest (err : Int)

/-- The first entry of a page counts, and a range is cleared as a whole. -/
def Op.meant (m : PgnoMap) : Op → PgnoMap
  | .set pgno rme memory => if memory ∧ m pgno = none then update m pgno (some rme) else m
  | .clear pgnoStart pgnoEnd => fun pgno =>
    if pgnoStart ≤ pgno ∧ pgno ≤ pgnoEnd then none else m pgno
  | .oldest _ => m

def exec (rmt : RedoMapTree) : Op → Option RedoMapTree
  | .set pgno rme memory => (errSetPgno rmt pgno rme memory).map Prod.snd
  | .clear pgnoStart pgnoEnd => clearPgno rmt pgnoStart pgnoEnd
  | .oldest _ => some rmt

noncomputable def cpgSet (m : PgnoMap) : Nat := Set.ncard {pgno | m pgno ≠ none}

def IsOldest (m : PgnoMap) (pgno : Pgno) (rme : RedoMapEntry) : Prop :=
  m pgno = some rme ∧ ∀ pgno' rme', m pgno' = some rme' → rme.lgpos.qw ≤ rme'.lgpos.qw

/-- `GetOldestLgposEntry` returns, with the number of pages and, if there are any, an oldest
entry. -/
def OldestRight (rmt : RedoMapTree) (err : Int) : Prop :=
  ∃ rounds o, getOldestLgposEntry rounds rmt err = some o ∧ o.cpg.toInt = cpgSet rmt.toMap ∧
    ((∃ pgno, rmt.toMap pgno ≠ none) → IsOldest rmt.toMap o.pgno o.rme)

def Keeps (rmt : RedoMapTree) (op : Op) : Prop :=
  (∃ rmt', exec rmt op = some rmt' ∧ rmt'.Valid ∧ rmt'.toMap = op.meant rmt.toMap) ∧
    ∀ err, op = .oldest err → OldestRight rmt err

/-- The highest page number is not cleared with a range that leaves lower pages.  The oldest entry
is asked for with neither the highest page number nor page zero set, not too many pages, and a
position that is less than the greatest. -/
def Allowed (m : PgnoMap) : Op → Prop
  | .set .. => True
  | .clear pgnoStart pgnoEnd =>
    ¬ (pgnoEnd = pgnoMax ∧ m pgnoMax ≠ none ∧ ∃ pgno < pgnoStart, m pgno ≠ none)
  | .oldest _ =>
    m pgnoMax = none ∧ m 0 = none ∧ cpgSet m < 2 ^ 31 ∧
      ((∃ pgno, m pgno ≠ none) → ∃ pgno rme, m pgno = some rme ∧ rme.lgpos.qw < lgposMax.qw)

section Pages

variable {pgno pgno' : Pgno}

theorem val_pgnoMax : pgnoMax.val = 2 ^ 32 - 1 := rfl

theorem le_pgnoMax (pgno : Pgno) : pgno ≤ pgnoMax := by
  rw [Fin.le_def, val_pgnoMax]
  omega

theorem succ_le_iff (h : pgno ≠ pgnoMax) : pgno + 1 ≤ pgno' ↔ pgno < pgno' := by
  have hlt : pgno.val + 1 < 2 ^ 32 := by
    have hne : pgno.val ≠ pgnoMax.val := fun heq => h (Fin.ext heq)
    rw [val_pgnoMax] at hne
    omega
  have hval : (pgno + 1).val = pgno.val + 1 := by
    rw [Fin.val_add]
    exact Nat.mod_eq_of_lt hlt
  rw [Fin.le_def, Fin.lt_def, hval]
  exact Nat.succ_le_iff

theorem pgnoMax_succ : pgnoMax + 1 = 0 := by
  apply Fin.ext
  rw [Fin.val_add, val_pgnoMax]
  rfl

end Pages

section Clear

variable {rmt : RedoMapTree} {pgnoCurrent pgnoEnd : Pgno}

theorem errDelete_found (hvalid : rmt.Valid) {pgno : Pgno} {rme : RedoMapEntry}
    (hset : rmt.toMap pgno = some rme) :
    ∃ x, rmt.errDelete pgno = some x ∧ x.2.Valid ∧ x.2.toMap = update rmt.toMap pgno none ∧
      x.2.entries.length < rmt.entries.length := by
  obtain ⟨rmt', hdelete, hvalid', hentries⟩ := hvalid.errDelete hset
  refine ⟨_, hdelete, hvalid', ?_, ?_⟩
  · rw [Node.toMap, hentries, value_erase hvalid.sorted]
    rfl
  · rw [hentries]
    exact length_filter_lt_length_iff_exists.mpr ⟨_, mem_of_value hset, by simp⟩

theorem clearLoop_range (hvalid : rmt.Valid) (hwrap : pgnoEnd = pgnoMax → rmt.toMap pgnoMax = none)
    {rounds : Nat} (hrounds : rmt.entries.length < rounds) :
    ∃ rmt', clearLoop rounds rmt pgnoCurrent pgnoEnd = some rmt' ∧ rmt'.Valid ∧
      rmt'.toMap = fun pgno =>
        if pgnoCurrent ≤ pgno ∧ pgno ≤ pgnoEnd then none else rmt.toMap pgno := by
  induction rounds generalizing rmt pgnoCurrent with
  | zero => exact absurd hrounds (Nat.not_lt_zero _)
  | succ rounds ih =>
    rw [clearLoop]
    cases hfind : rmt.findGreaterThanOrEqual pgnoCurrent none with
    | none =>
      refine ⟨rmt, rfl, hvalid, funext fun pgno => ?_⟩
      split
      case isTrue hin => exact hvalid.findGreaterThanOrEqual_none hfind pgno hin.1
      · rfl
    | some e =>
      obtain ⟨hle, hset, hleast⟩ := hvalid.findGreaterThanOrEqual_some hfind
      obtain ⟨pgnoFound, rme⟩ := e
      dsimp only at hle hset hleast ⊢
      by_cases hend : pgnoFound ≤ pgnoEnd
      · have hne : pgnoFound ≠ pgnoMax := by
          rintro rfl
          rw [hwrap (le_antisymm (le_pgnoMax _) hend)] at hset
          cases hset
        obtain ⟨x, hdelete, hvalid', hmap, hlength⟩ := errDelete_found hvalid hset
        have hwrap' : pgnoEnd = pgnoMax → x.2.toMap pgnoMax = none := by
          intro heq
          rw [hmap, update_of_ne hne.symm, hwrap heq]
        obtain ⟨rmt', hloop, hvalid'', hmap'⟩ := @ih x.2 (pgnoFound + 1) hvalid' hwrap' (by omega)
        refine ⟨rmt', ?_, hvalid'', ?_⟩
        · rw [if_pos hend, hdelete]
          exact hloop
        · rw [hmap', hmap]
          funext pgno
          simp only [succ_le_iff hne]
          rcases lt_trichotomy pgno pgnoFound with hlt | rfl | hgt
          · -- the pages before the one found are not set
            rw [if_neg (fun h => absurd h.1 (not_lt_of_gt hlt)), update_of_ne hlt.ne]
            split
            case isTrue hin =>
              by_contra hset'
              exact absurd (hleast pgno hin.1 hset') (not_le.mpr hlt)
            · rfl
          · rw [if_neg (fun h => lt_irrefl _ h.1), update_self, if_pos ⟨hle, hend⟩]
          · rw [update_of_ne hgt.ne']
            simp only [hgt, true_and, hle.trans hgt.le]
      · refine ⟨rmt, if_neg hend, hvalid, funext fun pgno => ?_⟩
        split
        case isTrue hin =>
          by_contra hset'
          exact hend ((hleast pgno hin.1 hset').trans hin.2)
        · rfl

/-- Once the highest page is cleared the search starts again at page zero. -/
theorem clearLoop_wraps (hvalid : rmt.Valid) (hset : rmt.toMap pgnoMax ≠ none)
    {rounds : Nat} (hrounds : rmt.entries.length < rounds) :
    ∃ rmt', clearLoop rounds rmt pgnoCurrent pgnoMax = some rmt' ∧ rmt'.Valid ∧
      rmt'.toMap = fun _ => none := by
  induction rounds generalizing rmt pgnoCurrent with
  | zero => exact absurd hrounds (Nat.not_lt_zero _)
  | succ rounds ih =>
    rw [clearLoop]
    cases hfind : rmt.findGreaterThanOrEqual pgnoCurrent none with
    | none =>
      exact absurd (hvalid.findGreaterThanOrEqual_none hfind pgnoMax (le_pgnoMax _)) hset
    | some e =>
      obtain ⟨-, hfound, -⟩ := hvalid.findGreaterThanOrEqual_some hfind
      obtain ⟨x, hdelete, hvalid', hmap, hlength⟩ := errDelete_found hvalid hfound
      dsimp only
      rw [if_pos (le_pgnoMax _), hdelete, Option.bind_some]
      rcases eq_or_ne e.1 pgnoMax with heq | hne
      · have hnone : x.2.toMap pgnoMax = none := by rw [hmap, heq, update_self]
        obtain ⟨rmt', hloop, hvalid'', hmap'⟩ :=
          @clearLoop_range x.2 0 pgnoMax hvalid' (fun _ => hnone) rounds (by omega)
        refine ⟨rmt', by rw [heq, pgnoMax_succ]; exact hloop, hvalid'', ?_⟩
        rw [hmap']
        funext pgno
        exact if_pos ⟨Fin.zero_le _, le_pgnoMax _⟩
      · refine ih hvalid' ?_ (by omega)
        rwa [hmap, update_of_ne hne.symm]

end Clear

section Scan

variable {rmt : RedoMapTree} {pgnoCurrent : Pgno}

def fromPgno (rmt : RedoMapTree) (pgno : Pgno) : List (Pgno × RedoMapEntry) :=
  rmt.entries.filter fun e => decide (pgno ≤ e.1)

theorem findGreaterThanOrEqual_eq_head (hvalid : rmt.Valid) :
    rmt.findGreaterThanOrEqual pgnoCurrent none = (fromPgno rmt pgnoCurrent).head? := by
  rw [Node.findGreaterThanOrEqual_eq hvalid.sorted, Option.or_none, fromPgno, head?_filter]

theorem fromPgno_succ (hvalid : rmt.Valid) {e : Pgno × RedoMapEntry}
    {rest : List (Pgno × RedoMapEntry)} (h : fromPgno rmt pgnoCurrent = e :: rest)
    (hne : e.1 ≠ pgnoMax) : fromPgno rmt (e.1 + 1) = rest := by
  have hsorted : Sorted (e :: rest) := h ▸ hvalid.sorted.filter _
  have hle : pgnoCurrent ≤ e.1 := by
    have hmem : e ∈ fromPgno rmt pgnoCurrent := h ▸ mem_cons_self
    simpa using (mem_filter.mp hmem).2
  have hsame : fromPgno rmt (e.1 + 1) =
      (fromPgno rmt pgnoCurrent).filter fun x => decide (e.1 < x.1) := by
    rw [fromPgno, fromPgno, filter_filter]
    apply filter_congr
    intro x _
    simp only [succ_le_iff hne]
    by_cases hlt : e.1 < x.1
    · simp [hlt, hle.trans hlt.le]
    · simp [hlt]
  rw [hsame, h, filter_cons_of_neg (by simp), filter_eq_self]
  intro x hx
  exact decide_eq_true (rel_of_pairwise_cons hsorted hx)

theorem oldestLoop_eq (hvalid : rmt.Valid) (hmax : rmt.toMap pgnoMax = none) (rounds : Nat)
    (o : Oldest) : oldestLoop rounds rmt pgnoCurrent o =
      if (fromPgno rmt pgnoCurrent).length < rounds then
        some ((fromPgno rmt pgnoCurrent).foldl (fun o e => o.next e.1 e.2) o)
      else none := by
  induction rounds generalizing pgnoCurrent o with
  | zero => rw [if_neg (Nat.not_lt_zero _), oldestLoop]
  | succ rounds ih =>
    rw [oldestLoop, findGreaterThanOrEqual_eq_head hvalid]
    cases hrest : fromPgno rmt pgnoCurrent with
    | nil => exact (if_pos (Nat.zero_lt_succ rounds)).symm
    | cons e rest =>
      have hmem : e ∈ rmt.entries :=
        mem_of_mem_filter (hrest ▸ mem_cons_self : e ∈ fromPgno rmt pgnoCurrent)
      have hne : e.1 ≠ pgnoMax := by
        intro heq
        exact value_ne_none_of_mem hmem (heq ▸ hmax)
      rw [head?_cons]
      dsimp only
      rw [ih, fromPgno_succ hvalid hrest hne, length_cons, foldl_cons]
      simp only [Nat.add_lt_add_iff_right]

theorem oldestLoop_never (hvalid : rmt.Valid) (hset : rmt.toMap pgnoMax ≠ none) (rounds : Nat)
    (o : Oldest) : oldestLoop rounds rmt pgnoCurrent o = none := by
  induction rounds generalizing pgnoCurrent o with
  | zero => rfl
  | succ rounds ih =>
    rw [oldestLoop]
    cases hfind : rmt.findGreaterThanOrEqual pgnoCurrent none with
    | none =>
      exact absurd (hvalid.findGreaterThanOrEqual_none hfind pgnoMax (le_pgnoMax _)) hset
    | some e => exact ih _

theorem foldl_next_cpg (es : List (Pgno × RedoMapEntry)) (o : Oldest) :
    (es.foldl (fun o e => o.next e.1 e.2) o).cpg = o.cpg + BitVec.ofNat 32 es.length := by
  induction es generalizing o with
  | nil => exact (BitVec.add_zero _).symm
  | cons e es ih =>
    have hnext : (o.next e.1 e.2).cpg = o.cpg + 1 := by
      rw [Oldest.next]
      split <;> rfl
    rw [foldl_cons, ih, hnext, length_cons, add_comm es.length 1, BitVec.ofNat_add,
      BitVec.add_assoc]
    rfl

theorem cmpLgpos_neg (lgpos1 lgpos2 : Lgpos) :
    cmpLgpos lgpos1 lgpos2 < 0 ↔ lgpos1.qw < lgpos2.qw := by
  unfold cmpLgpos
  split
  case isTrue hlt => exact iff_of_true (by decide) hlt
  case isFalse hge =>
    refine iff_of_false ?_ hge
    split <;> decide

theorem foldl_next_oldest (es : List (Pgno × RedoMapEntry)) (o : Oldest) :
    let o' := es.foldl (fun o e => o.next e.1 e.2) o
    (∀ e ∈ es, o'.rme.lgpos.qw ≤ e.2.lgpos.qw) ∧ (o'.pgno, o'.rme) ∈ es ∧
        o'.rme.lgpos.qw < o.rme.lgpos.qw ∨
      (∀ e ∈ es, o.rme.lgpos.qw ≤ e.2.lgpos.qw) ∧ o'.pgno = o.pgno ∧ o'.rme = o.rme := by
  induction es generalizing o with
  | nil => exact .inr ⟨fun _ he => absurd he not_mem_nil, rfl, rfl⟩
  | cons e es ih =>
    dsimp only at ih ⊢
    rw [foldl_cons]
    by_cases hlt : e.2.lgpos.qw < o.rme.lgpos.qw
    · have hnext : o.next e.1 e.2 = ⟨e.1, e.2, o.cpg + 1⟩ := if_pos ((cmpLgpos_neg _ _).mpr hlt)
      rw [hnext]
      rcases ih ⟨e.1, e.2, o.cpg + 1⟩ with ⟨hall, hmem, hless⟩ | ⟨hall, hpgno, hrme⟩
      · refine .inl ⟨?_, mem_cons_of_mem _ hmem, hless.trans hlt⟩
        rintro x (_ | ⟨_, hx⟩)
        · exact hless.le
        · exact hall x hx
      · rw [hpgno, hrme]
        refine .inl ⟨?_, mem_cons_self, hlt⟩
        rintro x (_ | ⟨_, hx⟩)
        · exact le_rfl
        · exact hall x hx
    · have hnext : o.next e.1 e.2 = { o with cpg := o.cpg + 1 } :=
        if_neg (fun h => hlt ((cmpLgpos_neg _ _).mp h))
      rw [hnext]
      rcases ih { o with cpg := o.cpg + 1 } with ⟨hall, hmem, hless⟩ | ⟨hall, hpgno, hrme⟩
      · refine .inl ⟨?_, mem_cons_of_mem _ hmem, hless⟩
        rintro x (_ | ⟨_, hx⟩)
        · exact hless.le.trans (not_lt.mp hlt)
        · exact hall x hx
      · refine .inr ⟨?_, hpgno, hrme⟩
        rintro x (_ | ⟨_, hx⟩)
        · exact not_lt.mp hlt
        · exact hall x hx

end Scan

section Steps

variable {rmt : RedoMapTree}

theorem set_keeps (hvalid : rmt.Valid) (pgno : Pgno) (rme : RedoMapEntry) (memory : Bool) :
    ∃ rmt', exec rmt (.set pgno rme memory) = some rmt' ∧ rmt'.Valid ∧
      rmt'.toMap = (Op.set pgno rme memory).meant rmt.toMap := by
  rw [exec, errSetPgno, Op.meant]
  cases memory with
  | false => exact ⟨rmt, rfl, hvalid, rfl⟩
  | true =>
    by_cases hset : rmt.toMap pgno = none
    · obtain ⟨rmt', hinsert, hvalid', hmap⟩ := hvalid.errInsert_toMap rme hset
      refine ⟨rmt', ?_, hvalid', ?_⟩
      · rw [if_pos rfl, hinsert]
        rfl
      · rw [if_pos ⟨rfl, hset⟩, hmap]
    · refine ⟨rmt, ?_, hvalid, ?_⟩
      · rw [if_pos rfl, hvalid.errInsert_duplicate rme hset]
        rfl
      · rw [if_neg (fun h => hset h.2)]

theorem clear_keeps_iff (hvalid : rmt.Valid) (pgnoStart pgnoEnd : Pgno) :
    (∃ rmt', exec rmt (.clear pgnoStart pgnoEnd) = some rmt' ∧ rmt'.Valid ∧
      rmt'.toMap = (Op.clear pgnoStart pgnoEnd).meant rmt.toMap) ↔
      Allowed rmt.toMap (.clear pgnoStart pgnoEnd) := by
  rw [exec, clearPgno, Op.meant, Allowed]
  by_cases hwrap : pgnoEnd = pgnoMax ∧ rmt.toMap pgnoMax ≠ none
  · obtain ⟨rfl, hset⟩ := hwrap
    obtain ⟨rmt', hloop, hvalid', hmap⟩ :=
      @clearLoop_wraps rmt pgnoStart hvalid hset _ (Nat.lt_succ_self _)
    constructor
    · rintro ⟨rmt'', hloop', -, hmap'⟩ ⟨-, -, pgno, hlt, hlow⟩
      obtain rfl := Option.some.inj (hloop.symm.trans hloop')
      have heq := congrFun (hmap.symm.trans hmap') pgno
      rw [if_neg (fun h => absurd h.1 (not_le.mpr hlt))] at heq
      exact hlow heq.symm
    · intro hlow
      refine ⟨rmt', hloop, hvalid', ?_⟩
      rw [hmap]
      funext pgno
      split
      · rfl
      case isFalse hout =>
        by_contra hne
        refine hlow ⟨rfl, hset, pgno, ?_, fun heq => hne heq.symm⟩
        exact not_le.mp fun hle => hout ⟨hle, le_pgnoMax _⟩
  · refine iff_of_true ?_ fun h => hwrap ⟨h.1, h.2.1⟩
    exact clearLoop_range hvalid (fun heq => by_contra fun hset => hwrap ⟨heq, hset⟩)
      (Nat.lt_succ_self _)

theorem cpgSet_eq (hvalid : rmt.Valid) : cpgSet rmt.toMap = rmt.entries.length := by
  have hnodup : (rmt.entries.map Prod.fst).Nodup := by
    rw [Nodup, pairwise_map]
    exact hvalid.sorted.imp fun hlt => hlt.ne
  have hset :
      {pgno | rmt.toMap pgno ≠ none} = ((rmt.entries.map Prod.fst).toFinset : Set Pgno) := by
    ext pgno
    rw [Set.mem_ofPred_eq, coe_toFinset, Set.mem_ofPred_eq, mem_map]
    constructor
    · intro hne
      obtain ⟨rme, hrme⟩ := Option.ne_none_iff_exists'.mp hne
      exact ⟨_, mem_of_value hrme, rfl⟩
    · rintro ⟨e, he, rfl⟩
      exact value_ne_none_of_mem he
  rw [cpgSet, hset, Set.ncard_coe_finset, toFinset_card_of_nodup hnodup, length_map]

theorem cpgSet_lt {m : PgnoMap} (hmax : m pgnoMax = none) : cpgSet m < 2 ^ 32 := by
  have hne : {pgno | m pgno ≠ none} ≠ Set.univ := by
    intro heq
    have hmem : pgnoMax ∈ {pgno | m pgno ≠ none} := heq ▸ Set.mem_univ _
    exact hmem hmax
  have hlt := Set.ncard_lt_card hne
  rwa [Nat.card_eq_fintype_card, Fintype.card_fin] at hlt

theorem length_fromPgno_one :
    (fromPgno rmt 1).length = rmt.entries.length ↔ rmt.toMap 0 = none := by
  rw [fromPgno, length_filter_eq_length_iff]
  constructor
  · intro hall
    apply value_eq_none_of_forall
    intro e he heq
    have hle := of_decide_eq_true (hall e he)
    rw [heq] at hle
    exact absurd hle (by decide)
  · intro hnone e he
    have hne : e.1 ≠ 0 := fun heq => value_ne_none_of_mem he (heq ▸ hnone)
    apply decide_eq_true
    exact (succ_le_iff (show (0 : Pgno) ≠ pgnoMax by decide)).mpr (Fin.pos_iff_ne_zero.mpr hne)

theorem toInt_eq_iff {n cpg : Nat} (hle : n ≤ cpg) (hlt : cpg < 2 ^ 32) :
    (BitVec.ofNat 32 n).toInt = cpg ↔ n = cpg ∧ cpg < 2 ^ 31 := by
  rw [BitVec.toInt_eq_toNat_cond, BitVec.toNat_ofNat, Nat.mod_eq_of_lt (by omega)]
  split <;> omega

theorem oldest_right_iff (hvalid : rmt.Valid) (err : Int) :
    OldestRight rmt err ↔ Allowed rmt.toMap (.oldest err) := by
  rw [OldestRight, Allowed]
  by_cases hmax : rmt.toMap pgnoMax = none
  case neg =>
    refine iff_of_false ?_ fun h => hmax h.1
    rintro ⟨rounds, o, hreturn, -⟩
    rw [getOldestLgposEntry, oldestLoop_never hvalid hmax] at hreturn
    cases hreturn
  obtain ⟨o, ho⟩ : ∃ o : Oldest, o = (fromPgno rmt 1).foldl (fun o e => o.next e.1 e.2)
    ⟨pgnoNull, RedoMapEntry.default err, 0⟩ := ⟨_, rfl⟩
  have hcpg : o.cpg.toInt = cpgSet rmt.toMap ↔ rmt.toMap 0 = none ∧ cpgSet rmt.toMap < 2 ^ 31 := by
    have hle : (fromPgno rmt 1).length ≤ cpgSet rmt.toMap := by
      rw [cpgSet_eq hvalid]
      exact length_filter_le _ _
    rw [ho, foldl_next_cpg]
    dsimp only
    rw [BitVec.ofNat_eq_ofNat, BitVec.zero_add, toInt_eq_iff hle (cpgSet_lt hmax), cpgSet_eq hvalid,
      length_fromPgno_one]
  -- page zero is not set, so that the scan meets every entry
  have holdest : rmt.toMap 0 = none → (IsOldest rmt.toMap o.pgno o.rme ↔
      ∃ pgno rme, rmt.toMap pgno = some rme ∧ rme.lgpos.qw < lgposMax.qw) := by
    intro hzero
    have hall : fromPgno rmt 1 = rmt.entries :=
      filter_eq_self.mpr (length_filter_eq_length_iff.mp (length_fromPgno_one.mpr hzero))
    rcases foldl_next_oldest (fromPgno rmt 1) ⟨pgnoNull, RedoMapEntry.default err, 0⟩ with
      ⟨hleast, hmem, hless⟩ | ⟨hnone, hpgno, -⟩
    · rw [← ho] at hless
      rw [← ho, hall] at hleast hmem
      have hset := value_of_mem hvalid.sorted hmem
      exact iff_of_true ⟨hset, fun _ _ h => hleast _ (mem_of_value h)⟩ ⟨_, _, hset, hless⟩
    · rw [← ho] at hpgno
      refine iff_of_false (fun h => ?_) ?_
      · rw [IsOldest, hpgno] at h
        exact absurd (hzero.symm.trans h.1) (by simp)
      · rintro ⟨pgno, rme, hset, hlt⟩
        have hmem := mem_of_value hset
        rw [← hall] at hmem
        exact absurd (hnone _ hmem) (not_le.mpr hlt)
  have hreturn rounds o' (h : getOldestLgposEntry rounds rmt err = some o') : o' = o := by
    rw [getOldestLgposEntry, oldestLoop_eq hvalid hmax, ← ho] at h
    split at h
    · exact (Option.some.inj h).symm
    · cases h
  constructor
  · rintro ⟨rounds, o', h, hcount, hfound⟩
    obtain rfl := hreturn rounds o' h
    obtain ⟨hzero, hless⟩ := hcpg.mp hcount
    exact ⟨hmax, hzero, hless, fun hset => (holdest hzero).mp (hfound hset)⟩
  · rintro ⟨-, hzero, hless, hfound⟩
    refine ⟨(fromPgno rmt 1).length + 1, o, ?_, hcpg.mpr ⟨hzero, hless⟩,
      fun hset => (holdest hzero).mpr (hfound hset)⟩
    rw [getOldestLgposEntry, oldestLoop_eq hvalid hmax, if_pos (Nat.lt_succ_self _), ho]

theorem keeps_iff_allowed (hvalid : rmt.Valid) (op : Op) : Keeps rmt op ↔ Allowed rmt.toMap op := by
  rw [Keeps]
  cases op with
  | set pgno rme memory =>
    exact iff_of_true ⟨set_keeps hvalid pgno rme memory, fun _ h => Op.noConfusion h⟩ trivial
  | clear pgnoStart pgnoEnd =>
    rw [clear_keeps_iff hvalid]
    exact and_iff_left fun _ h => Op.noConfusion h
  | oldest err =>
    rw [← oldest_right_iff hvalid]
    constructor
    · exact fun h => h.2 err rfl
    · intro h
      refine ⟨⟨rmt, rfl, hvalid, rfl⟩, ?_⟩
      rintro _ ⟨⟩
      exact h

end Steps

/-- The tree is one of the map, and `FPgnoSet` and the entries it finds are those of the map. -/
structure Represents (rmt : RedoMapTree) (m : PgnoMap) : Prop where
  valid : rmt.Valid
  fPgnoSet_iff : ∀ pgno, fPgnoSet rmt pgno = true ↔ m pgno ≠ none
  entry : ∀ pgno rme, (rmt.errFind pgno).2 = some (pgno, rme) ↔ m pgno = some rme

/-- Every operation of the run keeps the map, which is then the one that is meant. -/
def RunKeeps : RedoMapTree → PgnoMap → List Op → Prop
  | rmt, m, [] => Represents rmt m
  | rmt, m, op :: ops => Represents rmt m ∧ Keeps rmt op ∧
      ∃ rmt', exec rmt op = some rmt' ∧ RunKeeps rmt' (op.meant m) ops

def AllowedRun : PgnoMap → List Op → Prop
  | _, [] => True
  | m, op :: ops => Allowed m op ∧ AllowedRun (op.meant m) ops

theorem represents_toMap {rmt : RedoMapTree} (hvalid : rmt.Valid) : Represents rmt rmt.toMap := by
  have hfind : ∀ pgno, rmt.find pgno = (rmt.toMap pgno).map fun rme => (pgno, rme) := fun pgno =>
    Node.find_eq_value hvalid.sorted
  refine ⟨hvalid, fun pgno => ?_, fun pgno rme => ?_⟩
  · rw [fPgnoSet, Node.errFind, hfind]
    cases rmt.toMap pgno with
    | none => exact iff_of_false Bool.false_ne_true fun h => h rfl
    | some rme => exact iff_of_true rfl (Option.some_ne_none rme)
  · rw [Node.errFind, hfind]
    cases rmt.toMap pgno with
    | none => exact iff_of_false nofun nofun
    | some rme' => simp

theorem runKeeps_of_allowed {rmt : RedoMapTree} (hvalid : rmt.Valid) (ops : List Op)
    (hallowed : AllowedRun rmt.toMap ops) : RunKeeps rmt rmt.toMap ops := by
  induction ops generalizing rmt with
  | nil => exact represents_toMap hvalid
  | cons op ops ih =>
    have hkeeps := (keeps_iff_allowed hvalid op).mpr hallowed.1
    obtain ⟨⟨rmt', hexec, hvalid', hmap⟩, -⟩ := id hkeeps
    refine ⟨represents_toMap hvalid, hkeeps, rmt', hexec, ?_⟩
    rw [← hmap]
    exact ih hvalid' (hmap ▸ hallowed.2)

/-- An operation keeps a map just if it is allowed for it, and every run of allowed operations from
the empty map keeps the first entry of each page since it was last cleared. -/
theorem redoMap_keeps_iff (rmt : RedoMapTree) (op : Op) (ops : List Op) :
    (rmt.Valid → (Keeps rmt op ↔ Allowed rmt.toMap op)) ∧
      (AllowedRun (fun _ => none) ops → RunKeeps .null (fun _ => none) ops) :=
  ⟨fun hvalid => keeps_iff_allowed hvalid op, runKeeps_of_allowed Node.valid_null ops⟩

def entryAt (lgpos : Lgpos) : RedoMapEntry := ⟨lgpos, 0, dbtimeNil, dbtimeNil, dbtimeNil⟩

theorem onePage_keeps :
    RunKeeps .null (fun _ => none)
      [.set 5 (entryAt ⟨0, 8, 3⟩) true, .set 5 (entryAt ⟨0, 8, 2⟩) true, .clear 6 pgnoMax,
        .clear 5 5] := by
  apply (redoMap_keeps_iff .null (.clear 5 5) _).2
  refine ⟨trivial, trivial, ?_, ?_, trivial⟩
  · rintro ⟨-, hset, -⟩
    exact hset rfl
  · rintro ⟨hend, -⟩
    exact absurd hend (by decide)

/-- With the highest page set, clearing the pages from 4 on clears page 3, and the scan for the
oldest entry does not end. -/
theorem highestPage_clears_all :
    ∃ rmt rmt' rmt'', exec .null (.set 3 (entryAt ⟨0, 8, 3⟩) true) = some rmt ∧
      exec rmt (.set pgnoMax (entryAt ⟨0, 8, 4⟩) true) = some rmt' ∧
      (∀ rounds, getOldestLgposEntry rounds rmt' 0 = none) ∧
      fPgnoSet rmt' 3 = true ∧ clearPgno rmt' 4 pgnoMax = some rmt'' ∧
        fPgnoSet rmt'' 3 = false := by
  obtain ⟨rmt, hexec, hvalid, hmap⟩ := set_keeps Node.valid_null 3 (entryAt ⟨0, 8, 3⟩) true
  obtain ⟨rmt', hexec', hvalid', hmap'⟩ := set_keeps hvalid pgnoMax (entryAt ⟨0, 8, 4⟩) true
  have hthree : rmt.toMap 3 = some (entryAt ⟨0, 8, 3⟩) := by
    rw [hmap]
    rfl
  have hmax : rmt.toMap pgnoMax = none := by
    rw [hmap]
    rfl
  rw [Op.meant, if_pos ⟨rfl, hmax⟩] at hmap'
  have hset : rmt'.toMap pgnoMax ≠ none := by
    rw [hmap', update_self]
    exact Option.some_ne_none _
  obtain ⟨rmt'', hclear, hvalid'', hnone⟩ :=
    @clearLoop_wraps rmt' 4 hvalid' hset _ (Nat.lt_succ_self _)
  refine ⟨rmt, rmt', rmt'', hexec, hexec', fun rounds => oldestLoop_never hvalid' hset rounds _,
    ?_, hclear, ?_⟩
  · rw [(represents_toMap hvalid').fPgnoSet_iff, hmap', update_of_ne (by decide), hthree]
    exact Option.some_ne_none _
  · rw [← Bool.not_eq_true, (represents_toMap hvalid'').fPgnoSet_iff, hnone]
    exact fun h => h rfl

end EseLinux.LogRedoMap
