import EseLinux.PageDelete

/-!
Sequences of page operations: the layout invariant and the untouched lines along every run.
-/

namespace EseLinux.PageRun

open PageDelete PageEdit PageFormat PageInsert PageLayout PageReorganize PageReplace PageTags

inductive PageOp where
  | insert (itag : Nat) (rgdata : List Data) (fFlags : Nat)
  | replace (itag : Nat) (rgdata : List Data) (fFlags : Nat)
  | delete (itag : Nat)
  | replaceFlags (itag fFlags : Nat)
  | setExternalHeader (rgdata : List Data) (fFlags : Nat)
  | iAddReservedTag (cb : Nat) (fillByte : UInt8)
  | replaceReservedTag (itag : Nat) (rgdata : List Data)
  | reorganizeData

/-- Run one operation; `none` stands for a failed `Enforce`. -/
def exec (env : Env) (p : Page) : PageOp → Option Page
  | .insert itag rgdata fFlags => insert env p itag rgdata fFlags
  | .replace itag rgdata fFlags => replace env p itag rgdata fFlags
  | .delete itag => some (delete env p itag)
  | .replaceFlags itag fFlags => some (replaceFlags p itag fFlags)
  | .setExternalHeader rgdata fFlags => setExternalHeader env p rgdata fFlags
  | .iAddReservedTag cb fillByte => (iAddReservedTag env p cb fillByte).map Prod.fst
  | .replaceReservedTag itag rgdata => replaceReservedTag env p itag rgdata
  | .reorganizeData => reorganizeData env p

/-- What the callers owe: a tag in range, and the bytes needed within `cbFree`. -/
def Pre (p : Page) : PageOp → Prop
  | .insert itag rgdata _ => itag ≤ p.itagMicFree ∧ cbDataTotal rgdata + cbTag ≤ p.cbFree
  | .replace itag rgdata _ =>
    itag < p.itagMicFree ∧ cbDataTotal rgdata ≤ p.tagCb itag + p.cbFree
  | .delete itag => p.ctagReserved ≤ itag ∧ itag < p.itagMicFree
  | .replaceFlags itag _ => itag < p.itagMicFree
  | .setExternalHeader rgdata _ =>
    0 < p.itagMicFree ∧ cbDataTotal rgdata ≤ p.tagCb 0 + p.cbFree
  | .iAddReservedTag cb _ => p.ctagReserved ≤ p.itagMicFree ∧ cb + cbTag ≤ p.cbFree
  | .replaceReservedTag itag rgdata =>
    itag < p.ctagReserved ∧ itag < p.itagMicFree ∧ cbDataTotal rgdata ≤ p.tagCb itag + p.cbFree
  | .reorganizeData => True

/-- `IAddReservedTag` adds a tag only in the new format and below the limit. -/
def AddsReservedTag (env : Env) (p : Page) : Prop :=
  env.fResvTagFormatEnabled = true ∧ p.ctagReserved < ctagReservedMax

instance (env : Env) (p : Page) : Decidable (AddsReservedTag env p) :=
  inferInstanceAs (Decidable (_ ∧ _))

/-- Where tag `j` stands after the operation; `none` for the tag it was asked to change. -/
def newIndex (env : Env) (p : Page) : PageOp → Nat → Option Nat
  | .insert itag _ _, j => some (shiftUp itag j)
  | .replace itag _ _, j => if j = itag then none else some j
  | .delete itag, j => if j = itag then none else some (if j < itag then j else j - 1)
  | .replaceFlags itag _, j => if j = itag then none else some j
  | .setExternalHeader _ _, j => if j = 0 then none else some j
  | .iAddReservedTag _ _, j =>
    some (if AddsReservedTag env p then shiftUp p.ctagReserved j else j)
  | .replaceReservedTag itag _, j => if j = itag then none else some j
  | .reorganizeData, j => some j

/-- Every line the operation was not asked to change is still there, with the same bytes and
flags. -/
def KeepsLines (env : Env) (p : Page) (op : PageOp) (q : Page) : Prop :=
  ∀ j j', j < p.itagMicFree → newIndex env p op j = some j' →
    j' < q.itagMicFree ∧ line q j' = line p j

/-- The operation ends on a page that satisfies the invariant and keeps the other lines. -/
def StepOk (env : Env) (p : Page) (op : PageOp) : Prop :=
  ∃ q, exec env p op = some q ∧ LayoutInv q ∧ KeepsLines env p op q

def RoomForTag (env : Env) (p : Page) : PageOp → Prop
  | .iAddReservedTag cb _ => AddsReservedTag env p → ¬ MissesTagBytes p cb
  | _ => True

section Step

variable {env : Env} {p q : Page} {op : PageOp} {k : Nat}

theorem keepsLines_of_onlyLine (h : OnlyLine p k q)
    (hindex : ∀ j, newIndex env p op j = if j = k then none else some j) :
    KeepsLines env p op q := by
  intro j j' hj hj'
  rw [hindex] at hj'
  split at hj'
  · cases hj'
  · rename_i hne
    cases hj'
    exact ⟨by rwa [h.itagMicFree], h.lineEq j hj hne⟩

theorem stepOk_replace (hinv : LayoutInv p) {itag : Nat} (hk : itag < p.itagMicFree)
    (rgdata : List Data) (fFlags : Nat) (hfree : cbDataTotal rgdata ≤ p.tagCb itag + p.cbFree)
    (hexec : exec env p op = replace env p itag rgdata fFlags)
    (hindex : ∀ j, newIndex env p op j = if j = itag then none else some j) : StepOk env p op := by
  obtain ⟨q, hq, honly⟩ := replace_spec env hinv itag hk rgdata fFlags hfree
  exact ⟨q, hexec.trans hq, honly.inv, keepsLines_of_onlyLine honly hindex⟩

theorem keepsLines_of_tagAdded (h : TagAdded p k q)
    (hindex : ∀ j, newIndex env p op j = some (shiftUp k j)) : KeepsLines env p op q := by
  intro j j' hj hj'
  rw [hindex] at hj'
  cases hj'
  exact ⟨by rw [h.itagMicFree]; exact shiftUp_lt hj, h.lineEq j hj⟩

theorem keepsLines_delete (hk : k < p.itagMicFree)
    (h : TagDeleted p k q) : KeepsLines env p (.delete k) q := by
  intro j j' hj hj'
  have hcount := h.itagMicFree
  simp only [newIndex] at hj'
  split at hj'
  · cases hj'
  · rename_i hne
    obtain ⟨hlt, hback⟩ : j' < q.itagMicFree ∧ shiftUp k j' = j := by
      cases hj'
      by_cases hjk : j < k
      · rw [if_pos hjk, shiftUp, if_pos hjk]
        exact ⟨by omega, rfl⟩
      · have hsub : ¬ j - 1 < k := by omega
        rw [if_neg hjk, shiftUp, if_neg hsub]
        omega
    exact ⟨hlt, by rw [h.lineEq j' hlt, hback]⟩

theorem stepOk_iff (env : Env) (hinv : LayoutInv p) (hpre : Pre p op) :
    StepOk env p op ↔ RoomForTag env p op := by
  cases op with
  | insert itag rgdata fFlags =>
    obtain ⟨q, hq, hadded⟩ := insert_spec env hinv itag hpre.1 rgdata fFlags hpre.2
    exact ⟨fun _ => trivial,
      fun _ => ⟨q, hq, hadded.inv, keepsLines_of_tagAdded hadded fun _ => rfl⟩⟩
  | replace itag rgdata fFlags =>
    exact ⟨fun _ => trivial, fun _ =>
      stepOk_replace hinv hpre.1 rgdata fFlags hpre.2 rfl fun _ => rfl⟩
  | delete itag =>
    have hdeleted := delete_spec env hinv hpre.2
    exact ⟨fun _ => trivial, fun _ => ⟨_, rfl, hdeleted.inv, keepsLines_delete hpre.2 hdeleted⟩⟩
  | replaceFlags itag fFlags =>
    have honly := replaceFlags_spec hinv itag fFlags hpre
    exact ⟨fun _ => trivial,
      fun _ => ⟨_, rfl, honly.inv, keepsLines_of_onlyLine honly fun _ => rfl⟩⟩
  | setExternalHeader rgdata fFlags =>
    exact ⟨fun _ => trivial, fun _ =>
      stepOk_replace hinv hpre.1 rgdata fFlags hpre.2 rfl fun _ => rfl⟩
  | iAddReservedTag cb fillByte =>
    by_cases hadds : AddsReservedTag env p
    · constructor
      · rintro ⟨q, hq, hinv', -⟩ _ hmisses
        obtain ⟨q', hq', hbroken⟩ := iAddReservedTag_misses env hinv cb fillByte hadds.1
          hadds.2 hpre.1 hmisses
        simp only [exec, hq', Option.map_some, Option.some.injEq] at hq
        exact hbroken (hq ▸ hinv')
      · intro hroom
        obtain ⟨q, hq, hadded, -⟩ := iAddReservedTag_spec env hinv cb fillByte hadds.1 hadds.2
          hpre.1 hpre.2 (hroom hadds)
        refine ⟨q, by simp only [exec, hq, Option.map_some], hadded.inv, ?_⟩
        exact keepsLines_of_tagAdded hadded fun j => by simp only [newIndex, if_pos hadds]
    · refine ⟨fun _ h => absurd h hadds, fun _ => ⟨p, ?_, hinv, ?_⟩⟩
      · have hsame : iAddReservedTag env p cb fillByte = some (p, none) := by
          exact if_neg hadds
        simp only [exec, hsame, Option.map_some]
      · intro j j' hj hj'
        simp only [newIndex, if_neg hadds, Option.some.injEq] at hj'
        subst hj'
        exact ⟨hj, rfl⟩
  | replaceReservedTag itag rgdata =>
    exact ⟨fun _ => trivial, fun _ =>
      stepOk_replace hinv hpre.2.1 rgdata 0 hpre.2.2 rfl fun _ => rfl⟩
  | reorganizeData =>
    obtain ⟨q, hq, hrep, -⟩ := reorganizeData_spec env hinv
    refine ⟨fun _ => trivial, fun _ => ⟨q, hq, hrep.inv, ?_⟩⟩
    intro j j' hj hj'
    cases hj'
    exact ⟨by rwa [hrep.itagMicFree], hrep.lineEq j hj⟩

end Step

def PreRun (env : Env) : Page → List PageOp → Prop
  | _, [] => True
  | p, op :: ops => Pre p op ∧ ∀ q, exec env p op = some q → PreRun env q ops

/-- Every new reserved tag of the sequence finds room for its own bytes. -/
def RoomForTags (env : Env) : Page → List PageOp → Prop
  | _, [] => True
  | p, op :: ops => RoomForTag env p op ∧ ∀ q, exec env p op = some q → RoomForTags env q ops

/-- The invariant holds in every state of the run and no operation changes a line it was not
asked to change. -/
def RunOk (env : Env) : Page → List PageOp → Prop
  | p, [] => LayoutInv p
  | p, op :: ops => LayoutInv p ∧
      ∃ q, exec env p op = some q ∧ KeepsLines env p op q ∧ RunOk env q ops

theorem RunOk.inv {env : Env} {p : Page} {ops : List PageOp} (h : RunOk env p ops) :
    LayoutInv p := by
  cases ops with
  | nil => exact h
  | cons op ops => exact h.1

/-- From a page that satisfies the layout invariant, a sequence of operations keeps it and
changes no other line exactly when every new reserved tag finds room for its own bytes. -/
theorem runOk_iff_roomForTags (env : Env) (p : Page) (ops : List PageOp) (hinv : LayoutInv p)
    (hpre : PreRun env p ops) : RunOk env p ops ↔ RoomForTags env p ops := by
  induction ops generalizing p with
  | nil => exact ⟨fun _ => trivial, fun _ => hinv⟩
  | cons op ops ih =>
    have hstep := stepOk_iff env hinv hpre.1
    constructor
    · rintro ⟨-, q, hq, hkeeps, hrun⟩
      refine ⟨hstep.mp ⟨q, hq, hrun.inv, hkeeps⟩, ?_⟩
      intro q' hq'
      cases hq.symm.trans hq'
      exact (ih q hrun.inv (hpre.2 q hq)).mp hrun
    · rintro ⟨hroom, hrooms⟩
      obtain ⟨q, hq, hinv', hkeeps⟩ := hstep.mpr hroom
      exact ⟨hinv, q, hq, hkeeps, (ih q hinv' (hpre.2 q hq)).mpr (hrooms q hq)⟩

/-- Insertion sort is one of the orders `std::sort` may produce. -/
def insertionTagSort : TagSort where
  run key tags := tags.insertionSort fun i j => key i ≤ key j
  run_perm _ tags := List.perm_insertionSort _ tags
  run_sorted key tags := by
    exact List.pairwise_insertionSort _ tags

def reservedTagsEnv : Env := ⟨false, true, insertionTagSort⟩

/-- A 2K page with an empty external header and one line of 1898 bytes at offset 100, as a
deletion of the line before it leaves it: 102 bytes are free, two of them contiguous. -/
def crowdedPage : Page where
  cbPage := 2048
  cbBuffer := 2048
  buf
    | 28 => 102 | 32 => 0xce | 33 => 0x07 | 34 => 0x02 | 35 => 0x10 | 2040 => 0x6a | 2041 => 0x07
    | 2042 => 100 | _ => 0
  itagMicFree := 2
  ctagReserved := 1

theorem crowdedPage_inv : LayoutInv crowdedPage where
  normal := ⟨by decide, rfl⟩
  valid := by decide

theorem crowdedPage_pre (cb : Nat) (hcb : cb + 4 ≤ 102) (fillByte : UInt8) :
    PreRun reservedTagsEnv crowdedPage [.iAddReservedTag cb fillByte] :=
  ⟨⟨by decide, hcb⟩, fun _ _ => trivial⟩

/-- A reserved tag of two bytes takes the two contiguous bytes, and its tag the last bytes of
the line. -/
theorem crowdedPage_breaks :
    LayoutInv crowdedPage ∧ PreRun reservedTagsEnv crowdedPage [.iAddReservedTag 2 0] ∧
      ¬ RunOk reservedTagsEnv crowdedPage [.iAddReservedTag 2 0] := by
  have hpre := crowdedPage_pre 2 (by decide) 0
  refine ⟨crowdedPage_inv, hpre, ?_⟩
  rintro ⟨-, q, hq, hkeeps, hrun⟩
  have hroom := (stepOk_iff _ crowdedPage_inv hpre.1).mp ⟨q, hq, hrun.inv, hkeeps⟩
  exact hroom ⟨rfl, by decide⟩ (by decide)

/-- A reserved tag of seven bytes makes the page reorganize, and all is well. -/
theorem crowdedPage_reorganizes :
    LayoutInv crowdedPage ∧ PreRun reservedTagsEnv crowdedPage [.iAddReservedTag 7 0] ∧
      RunOk reservedTagsEnv crowdedPage [.iAddReservedTag 7 0] := by
  have hpre := crowdedPage_pre 7 (by decide) 0
  refine ⟨crowdedPage_inv, hpre, ?_⟩
  refine (runOk_iff_roomForTags reservedTagsEnv crowdedPage _ crowdedPage_inv hpre).mpr ?_
  exact ⟨fun _ => by decide, fun _ _ => trivial⟩

end EseLinux.PageRun
