import EseLinux.SortedAssoc

/-!
The invasive left-leaning red-black tree of `collection.hxx`.

A node is its key, the object that embeds it, its colour and its two subtrees; the tree is its
root. The source works on nodes in place, and every node is linked from one parent only, so that a
subtree can be passed by value. `none` stands for a dereferenced null pointer. The colour of the
root is an ordinary colour here: the source never sets it to black.
-/

namespace EseLinux.RedBlackTree

universe u v w

inductive Color where
  | red
  | black
  deriving DecidableEq, Repr

def Color.flip : Color → Color
  | red => black
  | black => red

inductive Node (K : Type u) (α : Type v) where
  | null
  | node (color : Color) (key : K) (obj : α) (left right : Node K α)
  deriving DecidableEq, Repr

/-- The error codes of the tree. Nothing here allocates, so that out of memory never occurs. -/
inductive Err where
  | success
  | entryNotFound
  | duplicateEntry
  deriving DecidableEq, Repr

namespace Node

variable {K : Type u} {α : Type v}

def entries : Node K α → List (K × α)
  | null => []
  | node _ key obj l r => l.entries ++ (key, obj) :: r.entries

def fEmpty : Node K α → Bool
  | null => true
  | node .. => false

def pnodeLeft : Node K α → Option (Node K α)
  | null => none
  | node _ _ _ l _ => some l

def pnodeRight : Node K α → Option (Node K α)
  | null => none
  | node _ _ _ _ r => some r

def fIsNonNullAndRed : Node K α → Bool
  | node .red _ _ _ _ => true
  | _ => false

@[simp] theorem fIsNonNullAndRed_red (key : K) (obj : α) (l r : Node K α) :
    (node .red key obj l r).fIsNonNullAndRed = true := rfl

@[simp] theorem fIsNonNullAndRed_black (key : K) (obj : α) (l r : Node K α) :
    (node .black key obj l r).fIsNonNullAndRed = false := rfl

/-- A node and its left child in one test; it is only asked of a node that is red. -/
def fLeftRed : Node K α → Bool
  | null => false
  | node _ _ _ l _ => l.fIsNonNullAndRed

/-- Neither the node nor its left child is red; the left child of a null node is dereferenced. -/
def fNoRedLink (pnode : Node K α) : Option Bool :=
  if pnode.fIsNonNullAndRed then some false
  else pnode.pnodeLeft.map fun l => !l.fIsNonNullAndRed

def setRight (pnode right : Node K α) : Node K α :=
  match pnode with
  | null => null
  | node c key obj l _ => node c key obj l right

def rotateLeft : Node K α → Option (Node K α)
  | node c key obj l (node _ key' obj' l' r') =>
    some (node c key' obj' (node .red key obj l l') r')
  | _ => none

def rotateRight : Node K α → Option (Node K α)
  | node c key obj (node _ key' obj' l' r') r =>
    some (node c key' obj' l' (node .red key obj r' r))
  | _ => none

def flipColor : Node K α → Node K α
  | null => null
  | node c key obj l r => node c.flip key obj l r

def flipColors : Node K α → Option (Node K α)
  | null => none
  | node c key obj l r => some (node c.flip key obj l.flipColor r.flipColor)

/-- The first step of `Fixup_`: right-leaning reds become left-leaning. -/
def leanLeft (pnode : Node K α) : Option (Node K α) := do
  let r ← pnode.pnodeRight
  if r.fIsNonNullAndRed then pnode.rotateLeft else some pnode

def spreadReds (pnode : Node K α) : Option (Node K α) := do
  let l ← pnode.pnodeLeft
  if l.fIsNonNullAndRed && l.fLeftRed then pnode.rotateRight else some pnode

def raiseReds (pnode : Node K α) : Option (Node K α) := do
  let l ← pnode.pnodeLeft
  let r ← pnode.pnodeRight
  if l.fIsNonNullAndRed && r.fIsNonNullAndRed then pnode.flipColors else some pnode

def fixup (pnode : Node K α) : Option (Node K α) := do
  let pnode ← pnode.leanLeft
  let pnode ← pnode.spreadReds
  pnode.raiseReds

def moveRedRight (pnode : Node K α) : Option (Node K α) := do
  let pnode ← pnode.flipColors
  let l ← pnode.pnodeLeft
  let ll ← l.pnodeLeft
  if ll.fIsNonNullAndRed then do
    let pnode ← pnode.rotateRight
    pnode.flipColors
  else some pnode

def moveRedLeft (pnode : Node K α) : Option (Node K α) := do
  let pnode ← pnode.flipColors
  let r ← pnode.pnodeRight
  let rl ← r.pnodeLeft
  if rl.fIsNonNullAndRed then do
    let r ← r.rotateRight
    let pnode ← (pnode.setRight r).rotateLeft
    pnode.flipColors
  else some pnode

/-- What precedes a descent to the left: the left child or its left child is made red. -/
def descendLeft (pnode : Node K α) : Option (Node K α) := do
  let l ← pnode.pnodeLeft
  l.fNoRedLink.bind fun fMove => if fMove then pnode.moveRedLeft else some pnode

def descendRight (pnode : Node K α) : Option (Node K α) := do
  let r ← pnode.pnodeRight
  r.fNoRedLink.bind fun fMove => if fMove then pnode.moveRedRight else some pnode

/-- A red left child is rotated to the right before a descent to the right. -/
def leanRight (pnode : Node K α) : Option (Node K α) := do
  let l ← pnode.pnodeLeft
  if l.fIsNonNullAndRed then pnode.rotateRight else some pnode

def pnodeMin : Node K α → Option (K × α)
  | null => none
  | node _ key obj null _ => some (key, obj)
  | node _ _ _ l _ => l.pnodeMin

variable {r : Node K α}

section Entries

variable {pnode pnode' : Node K α}

@[simp] theorem entries_flipColor (pnode : Node K α) :
    pnode.flipColor.entries = pnode.entries := by
  cases pnode <;> rfl

theorem entries_flipColors (h : pnode.flipColors = some pnode') :
    pnode'.entries = pnode.entries := by
  cases pnode with
  | null => cases h
  | node c key obj l r =>
    cases h
    simp [entries]

theorem entries_rotateRight (h : pnode.rotateRight = some pnode') :
    pnode'.entries = pnode.entries := by
  unfold rotateRight at h
  split at h
  · cases h
    simp [entries]
  · cases h

theorem entries_rotateLeft (h : pnode.rotateLeft = some pnode') :
    pnode'.entries = pnode.entries := by
  unfold rotateLeft at h
  split at h
  · cases h
    simp [entries]
  · cases h

theorem entries_setRight {right : Node K α} (h : pnode.pnodeRight = some r)
    (hentries : right.entries = r.entries) : (pnode.setRight right).entries = pnode.entries := by
  cases pnode with
  | null => cases h
  | node c key obj l r' =>
    cases h
    simp [setRight, entries, hentries]

theorem entries_moveRedLeft (h : pnode.moveRedLeft = some pnode') :
    pnode'.entries = pnode.entries := by
  simp only [moveRedLeft, bind, Option.bind_eq_some_iff] at h
  obtain ⟨p, hp, r, hr, rl, -, h⟩ := h
  rw [← entries_flipColors hp]
  split at h
  · simp only [Option.bind_eq_some_iff] at h
    obtain ⟨r', hr', p', hp', h⟩ := h
    rw [entries_flipColors h, entries_rotateLeft hp', entries_setRight hr (entries_rotateRight hr')]
  · cases h
    rfl

theorem entries_moveRedRight (h : pnode.moveRedRight = some pnode') :
    pnode'.entries = pnode.entries := by
  simp only [moveRedRight, bind, Option.bind_eq_some_iff] at h
  obtain ⟨p, hp, l, hl, ll, -, h⟩ := h
  rw [← entries_flipColors hp]
  split at h
  · simp only [Option.bind_eq_some_iff] at h
    obtain ⟨p', hp', h⟩ := h
    rw [entries_flipColors h, entries_rotateRight hp']
  · cases h
    rfl

theorem entries_descendLeft (h : pnode.descendLeft = some pnode') :
    pnode'.entries = pnode.entries := by
  simp only [descendLeft, bind, Option.bind_eq_some_iff] at h
  obtain ⟨l, -, b, -, h⟩ := h
  split at h
  · exact entries_moveRedLeft h
  · cases h
    rfl

theorem entries_descendRight (h : pnode.descendRight = some pnode') :
    pnode'.entries = pnode.entries := by
  simp only [descendRight, bind, Option.bind_eq_some_iff] at h
  obtain ⟨r, -, b, -, h⟩ := h
  split at h
  · exact entries_moveRedRight h
  · cases h
    rfl

theorem entries_leanRight (h : pnode.leanRight = some pnode') :
    pnode'.entries = pnode.entries := by
  simp only [leanRight, bind, Option.bind_eq_some_iff] at h
  obtain ⟨l, -, h⟩ := h
  split at h
  · exact entries_rotateRight h
  · cases h
    rfl

theorem entries_leanLeft (h : pnode.leanLeft = some pnode') :
    pnode'.entries = pnode.entries := by
  simp only [leanLeft, bind, Option.bind_eq_some_iff] at h
  obtain ⟨r, -, h⟩ := h
  split at h
  · exact entries_rotateLeft h
  · cases h
    rfl

theorem entries_spreadReds (h : pnode.spreadReds = some pnode') :
    pnode'.entries = pnode.entries := by
  simp only [spreadReds, bind, Option.bind_eq_some_iff] at h
  obtain ⟨l, -, h⟩ := h
  split at h
  · exact entries_rotateRight h
  · cases h
    rfl

theorem entries_raiseReds (h : pnode.raiseReds = some pnode') :
    pnode'.entries = pnode.entries := by
  simp only [raiseReds, bind, Option.bind_eq_some_iff] at h
  obtain ⟨l, -, r, -, h⟩ := h
  split at h
  · exact entries_flipColors h
  · cases h
    rfl

theorem entries_fixup (h : pnode.fixup = some pnode') : pnode'.entries = pnode.entries := by
  simp only [fixup, bind, Option.bind_eq_some_iff] at h
  obtain ⟨p, hp, q, hq, h⟩ := h
  rw [entries_raiseReds h, entries_spreadReds hq, entries_leanLeft hp]

end Entries

def removeMinNode (pnode : Node K α) : Option (Node K α) :=
  match pnode with
  | null => none
  | node _ _ _ null _ => some null
  | node c key obj (node c' key' obj' l' r') r =>
    match _h : descendLeft (node c key obj (node c' key' obj' l' r') r) with
    | some (node c key obj l r) => do
        let l ← removeMinNode l
        (node c key obj l r).fixup
    | _ => none
termination_by pnode.entries.length
decreasing_by
  have := congrArg List.length (entries_descendLeft _h)
  simp only [entries, List.length_append, List.length_cons] at this ⊢
  omega

variable {l : Node K α} {c : Color} {obj : α} {key : K}

theorem removeMinNode_descend {c₁ : Color} {key₁ : K} {obj₁ : α} {l₁ r₁ : Node K α} (hl : l ≠ null)
    (h : descendLeft (node c key obj l r) = some (node c₁ key₁ obj₁ l₁ r₁)) :
    removeMinNode (node c key obj l r) =
      (removeMinNode l₁).bind fun l => (node c₁ key₁ obj₁ l r₁).fixup := by
  cases l with
  | null => exact absurd rfl hl
  | node c' key' obj' l' r' =>
    rw [removeMinNode]
    split
    · rename_i heq
      rw [h] at heq
      cases heq
      rfl
    · rename_i hne
      exact absurd h (hne _ _ _ _ _)

variable [LinearOrder K]

def find : Node K α → K → Option (K × α)
  | null, _ => none
  | node _ key' obj l r, key =>
    if key = key' then some (key', obj)
    else if key < key' then l.find key
    else r.find key

def findNearest : Node K α → K → Option (K × α)
  | null, _ => none
  | node _ key' obj l r, key =>
    if key = key' then some (key', obj)
    else if key < key' then
      if l.fEmpty then some (key', obj) else l.findNearest key
    else
      if r.fEmpty then some (key', obj) else r.findNearest key

/-- The descent of `ErrFindGreaterThanOrEqual`, with the last node that was larger than the key. -/
def findGreaterThanOrEqual : Node K α → K → Option (K × α) → Option (K × α)
  | null, _, pnodeMatch => pnodeMatch
  | node _ key' obj l r, key, pnodeMatch =>
    if key = key' then some (key', obj)
    else if key < key' then l.findGreaterThanOrEqual key (some (key', obj))
    else r.findGreaterThanOrEqual key pnodeMatch

/-- `ErrInsert_`: the new node is linked red, and every node of the path is fixed up on the way
back, also when the key was found. -/
def insertNode (key : K) (obj : α) : Node K α → Option (Err × Node K α)
  | null => some (.success, node .red key obj null null)
  | node c key' obj' l r =>
    if key = key' then do
      let pnode ← (node c key' obj' l r).fixup
      some (.duplicateEntry, pnode)
    else if key < key' then do
      let (err, l) ← insertNode key obj l
      let pnode ← (node c key' obj' l r).fixup
      some (err, pnode)
    else do
      let (err, r) ← insertNode key obj r
      let pnode ← (node c key' obj' l r).fixup
      some (err, pnode)

/-- `Delete_`: the subtree without the key, and the deleted node. -/
def deleteNode (pnode : Node K α) (key : K) : Option (Node K α × (K × α)) :=
  match pnode with
  | null => none
  | node c key' obj' l r =>
    if key < key' then
      match _h : descendLeft (node c key' obj' l r) with
      | some (node c key' obj' l r) => do
          let (l, deleted) ← deleteNode l key
          let pnode ← (node c key' obj' l r).fixup
          some (pnode, deleted)
      | _ => none
    else
      match _h : leanRight (node c key' obj' l r) with
      | some (node c key' obj' l r) =>
        if key = key' ∧ r.fEmpty then some (null, (key', obj'))
        else
          match _h' : descendRight (node c key' obj' l r) with
          | some (node c key' obj' l r) =>
            if key = key' then do
              let min ← r.pnodeMin
              let r ← r.removeMinNode
              let pnode ← (node c min.1 min.2 l r).fixup
              some (pnode, (key', obj'))
            else do
              let (r, deleted) ← deleteNode r key
              let pnode ← (node c key' obj' l r).fixup
              some (pnode, deleted)
          | _ => none
      | _ => none
termination_by pnode.entries.length
decreasing_by
  · have := congrArg List.length (entries_descendLeft _h)
    simp only [entries, List.length_append, List.length_cons] at this ⊢
    omega
  · have hlean := congrArg List.length (entries_leanRight _h)
    have hdesc := congrArg List.length (entries_descendRight _h')
    simp only [entries, List.length_append, List.length_cons] at hlean hdesc ⊢
    omega

/-- What `deleteNode` does to the left, once the node is prepared. -/
def deleteLeft (key : K) : Node K α → Option (Node K α × (K × α))
  | null => none
  | node c key' obj' l r =>
    (deleteNode l key).bind fun x =>
      (node c key' obj' x.1 r).fixup.bind fun pnode => some (pnode, x.2)

def deleteRight (key : K) : Node K α → Option (Node K α × (K × α))
  | null => none
  | node c key' obj' l r =>
    if key = key' then
      r.pnodeMin.bind fun min => r.removeMinNode.bind fun r =>
        (node c min.1 min.2 l r).fixup.bind fun pnode => some (pnode, (key', obj'))
    else
      (deleteNode r key).bind fun x =>
        (node c key' obj' l x.1).fixup.bind fun pnode => some (pnode, x.2)

def deleteLeaned (key : K) : Node K α → Option (Node K α × (K × α))
  | null => none
  | node c key' obj' l r =>
    if key = key' ∧ r.fEmpty then some (null, (key', obj'))
    else (descendRight (node c key' obj' l r)).bind (deleteRight key)

theorem deleteNode_lt {key' : K} (hlt : key < key') : deleteNode (node c key' obj l r) key =
      (descendLeft (node c key' obj l r)).bind (deleteLeft key) := by
  rw [deleteNode, if_pos hlt]
  split
  · rename_i heq
    rw [heq]
    rfl
  · rename_i hne
    rcases hdesc : descendLeft (node c key' obj l r) with _ | _ | ⟨c₁, key₁, obj₁, l₁, r₁⟩
    · rfl
    · rfl
    · exact absurd hdesc (hne _ _ _ _ _)

theorem deleteNode_ge {key' : K} (hge : ¬ key < key') : deleteNode (node c key' obj l r) key =
      (leanRight (node c key' obj l r)).bind (deleteLeaned key) := by
  rw [deleteNode, if_neg hge]
  split
  · rename_i c₁ key₁ obj₁ l₁ r₁ heq
    rw [heq, Option.bind_some, deleteLeaned]
    split
    · rfl
    · split
      · rename_i heq
        rw [heq]
        rfl
      · rename_i hne
        rcases hdesc : descendRight (node c₁ key₁ obj₁ l₁ r₁) with _ | _ | ⟨c₂, key₂, obj₂, l₂, r₂⟩
        · rfl
        · rfl
        · exact absurd hdesc (hne _ _ _ _ _)
  · rename_i hne
    rcases hlean : leanRight (node c key' obj l r) with _ | _ | ⟨c₁, key₁, obj₁, l₁, r₁⟩
    · rfl
    · rfl
    · exact absurd hlean (hne _ _ _ _ _)

def errFind (pnodeRoot : Node K α) (key : K) : Err × Option (K × α) :=
  match pnodeRoot.find key with
  | none => (.entryNotFound, none)
  | some e => (.success, some e)

def errFindNearest (pnodeRoot : Node K α) (key : K) : Err × Option (K × α) :=
  match pnodeRoot.findNearest key with
  | none => (.entryNotFound, none)
  | some e => (.success, some e)

def errFindGreaterThanOrEqual (pnodeRoot : Node K α) (key : K) : Err × Option (K × α) :=
  match pnodeRoot.findGreaterThanOrEqual key none with
  | none => (.entryNotFound, none)
  | some e => (.success, some e)

def errInsert (pnodeRoot : Node K α) (key : K) (obj : α) : Option (Err × Node K α) :=
  insertNode key obj pnodeRoot

def errDelete (pnodeRoot : Node K α) (key : K) :
    Option ((Err × Option (K × α)) × Node K α) :=
  match pnodeRoot.find key with
  | none => some ((.entryNotFound, none), pnodeRoot)
  | some _ => do
      let (pnodeRoot, deleted) ← pnodeRoot.deleteNode key
      some ((.success, some deleted), pnodeRoot)

end Node

section Trees

variable {ι : Type w} [DecidableEq ι] {K : Type u} {α : Type v} [LinearOrder K]

open Node Function

/-- `Move` of the tree `src` into the tree `dst`, among the trees of a program. A tree that is not
empty is left as it is. -/
def move (trees : ι → Node K α) (dst src : ι) : ι → Node K α :=
  if (trees dst).fEmpty then
    update (update trees dst (trees src)) src null
  else trees

/-- The loop of `ErrMerge`, for at most so many rounds: the root of the source is deleted there and
inserted into the target or, as a duplicate, among the left-overs. -/
def mergeLoop : Nat → (ι → Node K α) → ι → ι → Node K α → Option ((ι → Node K α) × Node K α)
  | 0, _, _, _, _ => none
  | rounds + 1, trees, dst, src, leftOvers =>
    match trees src with
    | null => some (trees, leftOvers)
    | node _ keyMove pnodeMove _ _ =>
      (errDelete (trees src) keyMove).bind fun del =>
      let trees := update trees src del.2
      (errInsert (trees dst) keyMove pnodeMove).bind fun ins =>
      let trees := update trees dst ins.2
      if ins.1 = .success then mergeLoop rounds trees dst src leftOvers
      else
        (errInsert leftOvers keyMove pnodeMove).bind fun left =>
        mergeLoop rounds trees dst src left.2

/-- `ErrMerge`. The loop is followed for one round more than the source has nodes; `none` then
stands for a loop that is still running. -/
def errMerge (trees : ι → Node K α) (dst src : ι) : Option (Err × (ι → Node K α)) :=
  let trees := if (trees dst).fEmpty then move trees dst src else trees
  (mergeLoop ((trees src).entries.length + 1) trees dst src null).bind fun done =>
    if done.2.fEmpty then some (.success, done.1)
    else some (.duplicateEntry, if (done.1 src).fEmpty then update done.1 src done.2 else done.1)

end Trees

end EseLinux.RedBlackTree
