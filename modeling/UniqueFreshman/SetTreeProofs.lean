import Mathlib
import UniqueFreshman.CallSequenceProofs

/-! # The left-leaning red-black set — `Set.h` as functions

    `unique::set<T>` keeps its elements in a left-leaning red-black tree of
    heap nodes.  No node is ever shared between two links, so a pointer is
    modelled by the subtree it points to; what a pointer can be besides a node
    is kept:

    * `null`, and `freed` (a pointer to a node that was deleted): reading
      through either is a `Fault`;
    * `eraseMin` and `erase` call themselves on a child of the REBUILT subtree,
      so they take a fuel, and running out of it is a fault as well. -/

namespace SetTree

/-- `RED` and `BLACK`. -/
inductive Color where
  | red
  | black
  deriving DecidableEq, Repr

/-- `!color`. -/
def Color.flip : Color → Color
  | .red => .black
  | .black => .red

/-- What a `node *` can be. -/
inductive Tree (T : Type) where
  | null
  | freed
  | node (color : Color) (value : T) (left right : Tree T)
  deriving DecidableEq, Repr

/-- What goes wrong at run time. -/
inductive Fault where
  | nullDeref
  | useAfterFree
  | outOfFuel
  deriving DecidableEq, Repr

/-- The fields read through a pointer. -/
structure Node (T : Type) where
  color : Color
  value : T
  left : Tree T
  right : Tree T

variable {T : Type}

/-- `*h`. -/
def deref : Tree T → Except Fault (Node T)
  | .null => .error .nullDeref
  | .freed => .error .useAfterFree
  | .node color value left right => .ok ⟨color, value, left, right⟩

/-- `h == nullptr`. -/
def isNull : Tree T → Bool
  | .null => true
  | .freed | .node .. => false

/-- `isRed`. -/
def isRed : Tree T → Except Fault Bool
  | .null => .ok false
  | .freed => .error .useAfterFree
  | .node color _ _ _ => .ok (color == .red)

/-- `isRed(h) && isRed(h->left)`. -/
def isRedRed (h : Tree T) : Except Fault Bool := do
  if ← isRed h then
    let n ← deref h
    isRed n.left
  else pure false

/-- `!isRed(h) && !isRed(h->left)`. -/
def isBlackBlack (h : Tree T) : Except Fault Bool := do
  if ← isRed h then pure false
  else
    let n ← deref h
    let red ← isRed n.left
    pure !red

/-! ## The private functions -/

/-- `leftRotate`. -/
def leftRotate (h : Tree T) : Except Fault (Tree T) := do
  let n ← deref h
  let x ← deref n.right
  pure (.node n.color x.value (.node .red n.value n.left x.left) x.right)

/-- `rightRotate`. -/
def rightRotate (h : Tree T) : Except Fault (Tree T) := do
  let n ← deref h
  let x ← deref n.left
  pure (.node n.color x.value x.left (.node .red n.value x.right n.right))

/-- `if (h != nullptr) h->color = !h->color`. -/
def flipChild : Tree T → Except Fault (Tree T)
  | .null => .ok .null
  | .freed => .error .useAfterFree
  | .node color value left right => .ok (.node color.flip value left right)

/-- `colorFlip`. -/
def colorFlip (h : Tree T) : Except Fault (Tree T) := do
  let n ← deref h
  let left ← flipChild n.left
  let right ← flipChild n.right
  pure (.node n.color.flip n.value left right)

/-- The three repairs at the end of `insert`, with its null tests. -/
def insertFix (h : Tree T) : Except Fault (Tree T) := do
  let n ← deref h
  let h ← if isNull n.right then pure h
    else do if ← isRed n.right then leftRotate h else pure h
  let n ← deref h
  let h ← if isNull n.left then pure h
    else do if ← isRedRed n.left then rightRotate h else pure h
  let n ← deref h
  if isNull n.left || isNull n.right then pure h
  else do
    if ← isRed n.left then
      if ← isRed n.right then colorFlip h else pure h
    else pure h

/-- `fixUp`. -/
def fixUp (h : Tree T) : Except Fault (Tree T) := do
  let n ← deref h
  let h ← if ← isRed n.right then leftRotate h else pure h
  let n ← deref h
  let h ← if ← isRedRed n.left then rightRotate h else pure h
  let n ← deref h
  if ← isRed n.left then
    if ← isRed n.right then colorFlip h else pure h
  else pure h

/-- `moveRedRight`. -/
def moveRedRight (h : Tree T) : Except Fault (Tree T) := do
  let h ← colorFlip h
  let n ← deref h
  if isNull n.left then pure h
  else do
    let left ← deref n.left
    if ← isRed left.left then
      let h ← rightRotate h
      colorFlip h
    else pure h

/-- `moveRedLeft`. -/
def moveRedLeft (h : Tree T) : Except Fault (Tree T) := do
  let h ← colorFlip h
  let n ← deref h
  if isNull n.right then pure h
  else do
    let right ← deref n.right
    if ← isRed right.left then
      let right ← rightRotate n.right
      let h ← leftRotate (.node n.color n.value n.left right)
      colorFlip h
    else pure h

/-- `min`. -/
def min : Tree T → Except Fault T
  | .null => .error .nullDeref
  | .freed => .error .useAfterFree
  | .node _ value left _ => if isNull left then .ok value else min left

/-- `eraseMin`. -/
def eraseMin : Nat → Tree T → Except Fault (Tree T)
  | 0, _ => .error .outOfFuel
  | fuel + 1, h =>
      if isNull h then pure .null
      else do
        let n ← deref h
        if isNull n.left then pure .null
        else do
          let h ← if ← isBlackBlack n.left then moveRedLeft h else pure h
          let n ← deref h
          let left ← eraseMin fuel n.left
          fixUp (.node n.color n.value left n.right)

variable [LinearOrder T]

/-- The private `insert`. -/
def insert (value : T) : Tree T → Except Fault (Tree T)
  | .null => pure (.node .red value .null .null)
  | .freed => .error .useAfterFree
  | .node c x left right => do
      if value < x then
        let left ← insert value left
        insertFix (.node c x left right)
      else if value > x then
        let right ← insert value right
        insertFix (.node c x left right)
      else insertFix (.node c x left right)

/-- The first test of `erase` on its right-hand side: lean a red left link to
    the right. -/
def leanRight (h : Tree T) : Except Fault (Tree T) := do
  let n ← deref h
  if isNull n.left then pure h
  else do if ← isRed n.left then rightRotate h else pure h

/-- The second: give the right child a red link. -/
def pushRight (h : Tree T) : Except Fault (Tree T) := do
  let n ← deref h
  if isNull n.right then pure h
  else do if ← isBlackBlack n.right then moveRedRight h else pure h

/-- The private `erase`. -/
def erase (value : T) : Nat → Tree T → Except Fault (Tree T)
  | 0, _ => .error .outOfFuel
  | fuel + 1, h => do
      let n ← deref h
      if value < n.value then
        let h ← if ← isBlackBlack n.left then moveRedLeft h else pure h
        let n ← deref h
        let left ← erase value fuel n.left
        fixUp (.node n.color n.value left n.right)
      else
        let h ← leanRight h
        let n ← deref h
        if value = n.value ∧ isNull n.right then pure .null
        else do
          let h ← pushRight h
          let n ← deref h
          if value = n.value then
            let least ← min n.right
            let right ← eraseMin fuel n.right
            fixUp (.node n.color least n.left right)
          else
            let right ← erase value fuel n.right
            fixUp (.node n.color n.value n.left right)

/-- The loop of `count`; in a linear order its third test is what is left. -/
def countFrom (value : T) : Tree T → Except Fault UInt64
  | .null => .ok 0
  | .freed => .error .useAfterFree
  | .node _ x left right =>
      if value < x then countFrom value left
      else if value = x then .ok 1
      else countFrom value right

/-- `freeSubtree(h)`, as what the pointer is worth afterwards. -/
def freeSubtree : Tree T → Except Fault (Tree T)
  | .null => .ok .null
  | .freed => .error .useAfterFree
  | .node _ _ left right => do
      let _ ← freeSubtree left
      let _ ← freeSubtree right
      pure .freed

/-- The number of nodes below a pointer. -/
def nodes : Tree T → Nat
  | .null | .freed => 0
  | .node _ _ left right => nodes left + 1 + nodes right

/-! ## The public functions -/

/-- `unique::set<T>`. -/
structure Set (T : Type) where
  size_ : UInt64
  root : Tree T
  deriving DecidableEq, Repr

/-- The constructor `set()`. -/
def Set.fresh : Set T :=
  ⟨0, .null⟩

/-- `root->color = BLACK`. -/
def blacken (h : Tree T) : Except Fault (Tree T) := do
  let n ← deref h
  pure (.node .black n.value n.left n.right)

/-- `empty`. -/
def Set.empty (s : Set T) : Bool :=
  s.size_ == 0

/-- `size`. -/
def Set.size (s : Set T) : UInt64 :=
  s.size_

/-- `count`. -/
def Set.count (s : Set T) (value : T) : Except Fault UInt64 :=
  countFrom value s.root

/-- `insert`. -/
def Set.insert (s : Set T) (value : T) : Except Fault (Set T) := do
  let found ← s.count value
  let root ← SetTree.insert value s.root
  let root ← blacken root
  pure ⟨s.size_ + (if found = 0 then 1 else 0), root⟩

/-- `erase`.  The recursion has a frame for every node it can meet. -/
def Set.erase (s : Set T) (value : T) : Except Fault (Set T × UInt64) := do
  let found ← s.count value
  if found = 0 then pure (⟨s.size_ - found, s.root⟩, found)
  else do
    let root ← SetTree.erase value (nodes s.root) s.root
    let root ← if isNull root then pure root else blacken root
    pure (⟨s.size_ - found, root⟩, found)

/-- `clear`: the size is reset and the nodes are freed; `root` is not assigned. -/
def Set.clear (s : Set T) : Except Fault (Set T) := do
  let root ← freeSubtree s.root
  pure ⟨0, root⟩

/-! ## Sequences of calls -/

/-- A call of a public member function. -/
inductive Call (T : Type) where
  | insert (value : T)
  | erase (value : T)
  | count (value : T)
  | size
  | empty
  | clear
  deriving DecidableEq, Repr

/-- What a call returns. -/
inductive Answer where
  | nothing
  | number (n : Nat)
  | truth (b : Bool)
  deriving DecidableEq, Repr

/-- One call. -/
def Set.call (s : Set T) : Call T → Except Fault (Set T × Answer)
  | .insert value => do
      let s' ← s.insert value
      pure (s', .nothing)
  | .erase value => do
      let (s', n) ← s.erase value
      pure (s', .number n.toNat)
  | .count value => do
      let n ← s.count value
      pure (s, .number n.toNat)
  | .size => pure (s, .number s.size.toNat)
  | .empty => pure (s, .truth s.empty)
  | .clear => do
      let s' ← s.clear
      pure (s', .nothing)

/-- A sequence of calls, with their answers. -/
def Set.calls (s : Set T) (cs : List (Call T)) : Except Fault (Set T × List Answer) :=
  CallSequence.run Set.call s cs

end SetTree
