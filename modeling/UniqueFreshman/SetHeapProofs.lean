import UniqueFreshman.SetRefinementProofs
import UniqueFreshman.StoredTreeProofs

/-! # The set on a heap — `Set.h`, one assignment at a time

    `SetTree` takes a pointer for the tree it points to.  Here the nodes are
    where the source keeps them: every `h->left = x` writes one cell of a heap,
    `new` and `delete` allocate and free one, and what a function does not write
    stays.  A read or a write through a null pointer, or at a deleted node, is a
    `Fault`; so is running out of the fuel of a recursion, which is one more than
    the addresses in use. -/

namespace SetHeap

open StoredTree SetTree CallSequence

/-- What a node carries next to its links. -/
structure Label (T : Type) where
  value : T
  color : Color
  deriving DecidableEq, Repr

abbrev Heap (T : Type) := StoredTree.Heap (Label T)

variable {T : Type}

/-! ## Access to a node -/

/-- `*p`. -/
def deref (s : Heap T) : Ptr → Except Fault (Cell (Label T))
  | none => .error .nullDeref
  | some a => match s.cell a with
    | some n => .ok n
    | none => .error .useAfterFree

/-- An assignment to a field of `*p`. -/
def assign (s : Heap T) (p : Ptr) (f : Cell (Label T) → Cell (Label T)) :
    Except Fault (Heap T) :=
  match p with
  | none => .error .nullDeref
  | some a => if (s.cell a).isSome then .ok (s.modify a f) else .error .useAfterFree

/-- `p->left = x`. -/
def setLeft (s : Heap T) (p x : Ptr) : Except Fault (Heap T) :=
  assign s p fun n => { n with left := x }

/-- `p->right = x`. -/
def setRight (s : Heap T) (p x : Ptr) : Except Fault (Heap T) :=
  assign s p fun n => { n with right := x }

/-- `p->color = c`. -/
def setColor (s : Heap T) (p : Ptr) (c : Color) : Except Fault (Heap T) :=
  assign s p fun n => { n with label := { n.label with color := c } }

/-- `p->value = v`. -/
def setValue (s : Heap T) (p : Ptr) (v : T) : Except Fault (Heap T) :=
  assign s p fun n => { n with label := { n.label with value := v } }

/-- `delete p`, for a `p` that is not null. -/
def delete (s : Heap T) : Ptr → Except Fault (Heap T)
  | none => .error .nullDeref
  | some a => if (s.cell a).isSome then .ok (s.free a) else .error .useAfterFree

/-- `isRed`. -/
def isRed (s : Heap T) (h : Ptr) : Except Fault Bool := do
  if h = none then pure false
  else
    let n ← deref s h
    pure (n.label.color == .red)

/-- `isRed(h) && isRed(h->left)`. -/
def isRedRed (s : Heap T) (h : Ptr) : Except Fault Bool := do
  if ← isRed s h then
    let n ← deref s h
    isRed s n.left
  else pure false

/-- `!isRed(h) && !isRed(h->left)`. -/
def isBlackBlack (s : Heap T) (h : Ptr) : Except Fault Bool := do
  if ← isRed s h then pure false
  else
    let n ← deref s h
    let red ← isRed s n.left
    pure !red

/-! ## The private functions -/

/-- `leftRotate`. -/
def leftRotate (s : Heap T) (h : Ptr) : Except Fault (Heap T × Ptr) := do
  let x := (← deref s h).right
  let s ← setRight s h (← deref s x).left
  let s ← setLeft s x h
  -- `x->color = x->left->color` and `x->left->color = RED`
  let s ← setColor s x (← deref s (← deref s x).left).label.color
  let s ← setColor s (← deref s x).left .red
  pure (s, x)

/-- `rightRotate`. -/
def rightRotate (s : Heap T) (h : Ptr) : Except Fault (Heap T × Ptr) := do
  let x := (← deref s h).left
  let s ← setLeft s h (← deref s x).right
  let s ← setRight s x h
  let s ← setColor s x (← deref s (← deref s x).right).label.color
  let s ← setColor s (← deref s x).right .red
  pure (s, x)

/-- `if (h != nullptr) h->color = !h->color`. -/
def flipChild (s : Heap T) (h : Ptr) : Except Fault (Heap T) := do
  if h = none then pure s
  else setColor s h (← deref s h).label.color.flip

/-- `colorFlip`. -/
def colorFlip (s : Heap T) (h : Ptr) : Except Fault (Heap T × Ptr) := do
  let s ← setColor s h (← deref s h).label.color.flip
  let s ← flipChild s (← deref s h).left
  let s ← flipChild s (← deref s h).right
  pure (s, h)

/-- The three repairs at the end of `insert`, with its null tests. -/
def insertFix (s : Heap T) (h : Ptr) : Except Fault (Heap T × Ptr) := do
  let n ← deref s h
  let (s, h) ← if n.right = none then pure (s, h)
    else do if ← isRed s n.right then leftRotate s h else pure (s, h)
  let n ← deref s h
  let (s, h) ← if n.left = none then pure (s, h)
    else do if ← isRedRed s n.left then rightRotate s h else pure (s, h)
  let n ← deref s h
  if n.left = none ∨ n.right = none then pure (s, h)
  else do
    if ← isRed s n.left then
      if ← isRed s n.right then colorFlip s h else pure (s, h)
    else pure (s, h)

/-- `fixUp`. -/
def fixUp (s : Heap T) (h : Ptr) : Except Fault (Heap T × Ptr) := do
  let n ← deref s h
  let (s, h) ← if ← isRed s n.right then leftRotate s h else pure (s, h)
  let n ← deref s h
  let (s, h) ← if ← isRedRed s n.left then rightRotate s h else pure (s, h)
  let n ← deref s h
  if ← isRed s n.left then
    if ← isRed s n.right then colorFlip s h else pure (s, h)
  else pure (s, h)

/-- `moveRedRight`. -/
def moveRedRight (s : Heap T) (h : Ptr) : Except Fault (Heap T × Ptr) := do
  let (s, h) ← colorFlip s h
  let n ← deref s h
  if n.left = none then pure (s, h)
  else do
    let left ← deref s n.left
    if ← isRed s left.left then
      let (s, h) ← rightRotate s h
      colorFlip s h
    else pure (s, h)

/-- `moveRedLeft`. -/
def moveRedLeft (s : Heap T) (h : Ptr) : Except Fault (Heap T × Ptr) := do
  let (s, h) ← colorFlip s h
  let n ← deref s h
  if n.right = none then pure (s, h)
  else do
    let right ← deref s n.right
    if ← isRed s right.left then
      let (s, right) ← rightRotate s n.right
      let s ← setRight s h right
      let (s, h) ← leftRotate s h
      colorFlip s h
    else pure (s, h)

/-- The loop of `min`. -/
def minFrom (s : Heap T) : Nat → Ptr → Except Fault T
  | 0, _ => .error .outOfFuel
  | fuel + 1, x => do
      let n ← deref s x
      if n.left = none then pure n.label.value else minFrom s fuel n.left

/-- `min`. -/
def min (s : Heap T) (h : Ptr) : Except Fault T :=
  minFrom s (s.next + 1) h

/-- The step of `eraseMin` and of `erase` in front of the left child. -/
def pushLeft (s : Heap T) (h : Ptr) : Except Fault (Heap T × Ptr) := do
  let n ← deref s h
  if ← isBlackBlack s n.left then moveRedLeft s h else pure (s, h)

/-- `eraseMin`. -/
def eraseMin : Nat → Heap T → Ptr → Except Fault (Heap T × Ptr)
  | 0, _, _ => .error .outOfFuel
  | fuel + 1, s, h => do
      if h = none then pure (s, none)
      else
        let n ← deref s h
        if n.left = none then
          let s ← delete s h
          pure (s, none)
        else
          let (s, h) ← pushLeft s h
          let (s, left) ← eraseMin fuel s (← deref s h).left
          let s ← setLeft s h left
          fixUp s h

/-- `freeSubtree`. -/
def freeSubtree : Nat → Heap T → Ptr → Except Fault (Heap T)
  | 0, _, _ => .error .outOfFuel
  | fuel + 1, s, h => do
      if h = none then pure s
      else
        let left := (← deref s h).left
        let s ← if left ≠ none then freeSubtree fuel s left else pure s
        let right := (← deref s h).right
        let s ← if right ≠ none then freeSubtree fuel s right else pure s
        delete s h

section Ordered

variable [LinearOrder T]

/-- The private `insert`. -/
def insert (value : T) : Nat → Heap T → Ptr → Except Fault (Heap T × Ptr)
  | 0, _, _ => .error .outOfFuel
  | fuel + 1, s, h => do
      if h = none then pure (s.alloc ⟨⟨value, .red⟩, none, none⟩, some s.next)
      else
        let n ← deref s h
        if value < n.label.value then
          let (s, left) ← insert value fuel s n.left
          let s ← setLeft s h left
          insertFix s h
        else if value > n.label.value then
          let (s, right) ← insert value fuel s n.right
          let s ← setRight s h right
          insertFix s h
        else insertFix s h

/-- The first test of `erase` on its right-hand side: lean a red left link to
    the right. -/
def leanRight (s : Heap T) (h : Ptr) : Except Fault (Heap T × Ptr) := do
  let n ← deref s h
  if n.left = none then pure (s, h)
  else do if ← isRed s n.left then rightRotate s h else pure (s, h)

/-- The second: give the right child a red link. -/
def pushRight (s : Heap T) (h : Ptr) : Except Fault (Heap T × Ptr) := do
  let n ← deref s h
  if n.right = none then pure (s, h)
  else do if ← isBlackBlack s n.right then moveRedRight s h else pure (s, h)

/-- The private `erase`.  Where it returns a null pointer it deletes nothing. -/
def erase (value : T) : Nat → Heap T → Ptr → Except Fault (Heap T × Ptr)
  | 0, _, _ => .error .outOfFuel
  | fuel + 1, s, h => do
      let n ← deref s h
      if value < n.label.value then
        let (s, h) ← pushLeft s h
        let (s, left) ← erase value fuel s (← deref s h).left
        let s ← setLeft s h left
        fixUp s h
      else
        let (s, h) ← leanRight s h
        let n ← deref s h
        if value = n.label.value ∧ n.right = none then pure (s, none)
        else do
          let (s, h) ← pushRight s h
          let n ← deref s h
          if value = n.label.value then
            let s ← setValue s h (← min s n.right)
            let (s, right) ← eraseMin fuel s n.right
            let s ← setRight s h right
            fixUp s h
          else
            let (s, right) ← erase value fuel s n.right
            let s ← setRight s h right
            fixUp s h

/-- The loop of `count`. -/
def countFrom (s : Heap T) (value : T) : Nat → Ptr → Except Fault UInt64
  | 0, _ => .error .outOfFuel
  | fuel + 1, cur => do
      if cur = none then pure 0
      else
        let n ← deref s cur
        if value < n.label.value then countFrom s value fuel n.left
        else if value = n.label.value then pure 1
        else countFrom s value fuel n.right

/-! ## The public functions -/

/-- `unique::set<T>`, with the heap its nodes are in. -/
structure Set (T : Type) where
  heap : Heap T
  size_ : UInt64
  root : Ptr

/-- The constructor `set()`. -/
def Set.fresh : Set T :=
  ⟨.blank, 0, none⟩

/-- The fuel of a recursion over nodes. -/
def Set.fuel (s : Set T) : Nat :=
  s.heap.next + 1

/-- `count`. -/
def Set.count (s : Set T) (value : T) : Except Fault UInt64 :=
  countFrom s.heap value s.fuel s.root

/-- `insert`. -/
def Set.insert (s : Set T) (value : T) : Except Fault (Set T) := do
  let found ← s.count value
  let (heap, root) ← SetHeap.insert value s.fuel s.heap s.root
  let heap ← setColor heap root .black
  pure ⟨heap, s.size_ + (if found = 0 then 1 else 0), root⟩

/-- `erase`. -/
def Set.erase (s : Set T) (value : T) : Except Fault (Set T × UInt64) := do
  let ret_value ← s.count value
  if ret_value = 0 then pure ({ s with size_ := s.size_ - ret_value }, ret_value)
  else do
    let (heap, root) ← SetHeap.erase value s.fuel s.heap s.root
    let heap ← if root = none then pure heap else setColor heap root .black
    pure (⟨heap, s.size_ - ret_value, root⟩, ret_value)

/-- `clear`: `root` is not assigned. -/
def Set.clear (s : Set T) : Except Fault (Set T) := do
  let heap ← freeSubtree s.fuel s.heap s.root
  pure { s with heap := heap, size_ := 0 }

/-- One call of a public member function. -/
def Set.call (s : Set T) : Call T → Except Fault (Set T × Answer)
  | .insert value => do
      let s' ← s.insert value
      pure (s', .nothing)
  | .erase value => do
      let (s', n) ← s.erase value
      pure (s', .number n.toNat)
  | .count value => do
      let n ← s.count value
      pure (s, .number n.toNat)
  | .size => pure (s, .number s.size_.toNat)
  | .empty => pure (s, .truth (s.size_ == 0))
  | .clear => do
      let s' ← s.clear
      pure (s', .nothing)

/-- A sequence of calls, with their answers. -/
def Set.calls (s : Set T) (cs : List (Call T)) : Except Fault (Set T × List Answer) :=
  CallSequence.run Set.call s cs

end Ordered

end SetHeap
