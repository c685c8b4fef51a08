import Mathlib
import UniqueFreshman.CallSequenceProofs

/-! # The priority queue — `PriorityQueue.h` on a heap of nodes

    `unique::priority_queue<T>` is a forest of binomial trees.  Its roots are a
    doubly linked list, its children are lists along `right`, and `pop` copies,
    swaps and relinks nodes in place, so the nodes are kept where the source
    keeps them: in a heap with one map for each field of `node`.

    * `value a = none`: there is no node at `a` (not allocated, or deleted).
      Reading or writing a field there, or through a null pointer, is a `Fault`.
    * So is an index outside of `tree_size`, and a `degree` that leaves `int`.
    * `log(x) / log(2)` is the exact base-2 logarithm, truncated (`Nat.log2`).
    * A `while` loop has a fuel of one more than the addresses in use, and to run
      out of it is a fault. -/

namespace PriorityQueue

abbrev Addr := Nat

/-- `node *`. -/
abbrev Ptr := Option Addr

/-- What goes wrong at run time; `exit` is the `exit(1)` of `pop`. -/
inductive Fault where
  | nullDeref
  | useAfterFree
  | outOfBounds
  | overflow
  | exit
  | outOfFuel
  deriving DecidableEq, Repr

/-- The nodes, field by field. -/
structure Heap (T : Type) where
  value : Addr → Option T
  degree : Addr → Nat
  left : Addr → Ptr
  right : Addr → Ptr
  parent : Addr → Ptr
  child : Addr → Ptr
  next : Addr

variable {T : Type}

/-! ## Access to a node -/

namespace Heap

/-- No node yet. -/
def blank : Heap T where
  value _ := none
  degree _ := 0
  left _ := none
  right _ := none
  parent _ := none
  child _ := none
  next := 0

/-- The node behind a pointer. -/
def deref (h : Heap T) : Ptr → Except Fault Addr
  | none => .error .nullDeref
  | some a => if (h.value a).isSome then .ok a else .error .useAfterFree

/-- `p->value`. -/
def getValue (h : Heap T) : Ptr → Except Fault T
  | none => .error .nullDeref
  | some a => match h.value a with
    | some v => .ok v
    | none => .error .useAfterFree

/-- `p->degree`. -/
def getDegree (h : Heap T) (p : Ptr) : Except Fault Nat := do
  return h.degree (← h.deref p)

/-- `p->left`. -/
def getLeft (h : Heap T) (p : Ptr) : Except Fault Ptr := do
  return h.left (← h.deref p)

/-- `p->right`. -/
def getRight (h : Heap T) (p : Ptr) : Except Fault Ptr := do
  return h.right (← h.deref p)

/-- `p->parent`. -/
def getParent (h : Heap T) (p : Ptr) : Except Fault Ptr := do
  return h.parent (← h.deref p)

/-- `p->child`. -/
def getChild (h : Heap T) (p : Ptr) : Except Fault Ptr := do
  return h.child (← h.deref p)

/-- `p->value = v`. -/
def setValue (h : Heap T) (p : Ptr) (v : T) : Except Fault (Heap T) := do
  let a ← h.deref p
  return { h with value := Function.update h.value a (some v) }

/-- `p->left = x`. -/
def setLeft (h : Heap T) (p x : Ptr) : Except Fault (Heap T) := do
  let a ← h.deref p
  return { h with left := Function.update h.left a x }

/-- `p->right = x`. -/
def setRight (h : Heap T) (p x : Ptr) : Except Fault (Heap T) := do
  let a ← h.deref p
  return { h with right := Function.update h.right a x }

/-- `p->parent = x`. -/
def setParent (h : Heap T) (p x : Ptr) : Except Fault (Heap T) := do
  let a ← h.deref p
  return { h with parent := Function.update h.parent a x }

/-- `p->child = x`. -/
def setChild (h : Heap T) (p x : Ptr) : Except Fault (Heap T) := do
  let a ← h.deref p
  return { h with child := Function.update h.child a x }

/-- `p->degree *= 2`, on an `int` of 32 bits. -/
def doubleDegree (h : Heap T) (p : Ptr) : Except Fault (Heap T) := do
  let a ← h.deref p
  if h.degree a * 2 < 2 ^ 31 then
    return { h with degree := Function.update h.degree a (h.degree a * 2) }
  else .error .overflow

/-- A new node with null links. -/
def alloc (h : Heap T) (v : T) (degree : Nat) (child : Ptr) : Heap T where
  value := Function.update h.value h.next (some v)
  degree := Function.update h.degree h.next degree
  left := Function.update h.left h.next none
  right := Function.update h.right h.next none
  parent := Function.update h.parent h.next none
  child := Function.update h.child h.next child
  next := h.next + 1

/-- `new node(Value)`. -/
def newNode (h : Heap T) (v : T) : Heap T × Ptr :=
  (h.alloc v 1 none, some h.next)

/-- `new node(ptr)`: a copy that shares the children. -/
def copyNode (h : Heap T) (p : Ptr) : Except Fault (Heap T × Ptr) := do
  let v ← h.getValue p
  let child ← h.getChild p
  let degree ← h.getDegree p
  return (h.alloc v degree child, some h.next)

/-- `delete p`. -/
def delete (h : Heap T) : Ptr → Except Fault (Heap T)
  | none => .ok h
  | some a => do
      let a ← h.deref (some a)
      return { h with value := Function.update h.value a none }

end Heap

/-! ## The list of the roots -/

/-- `if (p != nullptr && p != skip) p->right = x` (with `skip` null: one test). -/
def relinkRight (h : Heap T) (p skip x : Ptr) : Except Fault (Heap T) :=
  if p ≠ none ∧ p ≠ skip then h.setRight p x else pure h

/-- `if (p != nullptr && p != skip) p->left = x`. -/
def relinkLeft (h : Heap T) (p skip x : Ptr) : Except Fault (Heap T) :=
  if p ≠ none ∧ p ≠ skip then h.setLeft p x else pure h

/-- `std::swap(a->left, b->left)`. -/
def swapLeft (h : Heap T) (a b : Ptr) : Except Fault (Heap T) := do
  let temp ← h.getLeft a
  let h ← h.setLeft a (← h.getLeft b)
  h.setLeft b temp

/-- `std::swap(a->right, b->right)`. -/
def swapRight (h : Heap T) (a b : Ptr) : Except Fault (Heap T) := do
  let temp ← h.getRight a
  let h ← h.setRight a (← h.getRight b)
  h.setRight b temp

/-- The first half of `nodeSwap`: the neighbours of each node get the other. -/
def relinkNeighbours (h : Heap T) (a b : Ptr) : Except Fault (Heap T) := do
  let h ← relinkRight h (← h.getLeft a) b b
  let h ← relinkLeft h (← h.getRight a) b b
  let h ← relinkRight h (← h.getLeft b) a a
  relinkLeft h (← h.getRight b) a a

/-- The second half of `nodeSwap`: the two nodes get each other's neighbours. -/
def exchangeLinks (h : Heap T) (a b : Ptr) : Except Fault (Heap T) := do
  let aLeft ← h.getLeft a
  -- `b` is right in front of `a`
  if aLeft ≠ none ∧ aLeft = b then
    let temp ← h.getRight a
    let h ← h.setRight a b
    let h ← h.setLeft a (← h.getLeft b)
    let h ← h.setLeft b a
    h.setRight b temp
  else
    let aRight ← h.getRight a
    -- `b` is right behind `a`
    if aRight ≠ none ∧ aRight = b then
      let temp ← h.getRight b
      let h ← h.setRight b a
      let h ← h.setLeft b (← h.getLeft a)
      let h ← h.setLeft a b
      h.setRight a temp
    else
      let h ← swapLeft h a b
      swapRight h a b

/-- `nodeSwap`. -/
def nodeSwap (h : Heap T) (a b : Ptr) : Except Fault (Heap T) := do
  let h ← relinkNeighbours h a b
  exchangeLinks h a b

/-- `insertRight`. -/
def insertRight (h : Heap T) (org cur : Ptr) : Except Fault (Heap T) := do
  if org ≠ none ∧ cur ≠ none then
    let orgRight ← h.getRight org
    if orgRight = none then
      let h ← h.setRight org cur
      h.setLeft cur org
    else
      let h ← h.setLeft cur org
      let h ← h.setRight cur (← h.getRight org)
      let h ← h.setLeft (← h.getRight org) cur
      h.setRight org cur
  else pure h

/-- The two statements that take `p` out of its list, in `deleteMinNode` and in
    `consolidate`. -/
def unlink (h : Heap T) (p : Ptr) : Except Fault (Heap T) := do
  let h ← relinkRight h (← h.getLeft p) none (← h.getRight p)
  relinkLeft h (← h.getRight p) none (← h.getLeft p)

/-- `deleteMinNode`, with the new `min_node`. -/
def deleteMinNode (h : Heap T) (min_node : Ptr) : Except Fault (Heap T × Ptr) := do
  let h ← unlink h min_node
  let right ← h.getRight min_node
  let left ← h.getLeft min_node
  -- the last root of the queue
  if right = none ∧ left = none then
    let h ← h.delete min_node
    return (h, none)
  else
    let temp ← h.getRight min_node
    let h ← h.delete min_node
    return (h, temp)

section Ordered

variable [LinearOrder T]

/-- The loop of `maintainMin`: the first least value from `cur` on, or `min`. -/
def scanMin (h : Heap T) : Nat → Ptr → Ptr → Except Fault Ptr
  | 0, _, _ => .error .outOfFuel
  | _ + 1, none, min => .ok min
  | fuel + 1, some cur, min => do
      let less := (← h.getValue (some cur)) < (← h.getValue min)
      scanMin h fuel (← h.getRight (some cur)) (if less then some cur else min)

/-- `maintainMin`, with the new `min_node`. -/
def maintainMin (h : Heap T) (min_node left_most_node : Ptr) :
    Except Fault (Heap T × Ptr) := do
  let min ← scanMin h (h.next + 1) left_most_node left_most_node
  let h ← nodeSwap h min_node min
  return (h, min)

/-! ## Consolidation -/

/-- `tree_size[i]`. -/
def readSlot (tree_size : List Ptr) (i : Nat) : Except Fault Ptr :=
  match tree_size[i]? with
  | some p => .ok p
  | none => .error .outOfBounds

/-- `tree_size[i] = p`. -/
def writeSlot (tree_size : List Ptr) (i : Nat) (p : Ptr) : Except Fault (List Ptr) :=
  if i < tree_size.length then .ok (tree_size.set i p) else .error .outOfBounds

/-- What `consolidate` works on: the heap, `consol.min_node` and `tree_size`. -/
structure Consol (T : Type) where
  heap : Heap T
  min_node : Ptr
  tree_size : List Ptr

/-- `if (p->value < consol.min_node->value) consol.min_node = p`. -/
def lowerMin (h : Heap T) (min_node p : Ptr) : Except Fault Ptr := do
  if (← h.getValue p) < (← h.getValue min_node) then return p else return min_node

/-- `if (p->child != nullptr) p->child->parent = x`. -/
def setChildParent (h : Heap T) (p x : Ptr) : Except Fault (Heap T) := do
  let child ← h.getChild p
  if child ≠ none then h.setParent child x else return h

/-- A tree of a size that is not in `tree_size` yet becomes a root. -/
def addRoot (c : Consol T) (old : Ptr) (log_degree : Nat) : Except Fault (Consol T) := do
  if c.min_node = none then
    let h ← c.heap.setLeft old none
    let h ← h.setRight old none
    return ⟨h, old, ← writeSlot c.tree_size log_degree old⟩
  else
    let h ← insertRight c.heap c.min_node old
    let min_node ← lowerMin h c.min_node old
    return ⟨h, min_node, ← writeSlot c.tree_size log_degree old⟩

/-- The exchange of `value`, `child` and `parent` of two roots. -/
def swapContents (h : Heap T) (old new0 : Ptr) : Except Fault (Heap T) := do
  let h ← setChildParent h old new0
  let h ← setChildParent h new0 old
  let oldValue ← h.getValue old
  let h ← h.setValue old (← h.getValue new0)
  let h ← h.setValue new0 oldValue
  let oldChild ← h.getChild old
  let h ← h.setChild old (← h.getChild new0)
  let h ← h.setChild new0 oldChild
  let oldParent ← h.getParent old
  let h ← h.setParent old (← h.getParent new0)
  h.setParent new0 oldParent

/-- `if (_old->value < _new0->value)`: the smaller value goes to `_new0`. -/
def sortContents (h : Heap T) (old new0 : Ptr) : Except Fault (Heap T) := do
  if (← h.getValue old) < (← h.getValue new0) then swapContents h old new0 else return h

/-- `_old` becomes the first child of `_new0`. -/
def adopt (h : Heap T) (old new0 : Ptr) : Except Fault (Heap T) := do
  let child ← h.getChild new0
  -- with children: in front of the first one
  let h ← if child ≠ none then do
      let h ← h.setLeft (← h.getChild new0) old
      let h ← h.setRight old (← h.getChild new0)
      let h ← h.setChild new0 old
      h.setLeft old none
    else do
      let h ← h.setChild new0 old
      let h ← h.setRight (← h.getChild new0) none
      h.setLeft (← h.getChild new0) none
  let h ← h.setParent old new0
  h.setLeft old none

/-- Which of two roots stays one, in the carry loop: `_new0`, `_new1` and
    `consol.min_node` after the two tests. -/
def carryPair (h : Heap T) (min_node new0 new1 : Ptr) : Except Fault (Ptr × Ptr × Ptr) := do
  if (← h.getValue new1) < (← h.getValue new0) then return (new1, new0, min_node)
  else if new1 = min_node then return (new1, new0, new1)
  else return (new0, new1, min_node)

/-- `_new1` becomes the first child of `_new0`, which has one. -/
def hang (h : Heap T) (new1 new0 : Ptr) : Except Fault (Heap T) := do
  let h ← h.setLeft (← h.getChild new0) new1
  let h ← h.setRight new1 (← h.getChild new0)
  let h ← h.setLeft new1 none
  let h ← h.setParent new1 new0
  h.setChild new0 new1

/-- The carry loop: while there is a root of the size of `_new0`, the two become
    one. -/
def carry : Nat → Consol T → Ptr → Nat → Except Fault (Consol T)
  | 0, _, _, _ => .error .outOfFuel
  | fuel + 1, c, new0, log_degree => do
      let new1 ← readSlot c.tree_size log_degree
      -- the slot is free, and the loop ends
      if new1 = none then
        return { c with tree_size := ← writeSlot c.tree_size log_degree new0 }
      else
        let (new0, new1, min_node) ← carryPair c.heap c.min_node new0 new1
        let h ← unlink c.heap new1
        let h ← hang h new1 new0
        let tree_size ← writeSlot c.tree_size log_degree none
        let h ← h.doubleDegree new0
        carry fuel ⟨h, min_node, tree_size⟩ new0 (log_degree + 1)

/-- A tree of the size of a root `_new0` is merged into it. -/
def mergeRoot (c : Consol T) (old new0 : Ptr) (log_degree : Nat) :
    Except Fault (Consol T) := do
  let h ← sortContents c.heap old new0
  let min_node ← lowerMin h c.min_node old
  let min_node ← lowerMin h min_node new0
  let h ← adopt h old new0
  let tree_size ← writeSlot c.tree_size log_degree none
  let h ← h.doubleDegree new0
  carry (tree_size.length + 1) ⟨h, min_node, tree_size⟩ new0 (log_degree + 1)

/-- The body of the loop of `consolidate`, for the root `cur_node`. -/
def consolidateRoot (c : Consol T) (cur_node : Ptr) : Except Fault (Consol T) := do
  let (h, old) ← c.heap.copyNode cur_node
  -- a degree is a power of two; its slot is one behind its logarithm
  let log_degree := 1 + Nat.log2 (← h.getDegree cur_node)
  let new0 ← readSlot c.tree_size log_degree
  if new0 = none then addRoot { c with heap := h } old log_degree
  else mergeRoot { c with heap := h } old new0 log_degree

/-- `if (cur_node != nullptr) { delete cur_node->left; cur_node->left = nullptr; }`. -/
def dropLeft (h : Heap T) (cur_node : Ptr) : Except Fault (Heap T) := do
  if cur_node ≠ none then
    let h ← h.delete (← h.getLeft cur_node)
    h.setLeft cur_node none
  else return h

/-- The loop of `consolidate`. -/
def consolidateLoop : Nat → Consol T → Ptr → Except Fault (Consol T)
  | 0, _, _ => .error .outOfFuel
  | _ + 1, c, none => .ok c
  | fuel + 1, c, some cur => do
      -- `cur` is still linked to its right neighbour, and deleted from there
      let c ← consolidateRoot c (some cur)
      let cur_node ← c.heap.getRight (some cur)
      let h ← dropLeft c.heap cur_node
      consolidateLoop fuel { c with heap := h } cur_node

/-- `consolidate`, with the new `min_node`. -/
def consolidate (h : Heap T) (min_node : Ptr) (size_ : UInt64) :
    Except Fault (Heap T × Ptr) := do
  let tot_log_degree := 1 + (1 + Nat.log2 size_.toNat)
  let tree_size := List.replicate tot_log_degree none
  let c ← consolidateLoop (h.next + 1) ⟨h, none, tree_size⟩ min_node
  return (c.heap, c.min_node)

/-! ## The public functions -/

/-- `unique::priority_queue<T>`, with the heap its nodes are in. -/
structure Queue (T : Type) where
  heap : Heap T
  min_node : Ptr
  size_ : UInt64

/-- The constructor `priority_queue()`. -/
def Queue.fresh : Queue T :=
  ⟨.blank, none, 0⟩

/-- `top`. -/
def Queue.top (q : Queue T) : Except Fault T :=
  q.heap.getValue q.min_node

/-- `empty`. -/
def Queue.empty (q : Queue T) : Bool :=
  q.size_ == 0

/-- `size`. -/
def Queue.size (q : Queue T) : UInt64 :=
  q.size_

/-- `push`. -/
def Queue.push (q : Queue T) (value : T) : Except Fault (Queue T) := do
  let (h, new_node) := q.heap.newNode value
  let size_ := q.size_ + 1
  if q.min_node = none then return ⟨h, new_node, size_⟩
  else
    let h ← insertRight h q.min_node new_node
    if value < (← h.getValue q.min_node) then
      -- the new node is right behind `min_node`, and the two change places
      let temp ← h.getRight q.min_node
      let h ← nodeSwap h q.min_node (← h.getRight q.min_node)
      return ⟨h, temp, size_⟩
    else return ⟨h, q.min_node, size_⟩

/-- The loop of `pop` that makes the children of `min_node` roots. -/
def spliceChildren (min_node : Ptr) : Nat → Heap T → Ptr → Except Fault (Heap T)
  | 0, _, _ => .error .outOfFuel
  | _ + 1, h, none => .ok h
  | fuel + 1, h, some cur => do
      let next ← h.getRight (some cur)
      let h ← h.setRight (some cur) none
      let h ← h.setLeft (some cur) none
      let h ← insertRight h min_node (some cur)
      let h ← h.setParent (some cur) none
      spliceChildren min_node fuel h next

/-- The last loop of `pop`: to the left end of the list. -/
def walkLeft (h : Heap T) : Nat → Ptr → Except Fault Ptr
  | 0, _ => .error .outOfFuel
  | fuel + 1, cur => do
      let left ← h.getLeft cur
      if left = none then return cur else walkLeft h fuel left

/-- `pop`. -/
def Queue.pop (q : Queue T) : Except Fault (Queue T) := do
  if q.size_ = 0 then .error .exit
  else
    let size_ := q.size_ - 1
    let child ← q.heap.getChild q.min_node
    let h ← spliceChildren q.min_node (q.heap.next + 1) q.heap child
    let (h, min_node) ← deleteMinNode h q.min_node
    -- the queue is empty now
    if min_node = none then return ⟨h, min_node, size_⟩
    else
      let (h, min_node) ← maintainMin h min_node min_node
      let (h, min_node) ← consolidate h min_node size_
      let cur ← walkLeft h (h.next + 1) min_node
      let h ← nodeSwap h min_node cur
      return ⟨h, cur, size_⟩

/-! ## Sequences of calls -/

/-- A call of a public member function. -/
inductive Call (T : Type) where
  | push (value : T)
  | pop
  | top
  | size
  | empty
  deriving DecidableEq, Repr

/-- What a call returns. -/
inductive Answer (T : Type) where
  | nothing
  | item (value : T)
  | number (n : Nat)
  | truth (b : Bool)
  deriving DecidableEq, Repr

/-- One call. -/
def Queue.call (q : Queue T) : Call T → Except Fault (Queue T × Answer T)
  | .push value => do
      let q' ← q.push value
      return (q', .nothing)
  | .pop => do
      let q' ← q.pop
      return (q', .nothing)
  | .top => do
      let value ← q.top
      return (q, .item value)
  | .size => return (q, .number q.size.toNat)
  | .empty => return (q, .truth q.empty)

/-- A sequence of calls, with their answers. -/
def Queue.calls (q : Queue T) (cs : List (Call T)) :
    Except Fault (Queue T × List (Answer T)) :=
  CallSequence.run Queue.call q cs

end Ordered

end PriorityQueue
