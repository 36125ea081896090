import CompilerKit.Fault
import CompilerKit.Bindings

/-!
# Priority queues

Keys in a heap. The place of every key is kept, so that the heap can be mended after a key has
become more urgent. The order of the keys may change between operations.
-/

namespace CompilerKit

/-!
## Heaps

A binary heap in an array, with a greatest item at the root. The array may be longer than the heap.
Whenever an item is put somewhere, its new place is reported. The order may fail to compare two
items; an operation then stops where it is.
-/

/-- A heap: the first `size` items of an array. -/
structure MaxHeap (α : Type) where
  data : Array α := #[]
  size : Nat := 0
  /-- The items that were put somewhere, with their places, in order. -/
  reports : List (α × Nat) := []

/-- An order that may fail to compare two items. -/
abbrev Less (α : Type) := α → α → Except Fault Bool

/-! ## Places

The nodes of a binary tree, numbered row by row from zero. -/

namespace TreeIndex

def left (i : Int) : Int := 2 * i + 1

def right (i : Int) : Int := 2 * (i + 1)

def parent (i : Int) : Int := (i - 1).fdiv 2

end TreeIndex

namespace MaxHeap

def left (i : Nat) : Nat := 2 * i + 1

def right (i : Nat) : Nat := 2 * (i + 1)

def parent (i : Nat) : Nat := (i - 1) / 2

section

variable {α : Type} (less : Less α)

abbrev Outcome (α β : Type) := Except Fault β × MaxHeap α

def item (h : MaxHeap α) (i : Nat) : Except Fault α :=
  match h.data[i]? with
  | some a => .ok a
  | none => .error .outOfRange

def report (h : MaxHeap α) (i : Nat) : MaxHeap α :=
  match h.data[i]? with
  | some a => { h with reports := h.reports ++ [(a, i)] }
  | none => h

def swap (h : MaxHeap α) (i j : Nat) : MaxHeap α := { h with data := h.data.swapIfInBounds i j }

def exchange (h : MaxHeap α) (i j : Nat) : MaxHeap α := ((h.swap i j).report i).report j

@[simp] theorem size_swap (h : MaxHeap α) (i j : Nat) : (h.swap i j).size = h.size := rfl

@[simp] theorem size_report (h : MaxHeap α) (i : Nat) : (h.report i).size = h.size := by
  unfold report
  split <;> rfl

@[simp] theorem size_exchange (h : MaxHeap α) (i j : Nat) : (h.exchange i j).size = h.size := by
  simp [exchange]

/-- Of a place and a child, the one with the greater item. A place outside the heap is never
chosen. -/
def greater (h : MaxHeap α) (i child : Nat) : Except Fault Nat :=
  if child < h.size then do
    let a ← h.item i
    let b ← h.item child
    if ← less a b then pure child else pure i
  else pure i

def greatest (h : MaxHeap α) (i : Nat) : Except Fault Nat := do
  h.greater less (← h.greater less i (left i)) (right i)

/-- Restore the order below a place, where only its item may be too small. -/
def siftDown (h : MaxHeap α) (i : Nat) : Outcome α Unit :=
  match h.greatest less i with
  | .error f => (.error f, h)
  | .ok m =>
    if i < m ∧ m < h.size then siftDown (h.exchange i m) m else (.ok (), h)
termination_by h.size - i
decreasing_by simp only [size_exchange]; omega

/-- Restore the order above a place, where only its item may be too large. -/
def siftUp (h : MaxHeap α) (i : Nat) : Outcome α Unit :=
  if 0 < i then
    match (do less (← h.item (parent i)) (← h.item i)) with
    | .error f => (.error f, h)
    | .ok true => siftUp (h.exchange i (parent i)) (parent i)
    | .ok false => (.ok (), h)
  else (.ok (), h)
termination_by i
decreasing_by unfold parent; omega

/-- Restore the order below the first places, from the last of them to the root. -/
def siftAll (h : MaxHeap α) : Nat → Outcome α Unit
  | 0 => (.ok (), h)
  | n + 1 => match h.siftDown less n with
    | (.ok _, h) => siftAll h n
    | (.error f, h) => (.error f, h)

def build (h : MaxHeap α) : Outcome α Unit :=
  { h with size := h.data.size }.siftAll less (h.data.size / 2 + 1)

def ofArray (data : Array α) : Outcome α Unit :=
  { data, reports := data.toList.zipIdx : MaxHeap α }.build less

def maximum (h : MaxHeap α) : Except Fault α := h.item 0

/-- Overwrite the item at a place of the array, and do nothing else. -/
def put (h : MaxHeap α) (i : Nat) (a : α) : Outcome α Unit :=
  if i < h.data.size then (.ok (), { h with data := h.data.setIfInBounds i a })
  else (.error .outOfRange, h)

def insert (h : MaxHeap α) (a : α) : Outcome α Unit :=
  let data := if h.data.size < h.size + 1 then h.data.push a else h.data.setIfInBounds h.size a
  (({ h with data, size := h.size + 1 }).report h.size).siftUp less h.size

def extract (h : MaxHeap α) : Outcome α α :=
  if h.size = 0 then (.error .broken, h)
  else match h.item 0, h.item (h.size - 1) with
    | .ok a, .ok b =>
      let h := { h with data := h.data.setIfInBounds 0 b }.report 0
      match { h with size := h.size - 1 }.siftDown less 0 with
      | (.ok _, h) => (.ok a, h)
      | (.error f, h) => (.error f, h)
    | .error f, _ | _, .error f => (.error f, h)

/-- Move the greatest item behind the heap, again and again, from the last place to the second. -/
def unload (h : MaxHeap α) : Nat → Outcome α Unit
  | 0 => (.ok (), h)
  | i + 1 => match h.item 0, h.item (i + 1) with
    | .ok _, .ok _ =>
      let h := h.exchange 0 (i + 1)
      match { h with size := h.size - 1 }.siftDown less 0 with
      | (.ok _, h) => unload h i
      | (.error f, h) => (.error f, h)
    | .error f, _ | _, .error f => (.error f, h)

def sort (h : MaxHeap α) : Outcome α Unit :=
  match h.build less with
  | (.ok _, h) => h.unload less (h.data.size - 1)
  | (.error f, h) => (.error f, h)

def items (h : MaxHeap α) : List α := h.data.toList.take h.size

end

end MaxHeap

end CompilerKit

namespace CompilerKit.MaxHeap

/-!
## Places counted from the end

A negative number is a place counted from the end of the array. The children of such a place have
the numbers that the numbering of the tree gives them, so that an item that is sifted down from
there either gets to the root or runs out of the array.
-/

variable {α : Type} (less : Less α)

/-- What an operation gives, the heap after it, and the items that were put at places counted from
the end. -/
structure Sifting (α : Type) where
  outcome : Except Fault Unit
  heap : MaxHeap α
  reports : List (α × Int) := []

def placeOf (h : MaxHeap α) (i : Int) : Except Fault Nat :=
  let p := if 0 ≤ i then i else i + h.data.size
  if 0 ≤ p ∧ p < h.data.size then .ok p.toNat else .error .outOfRange

def itemAt (h : MaxHeap α) (i : Int) : Except Fault α := do h.item (← h.placeOf i)

def putAt (h : MaxHeap α) (i : Int) (a : α) : Outcome α Unit :=
  match h.placeOf i with
  | .ok p => h.put p a
  | .error f => (.error f, h)

def greaterAt (h : MaxHeap α) (i child : Int) : Except Fault Int :=
  if child < h.size then do
    let a ← h.itemAt i
    let b ← h.itemAt child
    if ← less a b then pure child else pure i
  else pure i

def exchangeAt (h : MaxHeap α) (i j : Int) : Except Fault (MaxHeap α × List (α × Int)) := do
  let p ← h.placeOf i
  let q ← h.placeOf j
  let h := h.swap p q
  pure (h, [(← h.item p, i), (← h.item q, j)])

/-- Restore the order below a place. The fuel bounds the number of places counted from the end. -/
def siftDownAt (h : MaxHeap α) : (fuel : Nat) → (i : Int) → Sifting α
  | 0, _ => { outcome := .error .outOfFuel, heap := h }
  | fuel + 1, i =>
    if 0 ≤ i then
      let (r, after) := { h with reports := [] }.siftDown less i.toNat
      { outcome := r, heap := after, reports := after.reports.map fun (a, n) => (a, (n : Int)) }
    else
      let step : Except Fault (Option (Int × MaxHeap α × List (α × Int))) := do
        let m ← h.greaterAt less i (TreeIndex.left i)
        let m ← h.greaterAt less m (TreeIndex.right i)
        if m == i then pure none
        else
          let (h, reports) ← h.exchangeAt i m
          pure (some (m, h, reports))
      match step with
      | .error f => { outcome := .error f, heap := h }
      | .ok none => { outcome := .ok (), heap := h }
      | .ok (some (m, h, reports)) =>
        let rest := siftDownAt h fuel m
        { rest with reports := reports ++ rest.reports }

/-- Restore the order above a place; there is nothing above a place counted from the end. -/
def siftUpAt (h : MaxHeap α) (i : Int) : Outcome α Unit :=
  if 0 ≤ i then h.siftUp less i.toNat else (.ok (), h)

end CompilerKit.MaxHeap

namespace CompilerKit

/-- A key that was pushed. Pushing a key again makes another entry. -/
structure QueueEntry (κ : Type) where
  id : Nat
  key : κ

structure PriorityQueue (κ : Type) where
  heap : MaxHeap (QueueEntry κ) := {}
  /-- The latest entry of every key that was ever pushed. -/
  entries : List (κ × QueueEntry κ) := []
  places : List (Nat × Nat) := []
  count : Nat := 0

namespace PriorityQueue

variable {κ : Type} [BEq κ] (less : Less κ)

def entryLess : Less (QueueEntry κ) := fun a b => less a.key b.key

/-- The queue after an operation on its heap: the places that the heap has reported are the new
ones. -/
def settle (q : PriorityQueue κ) (heap : MaxHeap (QueueEntry κ)) : PriorityQueue κ :=
  { q with
    heap := { heap with reports := [] }
    places := heap.reports.foldl (fun ps (e, i) => Bindings.put ps e.id i) q.places }

def push (q : PriorityQueue κ) (k : κ) : Except Fault Unit × PriorityQueue κ :=
  let e : QueueEntry κ := { id := q.count, key := k }
  let (r, heap) := q.heap.insert (entryLess less) e
  (r, ({ q with entries := Bindings.put q.entries k e, count := q.count + 1 }).settle heap)

def pop (q : PriorityQueue κ) : Except Fault κ × PriorityQueue κ :=
  let (r, heap) := q.heap.extract (entryLess less)
  (r.map QueueEntry.key, q.settle heap)

/-- The place of a key: where its latest entry was put last. -/
def place? (q : PriorityQueue κ) (k : κ) : Option Nat :=
  (Bindings.get? q.entries k).map fun e => (Bindings.get? q.places e.id).getD 0

def increase (q : PriorityQueue κ) (k : κ) (missing : Fault) :
    Except Fault Unit × PriorityQueue κ :=
  match q.place? k with
  | none => (.error missing, q)
  | some i =>
    let (r, heap) := q.heap.siftUp (entryLess less) i
    (r, q.settle heap)

def isEmpty (q : PriorityQueue κ) : Bool := q.heap.size == 0

def dump (text : κ → Except Fault String) (q : PriorityQueue κ) : Except Fault String := do
  let entries ← q.heap.items.mapM fun e => do
    .ok ((← text e.key) ++ "@" ++ toString ((Bindings.get? q.places e.id).getD 0))
  .ok ("[" ++ ", ".intercalate entries ++ "]")

/-- The order of keys by a table of their priorities. A key that is not in the table cannot be
compared. -/
def byTable {π : Type} (order : Less π) (missing : κ → Fault) (table : List (κ × π)) : Less κ :=
  fun a b =>
    let priority (x : κ) : Except Fault π := match Bindings.get? table x with
      | some n => .ok n
      | none => .error (missing x)
    do
      order (← priority a) (← priority b)

end PriorityQueue

end CompilerKit
