import CompilerKit.Grammar.Basic
import CompilerKit.Parse.Token
import Std.Data.HashMap

/-!
# Parse forests

All derivations of a text, sharing their common parts. A node stands for a rule, or for the first
symbols of a production, over a part of the text; its families are its derivations. A forest can
have cycles: a derivation that contains itself is left out.
-/

namespace CompilerKit.Earley

open Grammar

/-- What a node stands for: a rule, or the symbols of a production that were seen so far. -/
inductive Label where
  | done (origin : String)
  | inside (rule seen : Nat)
  deriving BEq, Hashable

inductive Part (α : Type) where
  | node (i : Nat)
  | leaf (a : α)

/-- One derivation: the node for the earlier symbols, and the last one. -/
structure Family (α : Type) where
  rule : Nat
  left : Option Nat
  right : Option (Part α)

def Family.isEmpty {α : Type} (f : Family α) : Bool := f.left.isNone && f.right.isNone

structure Node (α : Type) where
  label : Label
  families : Array (Family α) := #[]

def Node.isPartial {α : Type} (n : Node α) : Bool :=
  match n.label with
  | .done _ => false
  | .inside .. => true

abbrev Forest (α : Type) := Array (Node α)

namespace Forest

variable {α : Type}

/-- The parts are the same; leaves are compared by `same`. -/
def samePart (same : α → α → Bool) : Option (Part α) → Option (Part α) → Bool
  | none, none => true
  | some (.node i), some (.node j) => i == j
  | some (.leaf a), some (.leaf b) => same a b
  | _, _ => false

def addFamily (same : α → α → Bool) (f : Forest α) (i : Nat) (d : Family α) : Forest α :=
  f.modify i fun n =>
    if n.families.any fun e => e.left == d.left && samePart same e.right d.right then n
    else { n with families := n.families.push d }

def childNodes (d : Family α) : List Nat :=
  d.left.toList ++ match d.right with
    | some (.node i) => [i]
    | _ => []

/-! ## Priorities -/

/-- Priorities of nodes and of their families; nothing is less than every number. -/
structure Priorities where
  nodes : Std.HashMap Nat (Option Int) := {}
  families : Std.HashMap (Nat × Nat) (Option Int) := {}
  visiting : Std.HashMap Nat Unit := {}
  visited : Std.HashMap Nat Unit := {}

/-- The sum, which is nothing if one of the two is. -/
def addPriority : Option Int → Option Int → Option Int
  | some a, some b => some (a + b)
  | _, _ => none

def maxPriority : Option Int → Option Int → Option Int
  | some a, some b => some (max a b)
  | some a, none => some a
  | none, b => b

def Priorities.ofNode (p : Priorities) (i : Nat) : Option Int := (p.nodes[i]?).getD none

def Priorities.ofFamily (p : Priorities) (i k : Nat) : Option Int := (p.families[(i, k)]?).getD none

def familyBefore (rules : Array Production) (p : Priorities) (i : Nat)
    (a b : Nat × Family α) : Bool :=
  let order (d : Family α) : Nat := ((rules[d.rule]?).map Production.order).getD 0
  if a.2.isEmpty != b.2.isEmpty then b.2.isEmpty
  else match p.ofFamily i a.1, p.ofFamily i b.1 with
    | some x, some y => if x ≠ y then x > y else order a.2 ≤ order b.2
    | some _, none => true
    | none, some _ => false
    | none, none => order a.2 ≤ order b.2

def sorted (f : Forest α) (rules : Array Production) (p : Priorities) (i : Nat) :
    List (Nat × Family α) :=
  match f[i]? with
  | none => []
  | some n =>
    let numbered := n.families.toList.zipIdx.map fun (d, k) => (k, d)
    if numbered.length ≤ 1 then numbered else numbered.mergeSort (familyBefore rules p i)

/-- The priorities of a node and of all nodes below it. The fuel bounds the depth. -/
def prioritize (f : Forest α) (rules : Array Production) : Nat → Nat → Priorities → Priorities
  | 0, _, p => p
  | fuel + 1, i, p =>
    if p.visiting.contains i || p.visited.contains i then p
    else
      let p := { p with visiting := p.visiting.insert i () }
      let isPartial := (f[i]?).any Node.isPartial
      let families := f.sorted rules p i
      let p := families.foldl (fun p (k, d) =>
        let p := (childNodes d).foldl (fun p j => prioritize f rules fuel j p) p
        let own := if isPartial then 0 else
          ((rules[d.rule]?).bind fun r => r.options.priority).getD 0
        let right := match d.right with
          | some (.node j) => p.ofNode j
          | _ => some 0
        let left := match d.left with
          | some j => p.ofNode j
          | none => some 0
        let total := addPriority (addPriority (some own) right) left
        { p with families := p.families.insert (i, k) total }) p
      let best := families.foldl (fun m (k, _) => maxPriority m (p.ofFamily i k)) none
      { p with
        nodes := p.nodes.insert i best
        visiting := p.visiting.erase i
        visited := p.visited.insert i () }

/-! ## Trees -/

/-- What is made of derivations: results of type `β`, with a state of type `σ`. -/
structure Builder (σ α β : Type) where
  leaf : α → β
  build : Nat → List β → StateT σ Parsing β
  several : List β → StateT σ Parsing β
  derivations : β → StateT σ Parsing (List β)
  /-- The result that holds several derivations of the first symbols of a production. -/
  severalPartial : List (List β) → StateT σ Parsing β

/-- The result for a node: one, or those of the first symbols of a production. -/
inductive Grown (β : Type) where
  | one (a : β)
  | many (as : List β)

structure Walk (β : Type) where
  visiting : Std.HashMap Nat Unit := {}
  /-- The nodes above that have a derivation already. -/
  fruitful : Std.HashMap Nat Unit := {}
  /-- A cycle was met, and the derivation that it is in is being left. -/
  retreating : Bool := false
  done : Std.HashMap (Nat × Nat) (Grown β) := {}

abbrev Walking (σ β : Type) := StateT (Walk β) (StateT σ Parsing)

structure WalkPlan (σ α β : Type) where
  forest : Forest α
  rules : Array Production
  priorities : Priorities
  resolve : Bool
  builder : Builder σ α β

variable {σ β : Type}

def growAll : List (Grown β) → List (List β) :=
  List.map fun g => match g with
    | .one a => [a]
    | .many as => as

def growNode (w : WalkPlan σ α β) (isPartial : Bool) (found : List (Grown β)) :
    StateT σ Parsing (Option (Grown β)) := do
  if isPartial then
    match found with
    | [] => throw (.fault .outOfRange)
    | [g] => pure (some g)
    | gs => return some (.one (← w.builder.severalPartial (growAll gs)))
  else
    match (← (growAll found).flatten.mapM w.builder.derivations).flatten with
    | [] => pure none
    | [a] => pure (some (.one a))
    | as => return some (.one (← w.builder.several as))

def growFamily (w : WalkPlan σ α β) (isPartial : Bool) (d : Family α) (found : List (Grown β)) :
    StateT σ Parsing (Grown β) := do
  let children := (growAll found).flatten
  if isPartial then pure (.many children)
  else return .one (← w.builder.build d.rule children)

mutual

/-- The result of a node, if it has a derivation that does not contain itself. The fuel bounds the
depth. -/
def growAt (w : WalkPlan σ α β) : Nat → Nat → Walking σ β (Option (Grown β))
  | 0, _ => throw (.fault .outOfFuel)
  | fuel + 1, i => do
    modify fun s => { s with visiting := s.visiting.insert i () }
    let isPartial := (w.forest[i]?).any Node.isPartial
    let families := if (← get).retreating then [] else w.forest.sorted w.rules w.priorities i
    let found ← families.filterMapM fun (k, d) => growFamilyAt w fuel i k isPartial d
    let result ←
      if (← get).fruitful.contains i then do
        modify fun s => { s with retreating := false, fruitful := s.fruitful.erase i }
        growNode w isPartial found
      else pure none
    modify fun s => { s with visiting := s.visiting.erase i }
    pure result
  termination_by fuel => (fuel, 0)

def growFamilyAt (w : WalkPlan σ α β) (fuel i k : Nat) (isPartial : Bool) (d : Family α) :
    Walking σ β (Option (Grown β)) := do
  modify fun s => { s with retreating := false }
  let s ← get
  let found ←
    if (w.resolve && s.fruitful.contains i) || s.done.contains (i, k) then pure []
    else do
      let left ← match d.left with
        | some j => growPart w fuel j
        | none => pure none
      let right ← match d.right with
        | some (.node j) => growPart w fuel j
        | some (.leaf a) => pure (some (Grown.one (w.builder.leaf a)))
        | none => pure none
      pure (left.toList ++ right.toList)
  let s ← get
  if s.retreating then pure none
  else
    let result ←
      if w.resolve && s.fruitful.contains i then pure none
      else match s.done[(i, k)]? with
        | some g => pure (some g)
        | none => do
          let g ← growFamily w isPartial d found
          modify fun s => { s with done := s.done.insert (i, k) g }
          pure (some g)
    modify fun s => { s with fruitful := s.fruitful.insert i () }
    pure result
  termination_by (fuel, 2)

/-- The result of a node that is part of a family. A node that stands above itself makes the walk
leave the family. -/
def growPart (w : WalkPlan σ α β) (fuel j : Nat) : Walking σ β (Option (Grown β)) := do
  if (← get).visiting.contains j then
    modify fun s => { s with retreating := true }
    pure none
  else growAt w fuel j
  termination_by (fuel, 1)

end

def tree (f : Forest α) (rules : Array Production) (resolve : Bool) (builder : Builder σ α β)
    (root : Nat) : StateT σ Parsing (Option β) := do
  let fuel := f.size + 1
  let priorities :=
    if rules.any fun r => r.options.priority.isSome then f.prioritize rules fuel root {} else {}
  let plan : WalkPlan σ α β := { forest := f, rules, priorities, resolve, builder }
  let (g, _) ← (growAt plan (f.size + 1) root).run {}
  pure (match g with
    | some (.one a) => some a
    | _ => none)

end Forest

end CompilerKit.Earley
