import CompilerKit.Earley.Forest
import CompilerKit.LR.Automaton

/-!
# Charts

A chart has a column for each place in the input. A column holds the items that are possible there:
productions with a number of symbols seen, and where they started. Items that wait for a terminal
are kept apart, to be looked at when the input goes on.
-/

namespace CompilerKit.Earley

open Grammar

/-- A production of which a number of symbols was seen, from a place on. -/
structure Item where
  rule : Nat
  seen : Nat
  start : Nat
  node : Option Nat := none

/-- A grammar with what can be predicted for each rule. -/
structure Rules where
  set : RuleSet
  predictions : Std.HashMap String (List Nat)

/-- The productions that can stand at the start of each rule. -/
def Rules.ofSet (rs : RuleSet) : Rules where
  set := rs
  predictions := rs.byOrigin.fold (fun m x _ =>
    m.insert x (LR.leftmost rs (2 * rs.productions.size + 2) [x] {} [])) {}

def Item.next? (g : Rules) (i : Item) : Option Symbol :=
  (g.set.productions[i.rule]?).bind fun p => p.symbols[i.seen]?

def Item.origin (g : Rules) (i : Item) : String :=
  ((g.set.productions[i.rule]?).map Production.origin).getD ""

/-- What an item stands for. All complete items of one rule stand for the same. -/
def Item.label (g : Rules) (i : Item) : Label :=
  match i.next? g with
  | none => .done (i.origin g)
  | some _ => .inside i.rule i.seen

def Item.waitsForTerminal (g : Rules) (i : Item) : Bool :=
  match i.next? g with
  | some s => s.isTerminal
  | none => false

/-- Items without repetitions, in the order in which they came. -/
structure ItemSet where
  items : Array Item := #[]
  index : Std.HashMap (Label × Nat) Unit := {}

namespace ItemSet

def has (s : ItemSet) (g : Rules) (i : Item) : Bool := s.index.contains (i.label g, i.start)

def add (s : ItemSet) (g : Rules) (i : Item) : ItemSet :=
  if s.has g i then s
  else { items := s.items.push i, index := s.index.insert (i.label g, i.start) () }

def giveNode (s : ItemSet) (g : Rules) (i : Item) (n : Nat) : ItemSet :=
  { s with items := s.items.map fun o =>
      if o.label g == i.label g && o.start == i.start then { o with node := some n } else o }

end ItemSet

variable {α : Type}

structure Work (α : Type) where
  forest : Forest α
  column : ItemSet
  waiting : ItemSet
  agenda : List Item
  nodes : Std.HashMap (Label × Nat) Nat := {}
  empties : Std.HashMap String Nat := {}

namespace Work

/-- The node for a label from a place on, which is made if it is not there. -/
def nodeFor (w : Work α) (label : Label) (start : Nat) : Work α × Nat :=
  match w.nodes[(label, start)]? with
  | some n => (w, n)
  | none =>
    let n := w.forest.size
    ({ w with forest := w.forest.push { label }, nodes := w.nodes.insert (label, start) n }, n)

def place (g : Rules) (w : Work α) (i : Item) : Work α :=
  if i.waitsForTerminal g then { w with waiting := w.waiting.add g i }
  else if w.column.has g i then w
  else { w with column := w.column.add g i, agenda := i :: w.agenda }

def step (g : Rules) (same : α → α → Bool) (w : Work α) (i : Item) (right : Part α) :
    Work α × Item :=
  let next := { i with seen := i.seen + 1 }
  let (w, n) := w.nodeFor (next.label g) i.start
  let forest := w.forest.addFamily same n { rule := i.rule, left := i.node, right := some right }
  ({ w with forest }, { next with node := some n })

/-- A complete item: go on with the items that waited for its rule. -/
def complete (g : Rules) (same : α → α → Bool) (columns : Array ItemSet) (here : Nat) (w : Work α)
    (i : Item) : Work α :=
  let origin := i.origin g
  let (w, node) := match i.node with
    | some n => (w, n)
    | none =>
      let (w, n) := w.nodeFor (.done origin) i.start
      ({ w with
        forest := w.forest.addFamily same n { rule := i.rule, left := none, right := none }
        column := w.column.giveNode g i n }, n)
  let w := if i.start = here then { w with empties := w.empties.insert origin node } else w
  let column := if i.start = here then w.column else columns.getD i.start {}
  let waited := column.items.filter fun o => o.next? g == some (.rule origin)
  waited.foldl (fun w o =>
    let (w, next) := w.step g same o (.node node)
    w.place g next) w

/-- An item that waits for a rule: predict what the rule can start with, and go on at once if the
rule was found empty here. -/
def predict (g : Rules) (same : α → α → Bool) (here : Nat) (w : Work α) (i : Item) (x : String) :
    Work α :=
  let predicted := (g.predictions.getD x []).map fun r =>
    { rule := r, seen := 0, start := here : Item }
  let (w, more) := match w.empties[x]? with
    | some n =>
      let (w, next) := w.step g same i (.node n)
      (w, [next])
    | none => (w, [])
  (predicted ++ more).foldl (place g) w

/-- Look at items until none is left. The fuel bounds the number of items. -/
def run (g : Rules) (same : α → α → Bool) (columns : Array ItemSet) (here : Nat) :
    Nat → Work α → Work α
  | 0, w => w
  | fuel + 1, w =>
    match w.agenda with
    | [] => w
    | i :: rest =>
      let w := { w with agenda := rest }
      run g same columns here fuel (match i.next? g with
        | none => w.complete g same columns here i
        | some (.rule x) => w.predict g same here i x
        | some (.terminal ..) => w)

end Work

structure Chart (α : Type) where
  forest : Forest α := #[]
  columns : Array ItemSet := #[]
  column : ItemSet := {}
  waiting : ItemSet := {}

def settle (g : Rules) (same : α → α → Bool) (c : Chart α) : Chart α :=
  let here := c.columns.size
  let kinds := g.set.productions.foldl (fun n p => n + p.symbols.length + 1) 1
  let w : Work α := {
    forest := c.forest, column := c.column, waiting := c.waiting
    agenda := c.column.items.toList.reverse }
  let w := w.run g same c.columns here (kinds * (here + 2) + 1)
  { forest := w.forest, columns := c.columns.push w.column, column := {}, waiting := w.waiting }

def Chart.initial (g : Rules) (start : String) : Chart α :=
  (g.predictions.getD start []).foldl (fun (c : Chart α) r =>
    let i : Item := { rule := r, seen := 0, start := 0 }
    if i.waitsForTerminal g then { c with waiting := c.waiting.add g i }
    else { c with column := c.column.add g i }) {}

/-- Go on with items that took a leaf of the input each, or that stay as they are. The items are
those of the next column. -/
def advance (g : Rules) (same : α → α → Bool) (c : Chart α) (items : List (Item × Option α)) :
    Chart α :=
  let w : Work α := { forest := c.forest, column := {}, waiting := {}, agenda := [] }
  let w := items.foldl (fun w (i, leaf) =>
    let (w, next) := match leaf with
      | some a => w.step g same i (.leaf a)
      | none => (w, i)
    if next.waitsForTerminal g then { w with waiting := w.waiting.add g next }
    else { w with column := w.column.add g next }) w
  { c with forest := w.forest, column := w.column, waiting := w.waiting }

def expected (g : Rules) (s : ItemSet) : List String :=
  s.items.toList.filterMap fun i => (i.next? g).map Symbol.name

def root (g : Rules) (start : String) (c : Chart α) : Parsing Nat :=
  let last := c.columns.back?.getD {}
  match last.items.toList.filter fun i =>
      (i.label g) == .done start && i.start = 0 && i.node.isSome with
  | [] => throw (.unexpectedEnd (expected g c.waiting))
  | [i] => pure (i.node.getD 0)
  | _ => throw (.fault .broken)

end CompilerKit.Earley
