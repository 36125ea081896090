import CompilerKit.Parse.Tree
import CompilerKit.Grammar.Basic

/-!
# Building parse trees

What a production makes of the trees of its symbols: dropped terminals go, the children of inlined
rules take the place of their nodes, optional parts that were left out may leave a mark, and nodes
may learn which part of the text they cover. With several derivations the node holds one tree for
each.
-/

namespace CompilerKit

/-!
## Trees that share their parts

While all derivations of a text are turned into trees, one node can be a child of several others,
and two nodes can have one row of children between them: what is added to the row is then a child of
both. A grove holds such nodes and rows by their numbers.
-/

/-- A tree in a grove: a finished tree, or a node of the grove. -/
inductive Shoot where
  | ready (t : ParseTree)
  | node (number : Nat)

/-- A node of a grove: its label, the number of its row of children, and its place. -/
structure Sapling where
  label : String
  row : Nat
  span : Option Span := none

/-- Nodes and rows of children, by their numbers. -/
structure Grove where
  nodes : Array Sapling := #[]
  rows : Array (List Shoot) := #[]

abbrev Growing := StateT Grove Parsing

namespace Grove

def newRow (cs : List Shoot) : Growing Nat :=
  modifyGet fun g => (g.rows.size, { g with rows := g.rows.push cs })

def row (r : Nat) : Growing (List Shoot) := return ((← get).rows[r]?).getD []

/-- Put other children into a row, for all nodes that have it. -/
def setRow (r : Nat) (cs : List Shoot) : Growing Unit :=
  modify fun g => { g with rows := g.rows.modify r fun _ => cs }

def extend (r : Nat) (cs : List Shoot) : Growing Unit :=
  modify fun g => { g with rows := g.rows.modify r (· ++ cs) }

def newNode (label : String) (r : Nat) : Growing Shoot :=
  modifyGet fun g => (.node g.nodes.size, { g with nodes := g.nodes.push { label, row := r } })

def plant (label : String) (cs : List Shoot) : Growing Shoot := do newNode label (← newRow cs)

def label? : Shoot → Growing (Option String)
  | .ready t => pure t.label?
  | .node i => return (← get).nodes[i]?.map Sapling.label

def isLabelled (l : String) (t : Shoot) : Growing Bool := return (← label? t) == some l

def children : Shoot → Growing (List Shoot)
  | .ready t => pure (t.children.map .ready)
  | .node i => do
    match (← get).nodes[i]? with
    | some n => row n.row
    | none => pure []

def span? : Shoot → Growing (Option Span)
  | .ready t => pure t.span?
  | .node i => return (← get).nodes[i]?.bind Sapling.span

def setSpan (s : Span) : Shoot → Growing Shoot
  | .ready t => pure (.ready (t.withSpan s))
  | .node i => do
    modify fun g => { g with nodes := g.nodes.modify i fun n => { n with span := some s } }
    pure (.node i)

/-- The finished tree. Its nodes are numbered if `shared` is set: nodes with one number are the
same. A node that stands above itself has no finished tree. The fuel bounds the depth. -/
def finish (g : Grove) (shared : Bool) : Nat → Shoot → Parsing ParseTree
  | _, .ready t => pure t
  | 0, .node _ => throw (.fault .outOfFuel)
  | fuel + 1, .node i =>
    match g.nodes[i]? with
    | none => throw (.fault .broken)
    | some n => do
      let cs ← ((g.rows[n.row]?).getD []).mapM (finish g shared fuel)
      pure (.node n.label cs { span := n.span, number := if shared then some i else none })

def harvest (g : Grove) (shared : Bool) (t : Shoot) : Parsing ParseTree :=
  g.finish shared (g.nodes.size + 1) t

end Grove

open Grammar

structure BuildOptions where
  positions : Bool := false
  ambiguous : Bool := false
  placeholders : Bool := false

def ambiguousLabel : String := "_ambig"

def partialLabel : String := "_iambig"

def derivationLabel : String := "_inter"

namespace Grammar.Production

def label (p : Production) : String :=
  match p.otherName, p.options.template with
  | some a, _ => a
  | none, some t => t
  | none, none => p.origin

/-- The number of marks for the parts that were left out here, and the gaps from the next symbol
on. -/
def takeGaps : List Bool → Nat × List Bool
  | true :: gs => let (n, gs) := takeGaps gs; (n + 1, gs)
  | false :: gs => (0, gs)
  | [] => (0, [])

def marks (n : Nat) : List Shoot := List.replicate n (.ready (.leaf .null))

/-- Add the children of an inlined node to a row. With the best derivation alone, the row of the
first one is taken over as it is. -/
def inline (o : BuildOptions) (r : Nat) (c : Shoot) : Growing Nat := do
  match c with
  | .ready (.node ..) => Grove.extend r (← Grove.children c); pure r
  | .ready _ => throw (.fault .missingPart)
  | .node i =>
    if !o.ambiguous && (← Grove.row r).isEmpty then
      return ((← get).nodes[i]?.map Sapling.row).getD r
    else Grove.extend r (← Grove.children c); pure r

/-- Put the children that stay into a row, with marks for the parts that were left out. The marks in
front of a dropped symbol wait for the next one that stays. -/
def keep (o : BuildOptions) (keepAll : Bool) :
    List Symbol → List Bool → List Shoot → Nat → Nat → Growing Nat
  | [], gaps, _, waiting, r => do
    Grove.extend r (marks (waiting + (takeGaps gaps).1))
    pure r
  | s :: ss, gaps, cs, waiting, r => do
    let (n, gaps) := takeGaps gaps
    let waiting := waiting + n
    if s.isDropped && !keepAll then keep o keepAll ss gaps cs.tail waiting r
    else
      Grove.extend r (marks waiting)
      match cs with
      | [] => throw (.fault .outOfRange)
      | c :: cs =>
        if s.isInlined then keep o keepAll ss gaps cs 0 (← inline o r c)
        else
          Grove.extend r [c]
          keep o keepAll ss gaps cs 0 r

def keepsAll (o : BuildOptions) (p : Production) : Bool :=
  (!o.placeholders || p.options.gaps.isEmpty) &&
    p.symbols.all fun s => (p.options.keepAll || !s.isDropped) && !s.isInlined

/-- Tell the node which part of the text the children cover. A node that knows its place keeps
it. -/
def locate (children : List Shoot) (t : Shoot) : Growing Shoot := do
  if (← Grove.label? t).isNone then return t
  let spans ← children.filterMapM Grove.span?
  match spans.head?, spans.getLast? with
  | some first, some last =>
    let span := (← Grove.span? t).getD {
      start := { first.outerStart with offset := first.start.offset }
      stop := { last.outerStop with offset := last.stop.offset }
      outerStart := {}
      outerStop := {} }
    Grove.setSpan { span with outerStart := first.outerStart, outerStop := last.outerStop } t
  | _, _ => pure t

def plain (o : BuildOptions) (p : Production) (children : List Shoot) : Growing Shoot := do
  let gaps := if o.placeholders then p.options.gaps else []
  let r ←
    if p.keepsAll o then Grove.newRow children
    else do keep o p.options.keepAll p.symbols gaps children 0 (← Grove.newRow [])
  let t ← match ← Grove.row r with
    | [c] => if p.options.unwrap && p.otherName.isNone then pure c else Grove.newNode p.label r
    | _ => Grove.newNode p.label r
  if o.positions then locate children t else pure t

/-- Derivations among derivations are derivations. -/
def flattenAmbiguous (t : Shoot) : Growing Shoot := do
  if !(← Grove.isLabelled ambiguousLabel t) then return t
  let cs ← (← Grove.children t).mapM fun c => do
    if ← Grove.isLabelled ambiguousLabel c then Grove.children c else pure [c]
  match t with
  | .ready (.node l _ i) => return .ready (.node l (cs.flatten.filterMap fun c => match c with
      | .ready t => some t
      | .node _ => none) i)
  | .ready t => pure (.ready t)
  | .node i => do
    if let some n := (← get).nodes[i]? then Grove.setRow n.row cs.flatten
    pure t

/-- Trees for as many choices as there are. A child that is not chosen from is the same in all. -/
def choices : Nat → List (Option (List Shoot) × Shoot) → List (List Shoot)
  | 0, _ => []
  | n + 1, cs =>
    match cs.mapM fun (choice, c) => match choice with
      | some [] => none
      | some (x :: _) => some x
      | none => some c with
    | none => []
    | some row => row :: choices n (cs.map fun (choice, c) => (choice.map List.tail, c))

/-- Move several derivations of an inlined rule up to the node that it is inlined into. -/
def spread (o : BuildOptions) (p : Production) (children : List Shoot) : Growing Shoot := do
  let inlined := p.symbols.map fun s =>
    p.options.keepAll || (!s.isDropped && s.isInlined)
  if !inlined.contains true then plain o p children
  else
    let children ← children.mapM flattenAmbiguous
    let choosing ← (inlined.zip children).mapM fun (i, c) => do
      if i && (← Grove.isLabelled ambiguousLabel c) then pure (some (← Grove.children c), c)
      else pure (none, c)
    match (choosing.filterMap Prod.fst).map List.length with
    | [] => plain o p children
    | n :: ns =>
      let rows := choices (ns.foldl min n) choosing
      Grove.plant ambiguousLabel (← rows.mapM (plain o p))

/-- The children of the production in each of its derivations, if its first symbols have several.
The fuel bounds the depth. -/
def derivations : Nat → List Shoot → Growing (List (List Shoot))
  | 0, _ => throw (.fault .outOfFuel)
  | _ + 1, [] => pure []
  | fuel + 1, c :: rest => do
    if ← Grove.isLabelled partialLabel c then
      let found ← (← Grove.children c).mapM fun d => do
        let ds ← Grove.children d
        match ← derivations fuel ds with
        | [] => pure [ds ++ rest]
        | dss => pure (dss.map (· ++ rest))
      pure found.flatten
    else pure []

def grow (o : BuildOptions) (p : Production) (children : List Shoot) : Growing Shoot := do
  if !o.ambiguous then plain o p children
  else match ← derivations ((← get).nodes.size + 1) children with
    | [] => spread o p children
    | ds => Grove.plant ambiguousLabel (← ds.mapM (spread o p))

def build (o : BuildOptions) (p : Production) (children : List ParseTree) :
    Parsing ParseTree := do
  let (t, g) ← (p.grow o (children.map .ready)).run {}
  g.harvest false t

end Grammar.Production

end CompilerKit
