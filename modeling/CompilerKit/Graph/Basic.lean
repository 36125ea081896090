import CompilerKit.Bindings
import CompilerKit.Fault

/-!
# Graphs

Graphs as lists of neighbours, together with the set of their edges. Vertices come in the order in
which they were added. An edge that is added twice is listed twice, but is in the set once.
-/

namespace CompilerKit

open Bindings

inductive Orientation where
  | directed
  | undirected
  deriving BEq

structure Edge (α : Type) where
  source : α
  target : α
  deriving BEq

namespace Edge

variable {α : Type}

def flip (e : Edge α) : Edge α := ⟨e.target, e.source⟩

/-- The edges are the same, in one of the two directions if edges have none. -/
def same [BEq α] (o : Orientation) (a b : Edge α) : Bool :=
  a == b || (o == .undirected && a == b.flip)

end Edge

inductive GraphError where
  | noVertex
  | noNeighbour
  | noEdge

structure Graph (α : Type) where
  out : List (α × List α) := []
  /-- The vertices that each vertex has an edge from. Graphs without direction leave them out. -/
  ins : List (α × List α) := []
  edges : List (Edge α) := []

namespace Graph

variable {α : Type} [BEq α]

def vertices (g : Graph α) : List α := g.out.map Prod.fst

def order (g : Graph α) : Nat := g.out.length

def addVertex (g : Graph α) (u : α) : Graph α :=
  if has g.out u then g
  else { g with out := put g.out u [], ins := put g.ins u [] }

def neighbours (g : Graph α) (u : α) : List α := (get? g.out u).getD []

def sources (g : Graph α) (v : α) : List α := (get? g.ins v).getD []

/-- The neighbours of a vertex, which is added if it is not there. -/
def adjacent (g : Graph α) (u : α) : List α × Graph α :=
  let g := g.addVertex u
  (g.neighbours u, g)

def link (table : List (α × List α)) (u v : α) : List (α × List α) :=
  put table u (((get? table u).getD []) ++ [v])

def hasEdge (o : Orientation) (g : Graph α) (u v : α) : Bool :=
  g.edges.any fun e => Edge.same o ⟨u, v⟩ e

def addEdge (o : Orientation) (g : Graph α) (u v : α) : Graph α :=
  let g := (g.addVertex u).addVertex v
  let edges := if g.hasEdge o u v then g.edges else g.edges ++ [⟨u, v⟩]
  match o with
  | .directed => { out := link g.out u v, ins := link g.ins v u, edges }
  | .undirected => { g with out := link (link g.out u v) v u, edges }

def ofEdges (o : Orientation) (es : List (α × α)) : Graph α :=
  es.foldl (fun g (u, v) => g.addEdge o u v) {}

def dropEdge (o : Orientation) (g : Graph α) (u v : α) : Except GraphError Unit × Graph α :=
  if g.hasEdge o u v then
    (.ok (), { g with edges := g.edges.filter fun e => !Edge.same o ⟨u, v⟩ e })
  else (.error .noEdge, g)

/-- Remove an edge. With direction, one listing of it goes and the edge leaves the set; without,
the target is no neighbour of the source any more. What was done before a failure stays done. -/
def removeEdge (o : Orientation) (g : Graph α) (u v : α) : Except GraphError Unit × Graph α :=
  match get? g.out u with
  | none => (.error .noVertex, g)
  | some vs =>
    match o with
    | .directed =>
      if vs.contains v then
        let g := { g with out := put g.out u (vs.erase v) }
        match get? g.ins v with
        | none => (.error .noVertex, g)
        | some us =>
          if us.contains u then
            { g with ins := put g.ins v (us.erase u) }.dropEdge o u v
          else (.error .noNeighbour, g)
      else (.error .noNeighbour, g)
    | .undirected =>
      { g with out := put g.out u (vs.filter (· != v)) }.dropEdge o u v

def outEdges (g : Graph α) (u : α) : Option (List (Edge α)) :=
  (get? g.out u).map fun vs => vs.map fun v => ⟨u, v⟩

def inEdges (o : Orientation) (g : Graph α) (v : α) : Option (List (Edge α)) :=
  let table := match o with
    | .directed => g.ins
    | .undirected => g.out
  (get? table v).map fun us => us.map fun u => ⟨u, v⟩

end Graph

end CompilerKit

namespace CompilerKit.Graph

/-! ## Order and reversal -/

variable {α : Type} [BEq α]

/-- How many edges of the set enter each vertex. -/
def inDegrees (g : Graph α) : List (α × Int) :=
  g.edges.foldl (fun ds e => Bindings.put ds e.target ((Bindings.get? ds e.target).getD 0 + 1))
    (g.vertices.map fun u => (u, 0))

/-- Lower the degrees of neighbours. Those that get to zero go on top of the stack, the last one
uppermost. -/
def release : List α → List (α × Int) → List α → List (α × Int) × List α
  | [], degrees, stack => (degrees, stack)
  | v :: vs, degrees, stack =>
    let d := (Bindings.get? degrees v).getD 0 - 1
    release vs (Bindings.put degrees v d) (if d = 0 then v :: stack else stack)

/-- Take vertices from the stack until it is empty. The fuel bounds the number of vertices. -/
def takeFree (g : Graph α) : Nat → List (α × Int) → List α → List α
  | 0, _, _ => []
  | _ + 1, _, [] => []
  | fuel + 1, degrees, u :: stack =>
    let (degrees, stack) := release (g.neighbours u) degrees stack
    u :: takeFree g fuel degrees stack

/-- The vertices, each after those with an edge to it. Of the vertices that are free, the one that
became free last comes first. A degree reaches zero at most once, so every vertex comes at most
once. -/
def topologicalSort (g : Graph α) : List α :=
  let degrees := g.inDegrees
  let free := g.vertices.filter fun u => (Bindings.get? degrees u).getD 0 == 0
  takeFree g g.order degrees free.reverse

def transpose (g : Graph α) : Graph α :=
  g.edges.foldl (fun t e => t.addEdge .directed e.target e.source)
    (g.vertices.foldl addVertex {})

end CompilerKit.Graph

namespace CompilerKit

/-!
## Drawings of graphs

The nodes and arcs that a drawing program is given for a graph.
-/

structure GraphStyle (α : Type) where
  text : α → Except Fault String
  vertexLabel : Option (α → Except Fault String) := none
  edgeLabel : Option (Edge α → Except Fault String) := none
  edgeColor : Option (Edge α → String) := none

namespace GraphStyle

variable {α : Type} (s : GraphStyle α)

/-- The name of a vertex: its label, or its plain text if vertices have no labels. -/
def name (u : α) : Except Fault String :=
  match s.vertexLabel with
  | some label => label u
  | none => s.text u

def namedEdge (e : Edge α) : Except Fault (String × String) := do
  return (← s.name e.source, ← s.name e.target)

def label (e : Edge α) : Except Fault String :=
  match s.edgeLabel with
  | some label => label e
  | none => .ok ""

def color (e : Edge α) : String :=
  match s.edgeColor with
  | some color => color e
  | none => "black"

end GraphStyle

structure Drawing where
  engine : String
  nodes : List (List String)
  arcs : List ((String × String) × List (String × String))

/-- The drawing of a graph. Labels and colors of edges are shown only with direction. -/
def Graph.drawing {α : Type} (o : Orientation) (s : GraphStyle α) (g : Graph α) :
    Except Fault Drawing := do
  let nodes ← (g.out.map Prod.fst).mapM fun u => do
    let name ← s.name u
    pure (match o with
      | .directed => [name, name]
      | .undirected => [name])
  let arcs ← g.edges.mapM fun e => do
    let ends ← s.namedEdge e
    match o with
    | .directed =>
      let label ← s.label e
      pure (ends, [("color", s.color e), ("label", label), ("len", "1.5")])
    | .undirected => pure (ends, [("len", "1.5")])
  pure { engine := "neato", nodes, arcs }

end CompilerKit
