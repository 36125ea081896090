import CompilerKit.Graph.Basic
import CompilerKit.Syntax.Text

/-!
# Graphs whose vertices are trees

A vertex has to be able to serve as a key. An operation on something else fails, after what it does
before it needs the key.
-/

namespace CompilerKit

namespace Graph

def keyed {β : Type} (u : Term) (r : Except Fault β) : Except Fault β :=
  if u.hashable then r else .error .wrongKind

def notThere (u : Term) : Fault :=
  match u.dump baseIndent with
  | .ok s => .missingKey s
  | .error m => m.fault

def tryAddVertex (g : Graph Term) (u : Term) : Except Fault Unit × Graph Term :=
  if u.hashable then (.ok (), g.addVertex u) else (.error .wrongKind, g)

def tryAddEdge (o : Orientation) (g : Graph Term) (u v : Term) : Except Fault Unit × Graph Term :=
  match g.tryAddVertex u with
  | (.error f, g) => (.error f, g)
  | (.ok _, g) => if v.hashable then (.ok (), g.addEdge o u v) else (.error .wrongKind, g)

def tryOfEdges (o : Orientation) (es : List (Term × Term)) : Except Fault (Graph Term) :=
  es.foldlM (fun g (u, v) => match g.tryAddEdge o u v with
    | (.ok _, g) => .ok g
    | (.error f, _) => .error f) {}

def tryRemoveEdge (o : Orientation) (g : Graph Term) (u v : Term) :
    Except Fault Unit × Graph Term :=
  if u.hashable then
    match g.removeEdge o u v with
    | (.ok _, g) => (.ok (), g)
    | (.error .noVertex, g) => (.error (notThere u), g)
    | (.error .noNeighbour, g) => (.error .wrongValue, g)
    | (.error .noEdge, g) => (.error (if v.hashable then notThere u else .wrongKind), g)
  else (.error .wrongKind, g)

def tryAdjacent (g : Graph Term) (u : Term) : Except Fault (List Term) × Graph Term :=
  if u.hashable then
    let (vs, g) := g.adjacent u
    (.ok vs, g)
  else (.error .wrongKind, g)

def tryHasEdge (o : Orientation) (g : Graph Term) (u v : Term) : Except Fault Bool :=
  keyed u (keyed v (.ok (g.hasEdge o u v)))

def tryOutEdges (g : Graph Term) (u : Term) : Except Fault (List (Edge Term)) :=
  keyed u (match g.outEdges u with
    | some es => .ok es
    | none => .error (notThere u))

def tryInEdges (o : Orientation) (g : Graph Term) (v : Term) : Except Fault (List (Edge Term)) :=
  keyed v (match g.inEdges o v with
    | some es => .ok es
    | none => .error (notThere v))

/-- The ends of an edge without its direction: equal ends count once. -/
def ends (u v : Term) : Except Fault (List Term) :=
  keyed u (keyed v (.ok (if u.equal v then [u] else [u, v])))

end Graph

namespace GraphStyle

def vertexText (u : Term) : Except Fault String :=
  match u.text baseIndent with
  | .ok s => .ok s
  | .error m => .error m.fault

def plain : GraphStyle Term := { text := vertexText }

/-- Vertices are shown by the labels of a table, edges by the texts of their ends, and loops in a
color of their own. -/
def labelled (table : List (Term × String)) : GraphStyle Term where
  text := vertexText
  vertexLabel := some fun u => Graph.keyed u (match Bindings.get? table u with
    | some s => .ok s
    | none => .error (Graph.notThere u))
  edgeLabel := some fun e => do
    .ok ((← vertexText e.source) ++ ">" ++ (← vertexText e.target))
  edgeColor := some fun e => if e.source.equal e.target then "red" else "blue"

end GraphStyle

end CompilerKit
