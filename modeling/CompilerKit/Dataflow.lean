import CompilerKit.Graph.Basic

/-!
# Dataflow analysis

Every vertex of a graph has a value, computed from the values of its predecessors. Vertices are
computed again until nothing changes.
-/

namespace CompilerKit

namespace Dataflow

structure Step (α β : Type) where
  vertex : α
  input : β
  output : β
  deriving DecidableEq

/-- A problem: how a vertex changes what comes in, what is known at first, and how the values of
several predecessors are joined. -/
structure Problem (α β : Type) where
  transfer : α → β → β
  bottom : β
  join : β → β → β

variable {α β : Type} [BEq α] [BEq β]

def Problem.input (p : Problem α β) (reversed : Graph α) (values : List (α × β)) (u : α) : β :=
  ((reversed.neighbours u).map fun v =>
    (Bindings.get? values v).getD p.bottom).foldl p.join p.bottom

/-- Take vertices from the stack until it is empty. A vertex whose value has changed puts its
neighbours on the stack, the last one uppermost. The fuel bounds the number of steps. -/
def iterate (p : Problem α β) (g reversed : Graph α) :
    Nat → List (α × β) → List α → Option (List (Step α β))
  | _, _, [] => some []
  | 0, _, _ :: _ => none
  | fuel + 1, values, u :: stack =>
    let input := p.input reversed values u
    let output := p.transfer u input
    let rest := if output == (Bindings.get? values u).getD p.bottom
      then iterate p g reversed fuel values stack
      else iterate p g reversed fuel (Bindings.put values u output)
        ((g.neighbours u).reverse ++ stack)
    rest.map (⟨u, input, output⟩ :: ·)

/-- The steps of the analysis of a graph, which starts with the vertex that was added last; none if
there are more steps than the fuel allows. -/
def analyze (p : Problem α β) (fuel : Nat) (g : Graph α) : Option (List (Step α β)) :=
  iterate p g g.transpose fuel (g.vertices.map fun u => (u, p.bottom)) g.vertices.reverse

end Dataflow

/-- Finite sets of names, as lists in increasing order. -/
abbrev NameSet := List String

namespace NameSet

def insert (x : String) : NameSet → NameSet
  | [] => [x]
  | y :: ys => if x < y then x :: y :: ys else if x == y then y :: ys else y :: insert x ys

def ofNames (xs : List String) : NameSet := xs.foldr insert []

def union (s t : NameSet) : NameSet := t.foldr insert s

def inter (s t : NameSet) : NameSet := s.filter t.contains

def diff (s t : NameSet) : NameSet := s.filter fun x => !t.contains x

end NameSet

/-- The problem in which each vertex removes some names and then adds others. -/
def Dataflow.genKill {α : Type} [BEq α] (gen kill : List (α × NameSet)) (bottom : NameSet)
    (join : NameSet → NameSet → NameSet) : Dataflow.Problem α NameSet where
  transfer u s := (s.diff ((Bindings.get? kill u).getD [])).union ((Bindings.get? gen u).getD [])
  bottom := bottom
  join := join

end CompilerKit
