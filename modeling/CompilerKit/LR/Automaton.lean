import CompilerKit.Grammar.Basic
import CompilerKit.Parse.Token
import Std.Data.HashMap

/-!
# The automaton of a grammar

Its states are sets of items, productions of which a part has been seen. From each state the next
symbol leads to another one.
-/

namespace CompilerKit

open Grammar

/-- Productions by the rule that they expand. -/
structure RuleSet where
  productions : Array Production
  byOrigin : Std.HashMap String (List Nat)

namespace RuleSet

def rootName (start : String) : String := "$root_" ++ start

def ofRule (rs : RuleSet) (x : String) : List Nat := rs.byOrigin.getD x []

def isRule (rs : RuleSet) (x : String) : Bool := rs.byOrigin.contains x

def index (ps : List Production) : RuleSet where
  productions := ps.toArray
  byOrigin := ps.zipIdx.foldl
    (fun m (p, i) => m.insert p.origin (m.getD p.origin [] ++ [i])) {}

def checkDefined (rs : RuleSet) : Parsing Unit :=
  rs.productions.forM fun p => p.symbols.forM fun s =>
    if s.isTerminal || rs.isRule s.name then pure ()
    else throw (.grammar ("Using an undefined rule: " ++ s.dump))

def ofProductions (ps : List Production) (starts : List String) : Parsing RuleSet := do
  let rs := index (ps ++ starts.map fun s => { origin := rootName s, symbols := [.rule s] })
  rs.checkDefined
  pure rs

def nullableRound (rs : RuleSet) (known : Std.HashMap String Unit) : Std.HashMap String Unit :=
  rs.productions.foldl (fun k p =>
    if p.symbols.all fun s => k.contains s.name then k.insert p.origin () else k) known

def nullable (rs : RuleSet) : Std.HashMap String Unit :=
  go (rs.productions.size + 1) {}
where
  go : Nat → Std.HashMap String Unit → Std.HashMap String Unit
    | 0, k => k
    | n + 1, k =>
      let k' := rs.nullableRound k
      if k'.size = k.size then k else go n k'

end RuleSet

namespace LR

/-- A production of which a number of symbols has been seen. -/
structure Item where
  rule : Nat
  seen : Nat
  deriving BEq, Hashable

def Item.rest (rs : RuleSet) (i : Item) : List Symbol :=
  match rs.productions[i.rule]? with
  | some p => p.symbols.drop i.seen
  | none => []

def Item.next? (rs : RuleSet) (i : Item) : Option Symbol := (i.rest rs).head?

def Item.origin (rs : RuleSet) (i : Item) : String :=
  match rs.productions[i.rule]? with
  | some p => p.origin
  | none => ""

/-- The first items order: by production, then by what has been seen. -/
def Item.before (a b : Item) : Bool := a.rule < b.rule || (a.rule = b.rule && a.seen ≤ b.seen)

/-- The rules that can stand at the start of the rules in the list, themselves included. The
fuel bounds how many rules are visited. -/
def leftmost (rs : RuleSet) : Nat → List String → Std.HashMap String Unit → List Nat → List Nat
  | 0, _, _, got => got
  | _ + 1, [], _, got => got
  | fuel + 1, x :: todo, visited, got =>
    if visited.contains x then leftmost rs fuel todo visited got
    else
      let ps := rs.ofRule x
      let heads := ps.filterMap fun i => match Item.next? rs ⟨i, 0⟩ with
        | some (.rule y) => some y
        | _ => none
      leftmost rs fuel (todo ++ heads) (visited.insert x ()) (got ++ ps)

/-- The items that belong to a state along with those that lead there. -/
def closure (rs : RuleSet) (kernel : List Item) : List Item :=
  let heads := kernel.filterMap fun i => match i.next? rs with
    | some (.rule y) => some y
    | _ => none
  let fuel := heads.length + 2 * rs.productions.size + 1
  kernel ++ ((leftmost rs fuel heads {} []).map fun r => ⟨r, 0⟩).filter fun i => !kernel.contains i

def successors (rs : RuleSet) (items : List Item) : List (String × List Item) :=
  items.foldl (fun m i => match i.next? rs with
    | none => m
    | some s => add m s.name { i with seen := i.seen + 1 }) []
where
  add : List (String × List Item) → String → Item → List (String × List Item)
    | [], x, i => [(x, [i])]
    | (y, is) :: m, x, i => if x == y then (y, is ++ [i]) :: m else (y, is) :: add m x i

/-- The states, each with its items and where the symbols lead. -/
structure Automaton where
  items : Array (List Item) := #[]
  moves : Array (List (String × Nat)) := #[]
  index : Std.HashMap (List Item) Nat := {}

namespace Automaton

def intern (rs : RuleSet) (a : Automaton) (kernel : List Item) : Automaton × Nat :=
  match a.index[kernel]? with
  | some i => (a, i)
  | none =>
    ({ a with
        items := a.items.push (closure rs kernel)
        index := a.index.insert kernel a.items.size }, a.items.size)

def grow (rs : RuleSet) (a : Automaton) (i : Nat) : Automaton :=
  let (a, row) := (successors rs (a.items.getD i [])).foldl
    (fun ((a : Automaton), row) (x, kernel) =>
      let (a, j) := a.intern rs (kernel.mergeSort Item.before)
      (a, row ++ [(x, j)]))
    (a, [])
  { a with moves := a.moves.push row }

def complete (rs : RuleSet) : Nat → Nat → Automaton → Automaton
  | 0, _, a => a
  | fuel + 1, i, a => if i < a.items.size then complete rs fuel (i + 1) (a.grow rs i) else a

def ofRules (rs : RuleSet) (starts : List String) : Automaton :=
  let a := starts.foldl (fun (a : Automaton) s =>
    (a.intern rs ((rs.ofRule (RuleSet.rootName s)).map fun r => ⟨r, 0⟩)).1) {}
  let items := rs.productions.foldl (fun n p => n + p.symbols.length + 1) 0
  complete rs (1 <<< items) 0 a

def move? (a : Automaton) (i : Nat) (x : String) : Option Nat := (a.moves.getD i []).lookup x

end Automaton

end LR

end CompilerKit
