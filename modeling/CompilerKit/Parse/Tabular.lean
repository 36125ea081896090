import CompilerKit.LR.Automaton
import CompilerKit.Parse.Build

/-!
# Tabular parsing

Parsing with a table of all parts of the input, for grammars in which every production has one
terminal or two rules. Other productions are split up first, and the trees are put together again
afterwards. Of several derivations the lightest one is taken.
-/

namespace CompilerKit.Tabular

open Grammar

/-- Where a binary production came from. -/
inductive Origin where
  | production (index : Nat)
  | split
  | terminal

/-- Productions on their way to binary form. A production that skips over others holds them. -/
inductive Rule where
  | mk (lhs : String) (rhs : List Symbol) (weight : Int) (origin : Origin)
    (skipped : Option (List Rule))

namespace Rule

def lhs : Rule → String
  | mk x _ _ _ _ => x

def rhs : Rule → List Symbol
  | mk _ r _ _ _ => r

def weight : Rule → Int
  | mk _ _ w _ _ => w

def origin : Rule → Origin
  | mk _ _ _ o _ => o

def skipped : Rule → Option (List Rule)
  | mk _ _ _ _ s => s

mutual

/-- Productions that skip over others are equal when those are; all others when both sides are. -/
def equal : Rule → Rule → Bool
  | mk x r _ _ none, mk y s _ _ none => x == y && r == s
  | mk _ _ _ _ (some as), mk _ _ _ _ (some bs) => equalAll as bs
  | _, _ => false

def equalAll : List Rule → List Rule → Bool
  | [], [] => true
  | a :: as, b :: bs => equal a b && equalAll as bs
  | _, _ => false

end

def isMember (r : Rule) (rs : List Rule) : Bool :=
  rs.any fun s => s.lhs == r.lhs && s.rhs == r.rhs && s.equal r

def distinct (rs : List Rule) : List Rule :=
  rs.foldl (fun got r => if r.isMember got then got else got ++ [r]) []

def isUnit (r : Rule) : Bool :=
  match r.rhs with
  | [.rule _] => true
  | _ => false

end Rule

def terminalRule (s : Symbol) : Rule := .mk ("__T_" ++ s.dump) [s] 0 .terminal none

def liftTerminals (r : Rule) : List Rule :=
  if r.rhs.length > 1 && r.rhs.any Symbol.isTerminal then
    let lifted := r.rhs.map fun s => if s.isTerminal then .rule (terminalRule s).lhs else s
    .mk r.lhs lifted r.weight r.origin none :: (r.rhs.filter Symbol.isTerminal).map terminalRule
  else [r]

def splitFrom (stem : String) : Nat → List Symbol → List Rule
  | i, a :: b :: c :: rest =>
    .mk (stem ++ toString i) [a, .rule (stem ++ toString (i + 1))] 0 .split none
      :: splitFrom stem (i + 1) (b :: c :: rest)
  | i, rest => [.mk (stem ++ toString i) rest 0 .split none]

def splitLong (r : Rule) : List Rule :=
  match r.rhs with
  | a :: b :: c :: rest =>
    let stem := "__SP_" ++ (Grammar.Symbol.rule r.lhs).dump ++ "__"
      ++ "_".intercalate (r.rhs.map Symbol.dump) ++ "_"
    .mk r.lhs [a, .rule (stem ++ "1")] r.weight r.origin none :: splitFrom stem 1 (b :: c :: rest)
  | _ => [r]

/-- The production that does two steps at once. -/
def skipUnit (unit target : Rule) : Rule :=
  .mk unit.lhs target.rhs (unit.weight + target.weight) unit.origin
    (some (unit.skipped.getD [] ++ [target] ++ target.skipped.getD []))

def removeUnits : Nat → List Rule → Parsing (List Rule)
  | 0, _ => throw (.fault .outOfFuel)
  | fuel + 1, rs =>
    match rs.find? Rule.isUnit with
    | none => pure rs
    | some u =>
      let target := u.rhs.headD (.rule "")
      let kept := rs.filter fun r => !r.equal u
      let added := (rs.filter fun r => Grammar.Symbol.rule r.lhs == target).map (skipUnit u)
      removeUnits fuel (Rule.distinct (kept ++ added))

structure Grammar where
  productions : Array Production
  rules : List Rule

def maxUnits : Nat := 100000

def ofProductions (ps : List Production) : Parsing Grammar := do
  let rules := ps.zipIdx.map fun (p, i) =>
    Rule.mk p.origin p.symbols (p.options.priority.getD 0) (.production i) none
  let rules := Rule.distinct (rules.flatMap liftTerminals)
  let rules := Rule.distinct (rules.flatMap splitLong)
  let rules ← removeUnits maxUnits rules
  if rules.any fun r => r.rhs.length ≠ 1 && r.rhs.length ≠ 2 then
    throw (.parsing "CYK doesn't support empty rules")
  pure { productions := ps.toArray, rules }

inductive Derivation where
  | leaf (t : Token)
  | node (r : Rule) (children : List Derivation) (weight : Int)

def Derivation.weight : Derivation → Int
  | leaf _ => 0
  | node _ _ w => w

/-- A part of the input: the productions that it can be an instance of, and the best derivation for
each rule. -/
structure Cell where
  rules : List Rule := []
  best : List (String × Derivation) := []

/-- Add a derivation, if it is lighter than what is there. -/
def Cell.add (c : Cell) (r : Rule) (d : Derivation) : Cell :=
  let best := match c.best.lookup r.lhs with
    | none => c.best ++ [(r.lhs, d)]
    | some old =>
      if d.weight < old.weight then
        c.best.map fun (x, e) => if x == r.lhs then (x, d) else (x, e)
      else c.best
  { rules := if r.isMember c.rules then c.rules else c.rules ++ [r], best }

abbrev Table := Std.HashMap (Nat × Nat) Cell

def cellOf (g : Grammar) (t : Token) : Cell :=
  g.rules.foldl (fun c r => match r.rhs with
    | [.terminal x _ _] => if x == t.kind then c.add r (.node r [.leaf t] r.weight) else c
    | _ => c) {}

def joinCells (g : Grammar) (a b c : Cell) : Cell :=
  a.rules.foldl (fun c r => b.rules.foldl (fun c s =>
    g.rules.foldl (fun c q => match q.rhs with
      | [.rule x, .rule y] =>
        if x == r.lhs && y == s.lhs then
          match a.best.lookup x, b.best.lookup y with
          | some d, some e => c.add q (.node q [d, e] (q.weight + d.weight + e.weight))
          | _, _ => c
        else c
      | _ => c) c) c) c

def fillCell (g : Grammar) (table : Table) (i n : Nat) : Cell :=
  (List.range (n - 1)).foldl (fun c k =>
    joinCells g (table.getD (i, k + 1) {}) (table.getD (i + k + 1, n - k - 1) {}) c) {}

def fillTable (g : Grammar) (tokens : List Token) : Table :=
  let n := tokens.length
  let singles := tokens.zipIdx.foldl (fun (t : Table) (w, i) => t.insert (i, 1) (cellOf g w)) {}
  (List.range' 2 (n - 1)).foldl (fun (t : Table) len =>
    (List.range (n - len + 1)).foldl (fun (t : Table) i => t.insert (i, len)
      (fillCell g t i len)) t)
    singles

def unroll (x : String) (rhs : List Symbol) (origin : Origin) (children : List Derivation) :
    List Rule → Derivation
  | [] => .node (.mk x rhs 0 origin none) children 0
  | s :: rest =>
    .node (.mk x [.rule s.lhs] 0 origin none) [unroll s.lhs rhs s.origin children rest] 0

def spliced : Derivation → List Derivation
  | .node r cs w => if r.lhs.startsWith "__SP_" then cs else [.node r cs w]
  | d => [d]

mutual

def Derivation.revert : Derivation → Derivation
  | .leaf t => .leaf t
  | .node r cs w =>
    if r.lhs.startsWith "__T_" then cs.headD (.node r cs w)
    else
      let children := Derivation.revertAll cs
      match r.skipped with
      | some s => unroll r.lhs r.rhs r.origin children s
      | none => .node r children w

def Derivation.revertAll : List Derivation → List Derivation
  | [] => []
  | d :: ds => spliced (Derivation.revert d) ++ Derivation.revertAll ds

end

mutual

def Derivation.tree (g : Grammar) (o : BuildOptions) : Derivation → Parsing ParseTree
  | .leaf t => pure (.token t)
  | .node r cs _ => do
    let children ← Derivation.trees g o cs
    match r.origin with
    | .production i => match g.productions[i]? with
      | some p => p.build o children
      | none => throw (.fault .broken)
    | _ => throw (.fault (.missingKey "'Split'"))

def Derivation.trees (g : Grammar) (o : BuildOptions) :
    List Derivation → Parsing (List ParseTree)
  | [] => pure []
  | d :: ds => do
    return (← Derivation.tree g o d) :: (← Derivation.trees g o ds)

end

def parse (g : Grammar) (o : BuildOptions) (start : String) (tokens : List Token) :
    Parsing ParseTree :=
  match (((fillTable g tokens).getD (0, tokens.length) {}).best).lookup start with
  | none => throw (.parsing "Parsing failed.")
  | some d => d.revert.tree g o

end CompilerKit.Tabular
