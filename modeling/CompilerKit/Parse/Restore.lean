import CompilerKit.Earley.Parser
import CompilerKit.Grammar.Compile

/-!
# Restoring text

The text that a parse tree came from, as far as the grammar determines it: the children of each node
are parsed again, by rules over trees, and what the grammar drops from trees is put back.
-/

namespace CompilerKit.Restore

open Grammar

/-- A rule over the children of nodes, and the symbols of the production that it was made from. -/
structure Rule where
  name : String
  symbols : List Symbol
  full : List Symbol

def Rule.production (r : Rule) : Production := { origin := r.name, symbols := r.symbols }

/-- Rules that apply inside of any node, and rules for the nodes with a label. -/
structure RuleBook where
  inner : List Rule
  byLabel : List (String × List Rule)

def addTo (table : List (String × List Rule)) (r : Rule) : List (String × List Rule) :=
  match table with
  | [] => [(r.name, [r])]
  | (x, rs) :: rest => if x == r.name then (x, rs ++ [r]) :: rest else (x, rs) :: addTo rest r

def asLeaf (name leaf : String) : Rule :=
  { name, symbols := [.terminal leaf false none], full := [.rule leaf] }

def best (rs : List Rule) : List Rule :=
  let distinct := rs.foldl (fun got r =>
    if got.any fun q => q.production == r.production then got else got ++ [r]) []
  distinct.mergeSort fun a b => a.symbols.length ≤ b.symbols.length

def aliasTable (ps : List Production) : List (String × List String) :=
  ps.foldl (fun t p => match p.otherName with
    | none => t
    | some a => add t p.origin a) []
where
  add : List (String × List String) → String → String → List (String × List String)
    | [], x, a => [(x, [a])]
    | (y, as) :: t, x, a => if x == y then (y, as ++ [a]) :: t else (y, as) :: add t x a

def RuleBook.ofProductions (ps : List Production) : RuleBook :=
  let unwrapped := (ps.filter fun p => p.options.unwrap).map Production.origin
  let aliases := aliasTable ps
  let isOpen (x : String) : Bool :=
    x.startsWith "_" || unwrapped.contains x || (aliases.lookup x).isSome
  let origins := ps.map Production.origin
  let step (s : List Rule × List (String × List Rule) × List String) (p : Production) :
      List Rule × List (String × List Rule) × List String :=
    let (inner, table, seen) := s
    let symbols := (p.symbols.filter fun s => !s.isDropped).map fun s => match s with
      | .rule x => if origins.contains x && isOpen x then .rule x else .terminal x false none
      | .terminal x _ _ => .terminal x false none
    if symbols == [.rule p.origin] && p.otherName.isNone then s
    else
      let name := p.otherName.getD p.origin
      let r : Rule := { name, symbols, full := p.symbols }
      if unwrapped.contains name && symbols.length ≠ 1 then
        if seen.contains name then (inner, addTo table r, seen)
        else (inner ++ [asLeaf name name], addTo table r, name :: seen)
      else if name.startsWith "_" || unwrapped.contains name then (inner ++ [r], table, seen)
      else (inner, addTo table r, seen)
  let (inner, table, _) := ps.foldl step ([], [], [])
  let leaves := aliases.flatMap fun (x, as) => as.map (asLeaf x) ++ [asLeaf x x]
  { inner := best (inner ++ leaves).reverse, byLabel := table }

inductive Match where
  | leaf (t : ParseTree)
  | rule (index : Nat) (parts : List Match)

def baseName (x : String) : String := String.ofList (x.toList.takeWhile Text.isWordChar)

def view : Earley.LeafView Match where
  same _ _ := false
  isKind x m := match m with
    | .leaf (.node l _ _) => l == baseName x
    | .leaf (.token t) => t.kind == x
    | _ => false
  describe m := match m with
    | .leaf (.token t) => t
    | _ => { kind := "", text := "" }

def keepAll : Earley.Forest.Builder Unit Match Match where
  leaf := id
  build i parts := pure (.rule i parts)
  several ms := pure (ms.headD (.rule 0 []))
  derivations m := pure [m]
  severalPartial ms := pure (ms.flatten.headD (.rule 0 []))

def checkDistinct (ps : List Production) : Parsing Unit :=
  match (ps.filter fun p => (ps.filter (· == p)).length > 1).eraseDups with
  | [] => pure ()
  | ds => throw (.grammar ("Rules defined twice: " ++ ", ".intercalate (ds.map Production.text)))

def matchNode (book : RuleBook) (label : String) (children : List ParseTree) :
    Parsing (List Rule × Match) := do
  if (baseName label).isEmpty then throw (.fault .missingPart)
  if baseName label ≠ label then throw (.fault .broken)
  let rules := book.inner ++ best ((book.byLabel.lookup label).getD [])
  let ps := rules.map Rule.production
  checkDistinct ps
  let g := Earley.Rules.ofSet (← RuleSet.ofProductions ps [label])
  if children.any fun c => match c with | .leaf _ => true | _ => false then throw (.fault .broken)
  let chart ← Earley.chartOfLeaves g view label (children.map .leaf) none
  match ← (Earley.resultOf g label true keepAll chart).run () with
  | (some m, _) => pure (rules, m)
  | (none, _) => throw (.fault .missingPart)

/-- A piece of the restored text, or a tree whose text is still to be restored. -/
inductive Piece where
  | text (s : String)
  | tree (t : ParseTree)

def droppedText (terminals : List Terminal) (x : String) : Parsing String :=
  match terminals.find? fun t => t.name == x with
  | none => throw (.fault (.missingKey (Text.quote x)))
  | some t => match t.pattern.kind with
    | .literal => pure t.pattern.value
    | .regexp => throw .notReversible

def Match.fits (s : Symbol) : Match → Bool
  | .leaf (.node l _ _) => s == .rule l
  | .leaf (.token t) => s == .terminal t.kind false none
  | _ => true

def weave (terminals : List Terminal) :
    List Symbol → List (Match × List Piece) → Parsing (List Piece)
  | [], [] => pure []
  | [], _ :: _ => throw (.fault .broken)
  | s :: ss, parts =>
    if s.isDropped then do
      return .text (← droppedText terminals s.name) :: (← weave terminals ss parts)
    else match parts with
      | [] => throw (.fault .outOfRange)
      | (m, p) :: ps => do
        unless m.fits s do throw (.fault .broken)
        return p ++ (← weave terminals ss ps)

mutual

def Match.pieces (terminals : List Terminal) (rules : List Rule) :
    Match → Parsing (List Piece)
  | .leaf (.token t) => pure [.text t.text]
  | .leaf t => pure [.tree t]
  | .rule i parts => do
    let inner ← Match.piecesOf terminals rules parts
    match rules[i]? with
    | none => throw (.fault .broken)
    | some r => weave terminals r.full inner

def Match.piecesOf (terminals : List Terminal) (rules : List Rule) :
    List Match → Parsing (List (Match × List Piece))
  | [] => pure []
  | m :: ms => do
    return (m, ← Match.pieces terminals rules m) :: (← Match.piecesOf terminals rules ms)

end

def pieces (terminals : List Terminal) (book : RuleBook) :
    Nat → ParseTree → Parsing (List String)
  | fuel + 1, .node label children _ => do
    let (rules, m) ← matchNode book label children
    let texts ← (← m.pieces terminals rules).mapM fun p => match p with
      | .text s => pure [s]
      | .tree t => pieces terminals book fuel t
    pure texts.flatten
  | _, _ => throw (.fault .missingPart)

def spaced (spaces : Bool) : String → List String → List String
  | _, [] => []
  | previous, s :: ss =>
    let clash := spaces && (previous.toList.getLast?.any Text.isNameChar)
      && (s.toList.head?.any Text.isNameChar)
    (if clash then [" ", s] else [s]) ++ spaced spaces s ss

def text (g : Compiled) (spaces : Bool) (t : ParseTree) : Parsing String := do
  let found ← pieces g.terminals (.ofProductions g.productions) (t.size + 1) t
  pure (String.join (spaced spaces "" found))

end CompilerKit.Restore
