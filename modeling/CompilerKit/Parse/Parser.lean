import CompilerKit.Parse.Options
import CompilerKit.Parse.Restore
import CompilerKit.Parse.Tabular

/-!
# Parsers

A parser is made from the text of a grammar and options. It parses texts, cuts them into tokens, or
is fed step by step.
-/

namespace CompilerKit

open Grammar

inductive ParserBackend where
  | table (t : LR.Table) (l : TextLexer)
  | chart (g : Earley.Rules) (l : Lexer)
  | textChart (g : Earley.Rules) (m : Earley.Matchers)
  | tabular (g : Tabular.Grammar) (l : Lexer)
  | lexerOnly

structure Parser where
  options : ParserOptions
  source : Source
  grammar : Compiled
  build : BuildOptions
  backend : ParserBackend

namespace Parser

def indentRules (o : ParserOptions) : Option IndentRules := if o.indent then some {} else none

def keptTerminals (o : ParserOptions) : List String :=
  match indentRules o with
  | some r => [r.newline]
  | none => []

/-- Turn the priorities of the productions around, or drop them. The productions of a rule have one
priority together, apart from those that leave out optional parts; it is turned around once for
each of them. -/
def adjustPriorities (o : ParserOptions) (ps : List Production) : List Production :=
  if o.priority == .str "invert" then
    ps.map fun p =>
      let turns := if p.options.gaps.isEmpty then
          (ps.filter fun q => q.origin == p.origin && q.options.gaps.isEmpty).length
        else 1
      let turn (n : Int) : Int := if turns % 2 == 1 then - n else n
      { p with options := { p.options with priority := p.options.priority.map turn } }
  else if o.priority == .none then
    ps.map fun p => { p with options := { p.options with priority := none } }
  else ps

/-- The lexers for the states of a table, and one for everything. States that take the same
terminals share a lexer. -/
def contextualLexer (o : ParserOptions) (g : Compiled) (t : LR.Table) :
    Parsing TextLexer := do
  let measured := g.terminals.map (Lexer.measure o.flags)
  let always := g.ignored ++ keptTerminals o
  let names := g.terminals.map Terminal.name
  let (lexers, _) ← t.rows.foldlM (fun
      ((ls : Array Lexer), (known : Std.HashMap (List Bool) Lexer)) row => do
    let kinds := row.map Prod.fst
    let accepted := names.map fun x => kinds.contains x || always.contains x
    match known[accepted]? with
    | some l => pure (ls.push l, known)
    | none =>
      let chosen := (measured.zip accepted).filterMap fun (m, a) => if a then some m else none
      let l ← Lexer.ofMeasured o.flags o.lexerHooks chosen g.ignored
      pure (ls.push l, known.insert accepted l)) (#[], {})
  pure (.contextual lexers (← Lexer.ofMeasured o.flags o.lexerHooks measured g.ignored))

def plainLexer (o : ParserOptions) (g : Compiled) : Parsing Lexer :=
  Lexer.ofTerminals o.flags o.lexerHooks g.terminals g.ignored

def makeBackend (o : ParserOptions) (g : Compiled) : Parsing ParserBackend := do
  let rules : Parsing Earley.Rules := do
    pure (Earley.Rules.ofSet (← RuleSet.ofProductions g.productions o.starts.eraseDups))
  if o.parser == .str "lalr" then
    let t ← LR.Table.ofProductions g.productions o.starts
    if o.lexer == .str "contextual" then return .table t (← contextualLexer o g t)
    else return .table t (.standard (← plainLexer o g))
  else if o.parser == .str "earley" then
    if o.lexer == .str "standard" then
      return .chart (← rules) (← plainLexer o g)
    else
      let m ← Earley.Matchers.ofTerminals o.flags g.terminals g.ignored
        (o.lexer == .str "dynamic_complete")
      return .textChart (← rules) m
  else
    let _ ← rules
    return .tabular (← Tabular.ofProductions g.productions) (← plainLexer o g)

def make (text : String) (settings : List (String × Setting)) : Parsing Parser := do
  let o ← ParserOptions.read settings (text.toList.all fun c => c.toNat < 128)
  let source ← load text o.source o.keepAll o.canImport
  let o ← o.settle
  let grammar ← compile source o.starts (keptTerminals o)
  if o.terminalEditor.isTruthy && !grammar.terminals.isEmpty then throw (.fault .wrongKind)
  let grammar := { grammar with productions := adjustPriorities o grammar.productions }
  if o.parser == .none then
    let _ ← plainLexer o grammar
    pure { options := o, source, grammar, build := {}, backend := .lexerOnly }
  else
    let positions ← if o.ambiguity == .str "forest" then pure false else o.positionsWanted
    if o.nodeMaker.isTruthy && o.ambiguity != .str "forest" then throw (.fault .wrongKind)
    let build : BuildOptions := {
      positions
      ambiguous := o.parser != .str "lalr" && o.ambiguity == .str "explicit"
      placeholders := o.placeholders }
    o.checkLexer
    pure { options := o, source, grammar, build, backend := ← makeBackend o grammar }

def startRule (p : Parser) (asked : Option String) : Parsing String :=
  let starts := p.options.starts
  match asked with
  | some s =>
    if starts.contains s then pure s
    else throw (.configuration ("Unknown start rule " ++ s ++ ". Must be one of "
      ++ listForm (starts.map Text.quote)))
  | none =>
    match starts with
    | [s] => pure s
    | [] => throw (.fault .wrongValue)
    | _ => throw (.configuration ("('Lark initialized with more than 1 possible start rule. "
        ++ "Must specify which start rule to parse', " ++ listForm (starts.map Text.quote) ++ ")"))

def tokensOf (p : Parser) (l : Lexer) (text : Array Char) : List Token × Option ParseFailure :=
  go (text.size + 1) {}
where
  lexAll : Nat → LexState → List Token × Option ParseFailure
    | 0, _ => ([], none)
    | fuel + 1, s =>
      match l.next text s with
      | (_, .finished) => ([], none)
      | (_, .failed f) => ([], some f)
      | (s, .token t) =>
        let (ts, f) := lexAll fuel s
        (t :: ts, f)
  mark (r : IndentRules) (s : Indenter) :
      List Token → Option ParseFailure → List Token × Option ParseFailure
    | [], some f => ([], some f)
    | [], none => (s.finish r, none)
    | t :: ts, f =>
      match s.feed r t with
      | (now, .error e) => (now, some e)
      | (now, .ok s) =>
        let (later, f) := mark r s ts f
        (now ++ later, f)
  go (fuel : Nat) (s : LexState) : List Token × Option ParseFailure :=
    let (ts, f) := lexAll fuel s
    match indentRules p.options with
    | none => (ts, f)
    | some r => mark r {} ts f

/-- What parsing gives: a tree, or the root of a forest that is left as it is. -/
inductive Outcome where
  | tree (t : ParseTree)
  | forest

def outcomeOf (p : Parser) (g : Earley.Rules) (start : String) (c : Earley.Chart ParseTree) :
    Parsing Outcome := do
  if p.options.ambiguity == .str "forest" then
    let _ ← Earley.root g start c
    pure .forest
  else
    let t ← Earley.treeOf g start (p.options.ambiguity == .str "resolve") p.build c
    pure (.tree (t.getD (.leaf .null)))

def tokenView : Earley.LeafView ParseTree where
  same := Earley.sameLeaf
  isKind x t := match t with
    | .token t => t.kind == x
    | _ => false
  describe t := match t with
    | .token t => t
    | _ => { kind := "", text := "" }

/-- The table, the lexer and the start state for parsing step by step. -/
def engine (p : Parser) (start : String) (text : String) :
    Parsing (LR.Engine × LR.Input) :=
  match p.backend with
  | .table t l =>
    match LR.Engine.of? t p.build start with
    | some e =>
      pure (e, { lexer := l, text := text.toList.toArray, indent := indentRules p.options })
    | none => throw (.fault .broken)
  | _ => throw (.fault .missingPart)

def parse (p : Parser) (start : Option String) (text : String) : Parsing Outcome := do
  if p.backend matches .lexerOnly then throw (.fault .missingPart)
  let s ← p.startRule start
  let chars := text.toList.toArray
  match p.backend with
  | .table .. =>
    let (e, i) ← p.engine s text
    return .tree (← LR.parse e i)
  | .chart g l =>
    let (ts, f) := p.tokensOf l chars
    p.outcomeOf g s (← Earley.chartOfLeaves g tokenView s (ts.map .token) f)
  | .textChart g m => p.outcomeOf g s (← Earley.chartOfText g m s chars)
  | .tabular g l =>
    match p.tokensOf l chars with
    | (_, some f) => throw f
    | (ts, none) => return .tree (← Tabular.parse g p.build s ts)
  | .lexerOnly => throw (.fault .missingPart)

def lex (p : Parser) (keepIgnored : Bool) (text : String) : Parsing (List Token) := do
  let l ← Lexer.ofTerminals p.options.flags p.options.lexerHooks p.grammar.terminals
    (if keepIgnored then [] else p.grammar.ignored)
  match p.tokensOf l text.toList.toArray with
  | (ts, none) => pure ts
  | (_, some f) => throw f

def maxRecoveries : Nat := 19

def recover (p : Parser) (start : Option String) (text : String) :
    Parsing ParseTree × List ParseFailure :=
  let prepared : Parsing (LR.Engine × LR.Input) := do
    if p.backend matches .lexerOnly then throw (.fault .missingPart)
    let s ← p.startRule start
    match p.backend with
    | .table .. => p.engine s text
    | _ => throw (.fault .wrongKind)
  match prepared with
  | .error f => (.error f, [])
  | .ok (e, i) =>
    let (_, r, fs) := LR.Session.recover e i maxRecoveries (LR.Session.initial e)
    (r, fs)

def restore (p : Parser) (spaces : Bool) (t : ParseTree) : Parsing String := do
  if p.options.placeholders then throw (.fault .broken)
  Restore.text (← compile p.source p.options.starts []) spaces t

/-! ## Step by step -/

structure Dialogue where
  engine : LR.Engine
  input : LR.Input
  session : LR.Session

inductive Move where
  | feed (kind text : String)
  | exhaust
  | finish
  | tryFinish
  | resume
  | look

def start (p : Parser) (asked : Option String) (text : String) : Parsing Dialogue := do
  if p.backend matches .lexerOnly then throw (.fault .missingPart)
  let s ← p.startRule asked
  match p.backend with
  | .table .. =>
    let (engine, input) ← p.engine s text
    pure { engine, input, session := LR.Session.initial engine }
  | _ => throw (.configuration "parse_interactive() currently only works with parser='lalr' ")

namespace Dialogue

def fedResult : LR.Fed → Parsing (Option ParseTree)
  | .shifted => pure none
  | .accepted t => pure (some t)
  | .failed f => throw f

def feed (d : Dialogue) (t : Token) : Dialogue × Parsing (Option ParseTree) :=
  let (stack, r) := LR.feed d.engine t d.session.stack
  ({ d with session := { d.session with stack } }, fedResult r)

def move (d : Dialogue) : Move → Dialogue × Parsing (Option ParseTree)
  | .feed kind text => d.feed { kind, text }
  | .exhaust =>
    let (session, r) := d.session.feedAll d.engine d.input false d.input.fuel {} none
    ({ d with session }, fedResult r)
  | .finish => d.feed (Token.endAfter none)
  | .tryFinish => (d, ({ d with session := d.session.copy }.feed (Token.endAfter none)).2)
  | .resume =>
    let (session, r) := d.session.run d.engine d.input
    ({ d with session }, r.map some)
  | .look => (d, pure none)

def accepts (d : Dialogue) : Parsing (List String) :=
  LR.accepts d.engine d.session.stack

def choices (d : Dialogue) : List String :=
  (d.engine.table.kinds d.session.stack.top).filter Text.isUpper

def depth (d : Dialogue) : Nat := d.session.stack.states.length

end Dialogue

end Parser

end CompilerKit
