import CompilerKit.LR.Table
import CompilerKit.Lexer.Basic
import CompilerKit.Parse.Build

/-!
# Parsing with a table

A parser holds a stack of states and a stack of trees. A token is shifted, after the reductions that
it calls for. Parsing can stop at a token and be taken up again.
-/

namespace CompilerKit.LR

open Grammar

/-- A table with a start rule and a way to build trees. -/
structure Engine where
  table : Table
  build : BuildOptions
  start : Nat
  stop : Nat

def Engine.of? (table : Table) (build : BuildOptions) (start : String) : Option Engine := do
  pure { table, build, start := ← table.starts.lookup start, stop := ← table.ends.lookup start }

/-- The states and the trees so far, the latest first. -/
structure Stacks where
  states : List Nat
  trees : List ParseTree := []

def Stacks.top (s : Stacks) : Nat := s.states.headD 0

inductive Fed where
  | shifted
  | accepted (t : ParseTree)
  | failed (f : ParseFailure)

/-- Reduce by a production: its trees become one tree. A failure leaves the stacks without the
trees. -/
def reduce (e : Engine) (rule : Nat) (s : Stacks) : Stacks × Parsing ParseTree :=
  match e.table.rules[rule]? with
  | none => (s, .error (.fault .broken))
  | some p =>
    let n := p.symbols.length
    let rest : Stacks := ⟨s.states.drop n, s.trees.drop n⟩
    match p.build e.build (s.trees.take n).reverse with
    | .error f => (rest, .error f)
    | .ok t =>
      match e.table.action? rest.top p.origin with
      | some (.shift state) => (⟨state :: rest.states, t :: rest.trees⟩, .ok t)
      | _ => (rest, .error (.fault .broken))

/-- Feed a token. The fuel bounds the number of reductions. -/
def feedWith (e : Engine) (token : Token) (isEnd : Bool) : Nat → Stacks → Stacks × Fed
  | 0, s => (s, .failed (.fault .outOfFuel))
  | fuel + 1, s =>
    match e.table.action? s.top token.kind with
    | none =>
      (s, .failed (.unexpectedToken token ((e.table.kinds s.top).filter Text.isUpper)))
    | some (.shift state) =>
      if state = e.stop || isEnd then (s, .failed (.fault .broken))
      else (⟨state :: s.states, .token token :: s.trees⟩, .shifted)
    | some (.reduce rule) =>
      match reduce e rule s with
      | (s, .error f) => (s, .failed f)
      | (s, .ok t) =>
        if isEnd && s.top = e.stop then (s, .accepted t) else feedWith e token isEnd fuel s

def feed (e : Engine) (token : Token) (s : Stacks) : Stacks × Fed :=
  let rules := e.table.rules.size + 2
  feedWith e token (token.kind == Token.endKind) ((s.states.length + rules) * rules) s

def accepts (e : Engine) (s : Stacks) : Parsing (List String) :=
  let kinds := (e.table.kinds s.top).filter Text.isUpper
  kinds.filterM fun k =>
    match (feed e { kind := k, text := "" } s).2 with
    | .failed (.unexpectedToken ..) => pure false
    | .failed f => throw f
    | _ => pure true

structure Input where
  lexer : TextLexer
  text : Array Char
  indent : Option IndentRules := none

structure Session where
  stack : Stacks
  lex : LexState := {}

structure Stream where
  ready : List Token := []
  after : Parsing Indenter := .ok {}
  finished : Bool := false

def Stream.next (i : Input) (state : Nat) : Nat → LexState → Stream → LexState × Stream × LexResult
  | 0, lex, s => (lex, s, .failed (.fault .outOfFuel))
  | fuel + 1, lex, s =>
    match s.ready with
    | t :: ts => (lex, { s with ready := ts }, .token t)
    | [] =>
      match s.after with
      | .error f => (lex, s, .failed f)
      | .ok indenter =>
        if s.finished then (lex, s, .finished)
        else match i.lexer.next state i.text lex, i.indent with
          | (lex, .token t), some rules =>
            let (ready, after) := indenter.feed rules t
            Stream.next i state fuel lex { s with ready, after }
          | (lex, .finished), some rules =>
            Stream.next i state fuel lex { s with ready := indenter.finish rules, finished := true }
          | (lex, r), _ => (lex, s, r)

/-- What is left to do for a session, as a bound on the number of tokens. -/
def Input.fuel (i : Input) : Nat := 4 * i.text.size + 8

def Session.feedAll (e : Engine) (i : Input) (atEnd : Bool) :
    Nat → Stream → Option Token → Session → Session × Fed
  | 0, _, _, s => (s, .failed (.fault .outOfFuel))
  | fuel + 1, stream, last, s =>
    match stream.next i s.stack.top i.fuel s.lex with
    | (lex, _, .failed f) => ({ s with lex }, .failed f)
    | (lex, _, .finished) =>
      if atEnd then
        let (stack, r) := feed e (Token.endAfter last) s.stack
        ({ stack, lex }, r)
      else ({ s with lex }, .shifted)
    | (lex, stream, .token t) =>
      match feedWith e t false (feedFuel s.stack) s.stack with
      | (stack, .shifted) => feedAll e i atEnd fuel stream (some t) { stack, lex }
      | (stack, r) => ({ stack, lex }, r)
where
  feedFuel (s : Stacks) : Nat :=
    let rules := e.table.rules.size + 2
    (s.states.length + rules) * rules

def Session.initial (e : Engine) : Session := { stack := { states := [e.start] } }

def Session.run (e : Engine) (i : Input) (s : Session) : Session × Parsing ParseTree :=
  match s.feedAll e i true i.fuel {} none with
  | (s, .accepted t) => (s, .ok t)
  | (s, .failed f) => (s, .error f)
  | (s, .shifted) => (s, .error (.fault .broken))

def parse (e : Engine) (i : Input) : Parsing ParseTree :=
  ((Session.initial e).run e i).2

def isUnexpected : ParseFailure → Bool
  | .unexpectedToken .. | .unexpectedChar .. | .unexpectedEnd .. => true
  | _ => false

def isAtEnd : ParseFailure → Bool
  | .unexpectedToken t _ => t.kind == Token.endKind
  | _ => false

/-- Go on behind a failure. A character that no terminal matches is left out. -/
def Session.skip (i : Input) (f : ParseFailure) (s : Session) : Session :=
  match f with
  | .unexpectedChar .. =>
    { s with lex := s.lex.advance i.text (min (s.lex.offset + 1) i.text.size) true }
  | _ => s

/-- Parse a text and pass over failures, up to a limit on their number: the result, and the failures
in their order. -/
def Session.recover (e : Engine) (i : Input) :
    Nat → Session → Session × Parsing ParseTree × List ParseFailure
  | n, s =>
    match s.run e i with
    | (s, .ok t) => (s, .ok t, [])
    | (s, .error f) => if isUnexpected f then go n f s else (s, .error f, [])
where
  go : Nat → ParseFailure → Session → Session × Parsing ParseTree × List ParseFailure
    | 0, f, s => (s, .error f, [f])
    | n + 1, f, s =>
      match (s.skip i f).run e i with
      | (s, .ok t) => (s, .ok t, [f])
      | (s, .error g) =>
        if !isUnexpected g || (isAtEnd f && isAtEnd g) then (s, .error g, [f])
        else
          let (s, r, fs) := go n g s
          (s, r, f :: fs)

/-- The session with copies of its trees, which do not know where their tokens end. -/
def Session.copy (s : Session) : Session :=
  { s with stack := { s.stack with trees := ParseTree.openedAll s.stack.trees } }

end CompilerKit.LR
