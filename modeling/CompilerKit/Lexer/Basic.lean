import CompilerKit.Grammar.Basic
import CompilerKit.Parse.Token
import CompilerKit.Regex.Match

/-!
# Lexers

A lexer cuts a text into tokens. At each place it takes the first of its terminals that matches,
in the order of priority, greatest possible length, length of the pattern and name. A text that is a
terminal of its own has that kind, although a regular expression matched it.
-/

namespace CompilerKit

/-!
## Scanners

A scanner tries the regular expressions of several terminals, one after the other, at a place in a
text.
-/

open Grammar

/-- One regular expression for several terminals. Each terminal is a group of its own. -/
structure Scanner where
  regex : Regex
  flags : Regex.Flags
  kinds : List (Nat × String)

def ParseFailure.ofPattern : Regex.PatternError → ParseFailure
  | .malformed => .badPattern
  | .countTooLarge => .fault .overflow
  | .countTooLong | .flagsClash => .fault .wrongValue
  | .flagsForeign => .fault .wrongKind

namespace Scanner

/-- The regular expression for several terminals; `whole` asks that a match ends where the text
does. -/
def patternText (ts : List Terminal) (whole : Bool) : String :=
  "|".intercalate (ts.map fun t =>
    "(?P<" ++ t.name ++ ">" ++ t.pattern.regexp ++ (if whole then "$" else "") ++ ")")

def ofTerminals (flags : Regex.Flags) (ts : List Terminal) (whole : Bool := false) :
    Parsing Scanner := do
  let text := (patternText ts whole).toList
  if flags.bytes && text.any (255 < ·.toNat) then throw (.fault .unencodable)
  let (r, s) ← ((Regex.readAll text.length flags).run { rest := text, flags }).mapError .ofPattern
  (r.check flags).mapError .ofPattern
  pure { regex := r, flags := s.flags, kinds := s.names.map fun (x, g) => (g, x) }

def scan (s : Scanner) (text : Array Char) (i : Nat) : Option (String × Nat) := do
  let (stop, groups) ← s.regex.run s.flags text i
  let (g, _) ← groups.head?
  pure (← s.kinds.lookup g, stop)

end Scanner

open Grammar

structure LexState where
  offset : Nat := 0
  line : Nat := 1
  column : Nat := 1
  lineStart : Nat := 0

namespace LexState

def place (s : LexState) : Place := .of s.line s.column s.offset

/-- Go on to a place. Line breaks count only if they are looked for. -/
def advance (s : LexState) (text : Array Char) (stop : Nat) (newlines : Bool) : LexState :=
  let step (s : LexState) (i : Nat) : LexState :=
    if text[i]? == some '\n' then { s with line := s.line + 1, lineStart := i + 1 } else s
  let s := if newlines then (List.range' s.offset (stop - s.offset)).foldl step s else s
  { s with offset := stop, column := stop - s.lineStart + 1 }

end LexState

inductive LexResult where
  | token (t : Token)
  | finished
  | failed (f : ParseFailure)

structure LexTable where
  scanner : Scanner
  kinds : List String
  /-- For some kinds a scanner that gives a token of the kind another one. -/
  retype : List (String × Scanner)

/-- A terminal with the bounds on its length, or why it cannot be used. -/
structure MeasuredTerminal where
  terminal : Terminal
  width : Parsing Regex.Width

structure Lexer where
  ignored : List String
  multiline : List String
  forBytes : Bool := false
  /-- The kinds whose tokens are passed to something that cannot take them. -/
  hooked : List String := []
  table : Thunk (Parsing LexTable)

namespace Lexer

def measure (flags : Regex.Flags) (t : Terminal) : MeasuredTerminal where
  terminal := t
  width := do
    match Regex.compile t.pattern.regexp { flags with bytes := false } with
    | .error .malformed =>
      throw (.lexing ("Cannot compile token " ++ t.name ++ ": " ++ t.pattern.dump))
    | .error e => throw (.ofPattern e)
    | .ok _ =>
      let w ← t.pattern.width.mapError fun e => match e with
        | .malformed => .fault .wrongValue
        | e => .ofPattern e
      if w.lo = 0 then
        throw (.lexing ("Lexer does not allow zero-width terminals. (" ++ t.name ++ ": "
          ++ t.pattern.dump ++ ")"))
      pure w

def before (a b : Terminal × Regex.Width) : Bool :=
  let ((s, v), (t, w)) := (a, b)
  if s.priority ≠ t.priority then s.priority > t.priority
  else if v.hi ≠ w.hi then v.hi > w.hi
  else if s.pattern.value.length ≠ t.pattern.value.length then
    s.pattern.value.length > t.pattern.value.length
  else s.name ≤ t.name

/-- The literals that a regular expression matches as a whole, unless their priority is higher. -/
def covered (flags : Regex.Flags) (literals : List Terminal) (t : Terminal) : List Terminal :=
  match Regex.compile t.pattern.regexp { flags with bytes := false } with
  | .error _ => []
  | .ok (r, fs) => literals.filter fun l =>
    let text := l.pattern.value.toList.toArray
    l.priority ≤ t.priority && r.endOf? fs text 0 == some text.size

def tableOf (flags : Regex.Flags) (ts : List Terminal) : Parsing LexTable := do
  let (literals, regexps) := ts.partition fun t => t.pattern.kind == .literal
  let pairs := regexps.map fun t => (t, covered flags literals t)
  let embedded := pairs.flatMap fun (t, ls) =>
    (ls.filter fun l => l.pattern.flags.all t.pattern.flags.contains).map Terminal.name
  let retype ← (pairs.filter fun (_, ls) => !ls.isEmpty).mapM fun (t, ls) => do
    pure (t.name, ← Scanner.ofTerminals flags ls true)
  let kept := ts.filter fun t => !embedded.contains t.name
  pure { scanner := ← Scanner.ofTerminals flags kept, kinds := kept.map Terminal.name, retype }

/-- What is done with tokens before they are given out. -/
inductive Hooks where
  /-- The tokens of these kinds are passed to something that cannot take them. -/
  | kinds (names : List String)
  | none

def ofMeasured (flags : Regex.Flags) (hooks : Hooks) (ts : List MeasuredTerminal)
    (ignored : List String) : Parsing Lexer := do
  let sized ← ts.mapM fun t => do pure (t.terminal, ← t.width)
  let names := sized.map fun t => t.1.name
  let missing := ignored.filter fun x => !names.contains x
  unless missing.isEmpty do
    throw (.lexing ("Ignore terminals are not defined: \x7b"
      ++ ", ".intercalate (missing.map Text.quote) ++ "\x7d"))
  let sorted := (sized.mergeSort before).map Prod.fst
  pure {
    ignored
    multiline := (sorted.filter fun t => t.pattern.mayHoldNewline).map Terminal.name
    forBytes := flags.bytes
    hooked := match hooks with
      | .kinds names => names
      | .none => []
    table := Thunk.mk fun _ => do
      let table ← tableOf flags sorted
      if hooks matches .none then throw (.fault .missingPart)
      pure table }

def ofTerminals (flags : Regex.Flags) (hooks : Hooks) (ts : List Terminal) (ignored : List String) :
    Parsing Lexer :=
  ofMeasured flags hooks (ts.map (measure flags)) ignored

def allowed (l : Lexer) (t : LexTable) : List String :=
  match t.kinds.filter fun x => !l.ignored.contains x with
  | [] => ["<END-OF-FILE>"]
  | ks => ks

def nextWith (l : Lexer) (table : LexTable) (text : Array Char) :
    Nat → LexState → LexState × LexResult
  | 0, s => (s, .finished)
  | fuel + 1, s =>
    if text.size ≤ s.offset then (s, .finished)
    else match table.scanner.scan text s.offset with
      | none =>
        (s, .failed (.unexpectedChar (text.getD s.offset ' ') s.line s.column (l.allowed table)))
      | some (kind, stop) =>
        let after := s.advance text stop (l.multiline.contains kind)
        let piece := text.extract s.offset stop
        let final := match table.retype.lookup kind with
          | some r => ((r.scan piece 0).map Prod.fst).getD kind
          | none => kind
        if l.hooked.contains kind && final == kind then (after, .failed (.fault .wrongKind))
        else if l.ignored.contains kind then nextWith l table text fuel after
        else
          (after, .token {
            kind := final, text := String.ofList piece.toList,
            start := s.place, stop := after.place })

def next (l : Lexer) (text : Array Char) (s : LexState) : LexState × LexResult :=
  if text.size ≤ s.offset then (s, .finished)
  else match l.table.get with
    | .error e => (s, .failed e)
    | .ok table =>
      if l.forBytes then (s, .failed (.fault .wrongKind))
      else nextWith l table text (text.size - s.offset + 1) s

end Lexer

/-- A lexer for a parser: one for the whole text, or one for each state of the parser and one for
everything. -/
inductive TextLexer where
  | standard (l : Lexer)
  | contextual (byState : Array Lexer) (root : Lexer)

/-- The next token. What no terminal of the parser's state matches may still be a token that is out
of place. -/
def TextLexer.next (l : TextLexer) (state : Nat) (text : Array Char) (s : LexState) :
    LexState × LexResult :=
  match l with
  | standard l => l.next text s
  | contextual byState root =>
    match (byState.getD state root).next text s with
    | (s, .failed (.unexpectedChar c line column allowed)) =>
      match root.next text s with
      | (s, .token t) => (s, .failed (.unexpectedToken t allowed))
      | (s, .failed (.unexpectedChar ..)) => (s, .failed (.unexpectedChar c line column allowed))
      | (s, .finished) => (s, .failed (.fault .endOfInput))
      | r => r
    | r => r

/-!
## Indentation

Marks for indentation in a stream of tokens. A token that ends a line is followed by a mark when the
next line is indented further, and by marks for every block that it closes when it is indented
less. Inside of parentheses lines do not count.
-/

structure IndentRules where
  newline : String := "_NL"
  opened : String := "_INDENT"
  closed : String := "_DEDENT"
  openParen : List String := ["LPAR"]
  closeParen : List String := ["RPAR"]
  tabWidth : Nat := 8

/-- The open parentheses and the indentation of the open blocks, innermost first. -/
structure Indenter where
  parens : Nat := 0
  levels : List Nat := [0]

namespace Indenter

def lastLine (cs : List Char) : Option (List Char) :=
  let tail := (cs.reverse.takeWhile (· != '\n')).reverse
  if tail.length < cs.length then some tail else none

def close (indent : Nat) : List Nat → List Nat × Nat
  | [] => ([], 0)
  | l :: ls => if indent < l then let (ls, n) := close indent ls; (ls, n + 1) else (l :: ls, 0)

def feedNewline (r : IndentRules) (s : Indenter) (t : Token) :
    List Token × Parsing Indenter :=
  if s.parens > 0 then ([], .ok s)
  else match lastLine t.text.toList with
    | none => ([t], .error (.fault .outOfRange))
    | some line =>
      let blanks := String.ofList line
      let indent := line.count ' ' + line.count '\t' * r.tabWidth
      let top := s.levels.headD 0
      if indent > top then
        ([t, t.borrow r.opened blanks], .ok { s with levels := indent :: s.levels })
      else
        let (levels, n) := close indent s.levels
        let marks := List.replicate n (t.borrow r.closed blanks)
        let top := levels.headD 0
        if indent = top then (t :: marks, .ok { s with levels })
        else (t :: marks, .error (.dedent ("Unexpected dedent to column " ++ toString indent
          ++ ". Expected dedent to " ++ toString top)))

/-- What becomes of a token: the tokens in its place, and then the new state or a failure. -/
def feed (r : IndentRules) (s : Indenter) (t : Token) : List Token × Parsing Indenter :=
  let (ts, after) := if t.kind == r.newline then feedNewline r s t else ([t], .ok s)
  (ts, do
    let s ← after
    if r.openParen.contains t.kind then pure { s with parens := s.parens + 1 }
    else if r.closeParen.contains t.kind then
      if s.parens = 0 then throw (.fault .broken) else pure { s with parens := s.parens - 1 }
    else pure s)

/-- The marks behind the last token, which stand at no place. -/
def finish (r : IndentRules) (s : Indenter) : List Token :=
  List.replicate (s.levels.length - 1) { kind := r.closed, text := "" }

end Indenter

end CompilerKit
