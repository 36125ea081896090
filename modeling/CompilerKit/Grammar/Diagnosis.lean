import CompilerKit.LR.Parser

/-!
# Mistakes in grammars

A text that is no grammar is compared with short texts that have known mistakes: the mistake is the
same when the parser stops in the same state with the same tokens possible.
-/

namespace CompilerKit.Grammar.Metagrammar

/-!
## The grammar of grammars

The terminals and productions of the language in which grammars are written, and its parser.
-/

def terminalTable : List (String × String) := [
  ("_LPAR", "\\("),
  ("_RPAR", "\\)"),
  ("_LBRA", "\\["),
  ("_RBRA", "\\]"),
  ("_LBRACE", "\\\x7b"),
  ("_RBRACE", "\\\x7d"),
  ("OP", "[+*]|[?](?![a-z])"),
  ("_COLON", ":"),
  ("_COMMA", ","),
  ("_OR", "\\|"),
  ("_DOT", "\\.(?!\\.)"),
  ("_DOTDOT", "\\.\\."),
  ("TILDE", "~"),
  ("RULE", "!?[_?]?[a-z][_a-z0-9]*"),
  ("TERMINAL", "_?[A-Z][_A-Z0-9]*"),
  ("STRING", "\"(\\\\\"|\\\\\\\\|[^\"\\n])*?\"i?"),
  ("REGEXP", "/(?!/)(\\\\/|\\\\\\\\|[^/])*?/[imslux]*"),
  ("_NL", "(\\r?\\n)+\\s*"),
  ("WS", "[ \\t]+"),
  ("COMMENT", "\\s*//[^\\n]*"),
  ("_TO", "->"),
  ("_IGNORE", "%ignore"),
  ("_OVERRIDE", "%override"),
  ("_DECLARE", "%declare"),
  ("_EXTEND", "%extend"),
  ("_IMPORT", "%import"),
  ("NUMBER", "[+-]?\\d+")]

def ruleTable : List (String × List String) := [
  ("start", ["_list"]),
  ("_list", ["_item", "_list _item"]),
  ("_item", ["rule", "term", "ignore", "import", "declare", "override", "extend", "_NL"]),
  ("rule", ["RULE template_params _COLON expansions _NL",
    "RULE template_params _DOT NUMBER _COLON expansions _NL"]),
  ("template_params", ["_LBRACE _template_params _RBRACE", ""]),
  ("_template_params", ["RULE", "_template_params _COMMA RULE"]),
  ("expansions", ["alias", "expansions _OR alias", "expansions _NL _OR alias"]),
  ("?alias", ["expansion _TO RULE", "expansion"]),
  ("expansion", ["_expansion"]),
  ("_expansion", ["", "_expansion expr"]),
  ("?expr", ["atom", "atom OP", "atom TILDE NUMBER", "atom TILDE NUMBER _DOTDOT NUMBER"]),
  ("?atom", ["_LPAR expansions _RPAR", "maybe", "value"]),
  ("value", ["terminal", "nonterminal", "literal", "range", "template_usage"]),
  ("terminal", ["TERMINAL"]),
  ("nonterminal", ["RULE"]),
  ("?name", ["RULE", "TERMINAL"]),
  ("maybe", ["_LBRA expansions _RBRA"]),
  ("range", ["STRING _DOTDOT STRING"]),
  ("template_usage", ["RULE _LBRACE _template_args _RBRACE"]),
  ("_template_args", ["value", "_template_args _COMMA value"]),
  ("term", ["TERMINAL _COLON expansions _NL", "TERMINAL _DOT NUMBER _COLON expansions _NL"]),
  ("override", ["_OVERRIDE rule", "_OVERRIDE term"]),
  ("extend", ["_EXTEND rule", "_EXTEND term"]),
  ("ignore", ["_IGNORE expansions _NL"]),
  ("declare", ["_DECLARE _declare_args _NL"]),
  ("import", ["_IMPORT _import_path _NL",
    "_IMPORT _import_path _LPAR name_list _RPAR _NL",
    "_IMPORT _import_path _TO name _NL"]),
  ("_import_path", ["import_lib", "import_rel"]),
  ("import_lib", ["_import_args"]),
  ("import_rel", ["_DOT _import_args"]),
  ("_import_args", ["name", "_import_args _DOT name"]),
  ("name_list", ["_name_list"]),
  ("_name_list", ["name", "_name_list _COMMA name"]),
  ("_declare_args", ["name", "_declare_args name"]),
  ("literal", ["REGEXP", "STRING"])]

def terminals : List Terminal :=
  terminalTable.map fun (name, value) => { name, pattern := { kind := .regexp, value } }

/-- The symbols of one line of the table: names in upper case are terminals. -/
def symbolsOf (line : String) : List Symbol :=
  ((line.splitOn " ").filter (!·.isEmpty)).map fun x =>
    if Text.isUpper x then .terminal x (x.startsWith "_") none else .rule x

def productions : List Production :=
  ruleTable.flatMap fun (name, lines) =>
    let unwrap := name.startsWith "?"
    let origin := if unwrap then (name.drop 1).toString else name
    lines.zipIdx.map fun (line, order) =>
      { origin, symbols := symbolsOf line, order, options := { unwrap } }

def startRule : String := "start"

def engine : Parsing LR.Engine := do
  match LR.Engine.of? (← LR.Table.ofProductions productions [startRule]) {} startRule with
  | some e => pure e
  | none => throw (.fault .broken)

def lexer : Parsing Lexer := Lexer.ofTerminals {} (.kinds []) terminals ["WS", "COMMENT"]

structure Reading where
  engine : LR.Engine
  input : LR.Input

def reading (text : String) : Parsing Reading := do
  pure {
    engine := ← engine, input := { lexer := .standard (← lexer), text := text.toList.toArray } }

end CompilerKit.Grammar.Metagrammar

namespace CompilerKit.Grammar

def mistakeTable : List (String × List String) := [
  ("Incorrect type of value", ["a: 1\n"]),
  ("Unclosed parenthesis", ["a: (\n"]),
  ("Unmatched closing parenthesis", ["a: )\n", "a: [)\n", "a: (]\n"]),
  ("Expecting rule or terminal definition (missing colon)",
    ["a\n", "A\n", "a->\n", "A->\n", "a A\n"]),
  ("Illegal name for rules or terminals", ["Aa:\n"]),
  ("Alias expects lowercase name", ["a: -> \"a\"\n"]),
  ("Unexpected colon", ["a::\n", "a: b:\n", "a: B:\n", "a: \"a\":\n"]),
  ("Misplaced operator", ["a: b??", "a: b(?)", "a:+\n", "a:?\n", "a:*\n", "a:|*\n"]),
  ("Expecting option (\"|\") or a new rule or terminal definition", ["a:a\n()\n"]),
  ("Terminal names cannot contain dots", ["A.B\n"]),
  ("Expecting rule or terminal definition", ["\"a\"\n"]),
  ("%import expects a name", ["%import \"a\"\n"]),
  ("%ignore expects a value", ["%ignore %import\n"])]

/-- Where a parser stopped: the size of its stack, its state, what it could have taken, and the
token. -/
structure Halt where
  depth : Nat
  state : Nat
  accepts : List String
  token : Token

def haltAt (e : LR.Engine) (s : LR.Stacks) (token : Token) : Parsing Halt := do
  pure { depth := s.states.length, state := s.top, accepts := ← LR.accepts e s, token }

def haltOn (text : String) : Parsing (Option Halt) := do
  let r ← Metagrammar.reading text
  match (LR.Session.initial r.engine).run r.engine r.input with
  | (s, .error (.unexpectedToken t _)) => some <$> haltAt r.engine s.stack t
  | _ => pure none

def knownHalts : Parsing (List (String × Halt)) := do
  let rows ← mistakeTable.mapM fun (label, texts) => do
    pure ((← texts.mapM haltOn).filterMap fun h => h.map fun h => (label, h))
  pure rows.flatten

/-- The mistake that fits: the same token in the same state, or else the first with the same
state. -/
def diagnose (known : List (String × Halt)) (h : Halt) : Option String :=
  let same := known.filter fun (_, k) =>
    k.depth == h.depth && k.state == h.state && k.accepts == h.accepts
  match same.find? fun (_, k) => k.token == h.token with
  | some (label, _) => some label
  | none => same.head?.map Prod.fst

def explain (h : Halt) (expected : List String) : Parsing (Option String) := do
  match diagnose (← knownHalts) h with
  | some label => pure (some label)
  | none => pure (if expected.contains "STRING" then some "Expecting a value" else none)

/-- How wide a text is when it is shown, with a tabulator at every eighth column. -/
def shownWidth (cs : List Char) : Nat :=
  (cs.foldl (fun (total, column) c =>
    if c == '\t' then (total + (8 - column % 8), column + (8 - column % 8))
    else if c == '\r' || c == '\n' then (total + 1, 0)
    else (total + 1, column + 1)) ((0, 0) : Nat × Nat)).1

/-- The line around a place, at most forty characters to each side, and a mark below it. -/
def contextOf (text : String) (pos : Nat) : String :=
  let cs := text.toList
  let before := (((cs.take pos).drop (pos - 40)).reverse.takeWhile (· != '\n')).reverse
  let after := ((cs.drop pos).take 40).takeWhile (· != '\n')
  String.ofList (before ++ after ++ ['\n'] ++ List.replicate (shownWidth before) ' ' ++ ['^', '\n'])

def showOptional : Option Nat → String
  | some n => toString n
  | none => "None"

def parseText (text source : String) : Parsing ParseTree := do
  let r ← Metagrammar.reading (text ++ "\n")
  match (LR.Session.initial r.engine).run r.engine r.input with
  | (_, .ok t) => pure t
  | (s, .error (.unexpectedChar _ line column _)) =>
    throw (.grammar ("Unexpected input at line " ++ toString line ++ " column " ++ toString column
      ++ " in " ++ source ++ ": \n\n" ++ contextOf text s.lex.offset))
  | (s, .error (.unexpectedToken t expected)) =>
    match ← explain (← haltAt r.engine s.stack t) expected with
    | some mistake => throw (.grammar (mistake ++ ", at line " ++ showOptional t.start.line
        ++ " column " ++ showOptional t.start.column ++ "\n\n"
        ++ contextOf text (t.start.offset.getD 0)))
    | none => throw (.unexpectedToken t expected)
  | (_, .error f) => throw f

/-! ## All mistakes of a grammar -/

structure Mistake where
  line : Option Nat
  token : Option Token
  text : String

def mistakeOf (e : LR.Engine) (s : LR.Session) : ParseFailure → Parsing Mistake
  | .unexpectedToken t expected => do
    let h ← haltAt e s.stack t
    let text ← match ← explain h expected with
      | some text => pure text
      | none =>
        let options := if h.accepts.isEmpty then expected else h.accepts
        pure ("Unexpected token " ++ Text.quote t.text ++ ". Expected one of: \x7b"
          ++ ", ".intercalate options ++ "\x7d")
    pure { line := t.start.line, token := some t, text }
  | .unexpectedChar _ line _ _ => pure { line := some line, token := none, text := "" }
  | f => throw f

def oneStep (e : LR.Engine) (s : LR.Stacks) : Parsing (List (String × LR.Stacks)) :=
  (e.table.kinds s.top).filterMapM fun kind =>
    match LR.feed e { kind, text := "" } s with
    | (_, .failed (.unexpectedToken ..)) => pure none
    | (_, .failed f) => throw f
    | (s, _) => pure (some (kind, s))

/-- The shortest way to a state in which a line can end. -/
def wayToNewline (e : LR.Engine) :
    Nat → List (List String × LR.Stacks) → Parsing (List String)
  | 0, _ => throw (.fault .outOfFuel)
  | _ + 1, [] => throw (.fault .wrongKind)
  | fuel + 1, (way, s) :: todo => do
    if (e.table.kinds s.top).contains "_NL" then pure way
    else
      wayToNewline e fuel (todo ++ (← oneStep e s).map fun (kind, s) => (way ++ [kind], s))

def feedKinds (e : LR.Engine) (s : LR.Stacks) : List Token → Parsing LR.Stacks
  | [] => pure s
  | t :: ts =>
    match LR.feed e t s with
    | (_, .failed f) => throw f
    | (s, _) => feedKinds e s ts

def toNewLine (e : LR.Engine) (s : LR.Stacks) : Parsing LR.Stacks := do
  let way ← wayToNewline e 1000000 [([], s)]
  feedKinds e s (way.map (fun kind => { kind, text := "" }) ++ [{ kind := "_NL", text := "\n" }])

/-- Report a failure, bring the parser to a new line and go on, until the text ends. -/
def collect (r : Metagrammar.Reading) :
    Nat → LR.Session → ParseFailure → Parsing (List Mistake)
  | 0, _, _ => throw (.fault .outOfFuel)
  | fuel + 1, s, f => do
    let m ← mistakeOf r.engine s f
    let stack ← toNewLine r.engine s.stack
    match (({ s with stack }).skip r.input f).run r.engine r.input with
    | (_, .ok _) => pure [m]
    | (s, .error g) =>
      if !LR.isUnexpected g || (LR.isAtEnd f && LR.isAtEnd g) then throw g
      else return m :: (← collect r fuel s g)

def firstOfLines : List Mistake → List (Option Nat) → List Mistake
  | [], _ => []
  | m :: ms, seen =>
    if seen.contains m.line then firstOfLines ms seen else m :: firstOfLines ms (m.line :: seen)

def mistakes (text : String) : Parsing (List Mistake) := do
  let r ← Metagrammar.reading (text ++ "\n")
  match (LR.Session.initial r.engine).run r.engine r.input with
  | (_, .ok _) => pure []
  | (s, .error f) =>
    if LR.isUnexpected f then
      pure (firstOfLines (← collect r (text.length + 2) s f) [])
    else throw f

end CompilerKit.Grammar
