import CompilerKit.Bindings
import CompilerKit.Grammar.Literal
import CompilerKit.Grammar.Statement

/-!
# Loading grammars

The definitions of a grammar, put together from its statements and its imports. Terminals that are
used in terminals are replaced by their right-hand sides, so that a definition can be used alone.
-/

namespace CompilerKit.Grammar

/-!
## Grammars to import from

Terminals and rules that grammars can import, by the name of the collection.
-/

/-- Numbers, strings, names, white space and comments as most languages have them. -/
def commonText : String := "\n".intercalate [
  "DIGIT: \"0\"..\"9\"",
  "HEXDIGIT: \"a\"..\"f\"|\"A\"..\"F\"|DIGIT",
  "",
  "INT: DIGIT+",
  "SIGNED_INT: [\"+\"|\"-\"] INT",
  "DECIMAL: INT \".\" INT? | \".\" INT",
  "",
  "_EXP: (\"e\"|\"E\") SIGNED_INT",
  "FLOAT: INT _EXP | DECIMAL _EXP?",
  "SIGNED_FLOAT: [\"+\"|\"-\"] FLOAT",
  "",
  "NUMBER: FLOAT | INT",
  "SIGNED_NUMBER: [\"+\"|\"-\"] NUMBER",
  "",
  "_STRING_INNER: /.*?/",
  "_STRING_ESC_INNER: _STRING_INNER /(?<!\\\\)(\\\\\\\\)*?/",
  "",
  "ESCAPED_STRING : \"\\\"\" _STRING_ESC_INNER \"\\\"\"",
  "",
  "LCASE_LETTER: \"a\"..\"z\"",
  "UCASE_LETTER: \"A\"..\"Z\"",
  "",
  "LETTER: UCASE_LETTER | LCASE_LETTER",
  "WORD: LETTER+",
  "",
  "CNAME: (\"_\"|LETTER) (\"_\"|LETTER|DIGIT)*",
  "",
  "WS_INLINE: (\" \"|/\\t/)+",
  "WS: /[ \\t\\f\\r\\n]/+",
  "",
  "CR : /\\r/",
  "LF : /\\n/",
  "NEWLINE: (CR? LF)+",
  "",
  "SH_COMMENT: /#[^\\n]*/",
  "CPP_COMMENT: /\\/\\/[^\\n]*/",
  "C_COMMENT: \"/*\" /(.|\\n)*?/ \"*/\"",
  "SQL_COMMENT: /--[^\\n]*/"]

def grammarText : String := "\n".intercalate [
  "start: (_item? _NL)* _item?",
  "",
  "_item: rule",
  "     | token",
  "     | statement",
  "",
  "rule: RULE rule_params priority? \":\" expansions",
  "token: TOKEN token_params priority? \":\" expansions",
  "",
  "rule_params: [\"\x7b\" RULE (\",\" RULE)* \"\x7d\"]",
  "token_params: [\"\x7b\" TOKEN (\",\" TOKEN)* \"\x7d\"]",
  "",
  "priority: \".\" NUMBER",
  "",
  "statement: \"%ignore\" expansions                    -> ignore",
  "         | \"%import\" import_path [\"->\" name]       -> import",
  "         | \"%import\" import_path name_list         -> multi_import",
  "         | \"%override\" rule                        -> override_rule",
  "         | \"%declare\" name+                        -> declare",
  "",
  "!import_path: \".\"? name (\".\" name)*",
  "name_list: \"(\" name (\",\" name)* \")\"",
  "",
  "?expansions: alias (_VBAR alias)*",
  "",
  "?alias: expansion [\"->\" RULE]",
  "",
  "?expansion: expr*",
  "",
  "?expr: atom [OP | \"~\" NUMBER [\"..\" NUMBER]]",
  "",
  "?atom: \"(\" expansions \")\"",
  "     | \"[\" expansions \"]\" -> maybe",
  "     | value",
  "",
  "?value: STRING \"..\" STRING -> literal_range",
  "      | name",
  "      | (REGEXP | STRING) -> literal",
  "      | name \"\x7b\" value (\",\" value)* \"\x7d\" -> template_usage",
  "",
  "name: RULE",
  "    | TOKEN",
  "",
  "_VBAR: _NL? \"|\"",
  "OP: /[+*]|[?](?![a-z])/",
  "RULE: /!?[_?]?[a-z][_a-z0-9]*/",
  "TOKEN: /_?[A-Z][_A-Z0-9]*/",
  "STRING: _STRING \"i\"?",
  "REGEXP: /\\/(?!\\/)(\\\\\\/|\\\\\\\\|[^\\/])*?\\/[imslux]*/",
  "_NL: /(\\r?\\n)+\\s*/",
  "",
  "%import common.ESCAPED_STRING -> _STRING",
  "%import common.SIGNED_INT -> NUMBER",
  "%import common.WS_INLINE",
  "",
  "COMMENT: /\\s*/ \"//\" /[^\\n]/*",
  "",
  "%ignore WS_INLINE",
  "%ignore COMMENT"]

def scriptText : String := "\n".intercalate [
  "NAME: /[a-zA-Z_]\\w*/",
  "COMMENT: /#[^\\n]*/",
  "",
  "STRING : /[ubf]?r?(\"(?!\"\").*?(?<!\\\\)(\\\\\\\\)*?\"|'(?!'').*?(?<!\\\\)(\\\\\\\\)*?')/i",
  "LONG_STRING: /[ubf]?r?(\"\"\".*?(?<!\\\\)(\\\\\\\\)*?\"\"\"|'''.*?(?<!\\\\)(\\\\\\\\)*?''')/is",
  "",
  "DEC_NUMBER: /0|[1-9][\\d_]*/i",
  "HEX_NUMBER.2: /0x[\\da-f]*/i",
  "OCT_NUMBER.2: /0o[0-7]*/i",
  "BIN_NUMBER.2 : /0b[0-1]*/i",
  "FLOAT_NUMBER.2: /((\\d+\\.[\\d_]*|\\.[\\d_]+)(e[-+]?\\d+)?|\\d+(e[-+]?\\d+))/i",
  "IMAG_NUMBER.2: /\\d+j/i | FLOAT_NUMBER \"j\"i",
  "",
  "cs_list\x7bitem\x7d: item (\",\" item)* \",\"?",
  "_cs_list\x7bitem\x7d: item (\",\" item)* \",\"?"]

def unicodeText : String := "\n".intercalate [
  "WS_INLINE: /[ \\t\\xa0]/+",
  "WS: /[ \\t\\xa0\\f\\r\\n]/+"]

def library : List (String × String) :=
  [("common", commonText), ("lark", grammarText), ("python", scriptText), ("unicode", unicodeText)]

structure Source where
  definitions : List Definition := []
  ignored : List String := []

def lastPart (name : String) : String := (name.splitOn "__").getLastD name

def isTerminalName (name : String) : Bool := Text.isUpper (lastPart name)

def sortOf (name : String) : String := if isTerminalName name then "terminal" else "rule"

def sortTitle (name : String) : String := if isTerminalName name then "Terminal" else "Rule"

namespace Source

def find? (s : Source) (name : String) : Option Definition :=
  s.definitions.find? fun d => d.name == name

def has (s : Source) (name : String) : Bool := (s.find? name).isSome

def put (s : Source) (d : Definition) : Source :=
  if s.has d.name then
    { s with definitions := s.definitions.map fun e => if e.name == d.name then d else e }
  else { s with definitions := s.definitions ++ [d] }

end Source

def checkOptions (keepAll : Bool) (name : String) :
    DefinitionOptions → Parsing DefinitionOptions
  | .terminal p =>
    if isTerminalName name then pure (.terminal p)
    else throw (.grammar "Rules require a RuleOptions instance as 'options'")
  | .rule o =>
    if isTerminalName name then
      throw (.grammar ("Terminal require a single int as 'options' (e.g. priority), "
        ++ "got <class 'lark.grammar.RuleOptions'>"))
    else pure (.rule { o with keepAll := o.keepAll || keepAll })

def define (keepAll : Bool) (s : Source) (d : Definition) (isOverride : Bool) :
    Parsing Source := do
  if s.has d.name then
    unless isOverride do
      throw (.grammar (sortTitle d.name ++ " '" ++ d.name ++ "' defined more than once"))
  else if isOverride then
    throw (.grammar ("Cannot override a nonexisting " ++ sortOf d.name ++ " " ++ d.name))
  if d.name.startsWith "__" then
    throw (.grammar ("Names starting with double-underscore are reserved (Error at "
      ++ d.name ++ ")"))
  pure (s.put { d with options := ← checkOptions keepAll d.name d.options })

/-- Put a phrase in front of the innermost alternatives. -/
def insertFirst (more : Phrase) : Phrase → Parsing Phrase
  | .alts [first, last] =>
    match first with
    | .alts _ => do return .alts [← insertFirst more first, last]
    | _ => throw (.fault .broken)
  | .alts es => pure (.alts (more :: es))
  | _ => throw (.fault .broken)

def extend (s : Source) (d : Definition) : Parsing Source := do
  match s.find? d.name with
  | none =>
    throw (.grammar ("Can't extend " ++ sortOf d.name ++ " " ++ d.name
      ++ " as it wasn't defined before"))
  | some old =>
    if d.params ≠ old.params then
      throw (.grammar ("Cannot extend " ++ sortOf d.name ++ " with different parameters: "
        ++ d.name))
    match old.body, d.body with
    | some body, some more => pure (s.put { old with body := some (← insertFirst more body) })
    | _, _ => throw (.fault .missingPart)

/-- Ignore a terminal. A phrase that is no name becomes a terminal of its own. -/
def ignore (s : Source) : Phrase → Source
  | .alts [.seq [.terminalName x]] => { s with ignored := s.ignored ++ [x] }
  | e =>
    let name := "__IGNORE_" ++ toString s.ignored.length
    let s := s.put { name, body := some e, options := .terminal 1 }
    { s with ignored := s.ignored ++ [name] }

/-! ## Terminals inside of terminals -/

/-- The names that a terminal uses are those of terminals with a right-hand side. -/
def checkTerminal (ds : List Definition) (d : Definition) (body : Phrase) :
    Parsing Unit :=
  body.deepestFirst.forM fun e => match e with
    | .ruleName x =>
      throw (.grammar ("Rules aren't allowed inside terminals (" ++ x ++ " in " ++ d.name ++ ")"))
    | .terminalName x =>
      match ds.find? fun d => d.name == x with
      | none => throw (.grammar ("Terminal used but not defined: " ++ x))
      | some d => if d.body.isNone then throw (.fault .broken) else pure ()
    | _ => pure ()

def terminalsIn (ds : List Definition) (name : String) : List String :=
  match (ds.find? fun d => d.name == name).bind Definition.body with
  | some body => body.deepestFirst.filterMap fun e => match e with
    | .terminalName x => some x
    | _ => none
  | none => []

def reachable (step : String → List String) : Nat → List String → List String → List String
  | 0, _, seen => seen
  | _ + 1, [], seen => seen
  | fuel + 1, x :: todo, seen =>
    if seen.contains x then reachable step fuel todo seen
    else reachable step fuel (todo ++ step x) (seen ++ [x])

mutual

def Phrase.expand (f : String → Phrase) : Phrase → Phrase
  | .alts es => .alts (Phrase.expandAll f es)
  | .seq es => .seq (Phrase.expandAll f es)
  | .aliased e a => .aliased (Phrase.expand f e) a
  | .repeated e r => .repeated (Phrase.expand f e) r
  | .maybe e => .maybe (Phrase.expand f e)
  | .terminalName x => f x
  | .template x es => .template x (Phrase.expandAll f es)
  | e => e

def Phrase.expandAll (f : String → Phrase) : List Phrase → List Phrase
  | [] => []
  | e :: es => Phrase.expand f e :: Phrase.expandAll f es

end

/-- The right-hand side of a terminal, without the names of terminals. The fuel bounds how deep
terminals are nested. -/
def terminalBody (ds : List Definition) : Nat → String → Phrase
  | 0, x => .terminalName x
  | fuel + 1, x =>
    match (ds.find? fun d => d.name == x).bind Definition.body with
    | some body => body.expand (terminalBody ds fuel)
    | none => .terminalName x

def resolveTerminals (s : Source) : Parsing Source := do
  let ds := s.definitions.filter fun d => isTerminalName d.name
  for d in ds do
    match d.body with
    | some body => checkTerminal ds d body
    | none => pure ()
  let names := ds.map Definition.name
  let uses := names.map fun x => (x, terminalsIn ds x)
  let total := (uses.map fun u => u.2.length + 1).foldl (· + ·) 1
  let step (x : String) : List String := (uses.lookup x).getD []
  for x in names do
    if (reachable step (total + (step x).length) (step x) []).contains x then
      throw (.grammar ("Recursion in terminal '" ++ x
        ++ "' (recursion is only allowed in rules, not terminals)"))
  pure { s with definitions := s.definitions.map fun d =>
    if isTerminalName d.name && d.body.isSome then
      { d with body := some (terminalBody ds (names.length + 1) d.name) }
    else d }

/-! ## Imports -/

/-- What a name of an imported grammar is called: the name that was asked for, or one that no other
grammar has. -/
def mangle (path : List String) (names : List (String × String)) (outer : Option (String → String))
    (x : String) : String :=
  let stem := "__".intercalate path
  let here := match names.lookup x with
    | some y => y
    | none =>
      if x.startsWith "_" then "_" ++ stem ++ "__" ++ (x.drop 1).toString else stem ++ "__" ++ x
  match outer with
  | some f => f here
  | none => here

def Definition.rename (f : String → String) (d : Definition) : Definition :=
  { d with name := f d.name, params := d.params.map f, body := d.body.map (Phrase.mapNames f) }

/-- Add an import to others. Imports from the same path are one import; the names asked for last
count. -/
def mergeImport (i : Import) : List Import → Parsing (List Import)
  | [] => pure [i]
  | j :: js => do
    if i.path == j.path then
      if i.isRelative != j.isRelative then throw (.fault .broken)
      pure ({ j with names := Bindings.putAll j.names i.names } :: js)
    else return j :: (← mergeImport i js)

def keepNeeded (s : Source) (names : List String) : Parsing Source := do
  let uses ← s.definitions.mapM fun d => do
    if isTerminalName d.name then pure (d.name, [])
    else match d.body with
      | some body => pure (d.name, body.names.filter fun x => !d.params.contains x)
      | none => pure (d.name, [])
  let total := (uses.map fun u => u.2.length + 1).foldl (· + ·) (names.length + 1)
  let needed := reachable (fun x => (uses.lookup x).getD []) total names []
  pure { s with definitions := s.definitions.filter fun d => needed.contains d.name }

def addImported (s imported : Source) (path : List String) : Parsing Source := do
  for d in imported.definitions do
    if s.has d.name then
      throw (.grammar ("Cannot import '" ++ d.name ++ "' from '" ++ "/".intercalate path
        ++ ".lark': Symbol already defined."))
  pure { s with definitions := s.definitions ++ imported.definitions }

/-- The definitions of a text. Names are renamed if the text is imported; the fuel bounds how deep
imports are nested. -/
def loadText (keepAll canImport : Bool) :
    Nat → (text source : String) → Option (String → String) → Parsing Source
  | 0, _, _, _ => throw (.fault .outOfFuel)
  | fuel + 1, text, source, rename => do
    let statements ← readStatements text source
    let imports ← (statements.filterMap fun s => match s with
      | .import i => some i
      | _ => none).foldlM (fun is i => mergeImport i is) []
    let mut all : Source := {}
    for i in imports do
      unless canImport do throw (.fault .wrongKind)
      let f := mangle i.path i.names rename
      match if i.isRelative then none else library.lookup ("/".intercalate i.path) with
      | none => throw (.fault .missingFile)
      | some text =>
        let loaded ← loadText keepAll canImport fuel text ("/".intercalate i.path) (some f)
        let needed ← keepNeeded loaded (i.names.map fun n => f n.1)
        all ← addImported all needed i.path
    let named (d : Definition) : Definition := match rename with
      | some f => d.rename f
      | none => d
    for s in statements do
      match s with
      | .define .new d => all ← define keepAll all (named d) false
      | .define .override d => all ← define keepAll all (named d) true
      | .define .extend d => all ← extend all (named d)
      | .ignore e => if rename.isNone then all := ignore all e
      | .declare names =>
        for x in names do
          let x := match rename with
            | some f => f x
            | none => x
          let options := if isTerminalName x then .terminal 1 else .rule {}
          all ← define keepAll all { name := x, body := none, options } false
      | .import _ => pure ()
    resolveTerminals all

/-! ## Checks -/

def checkParams (s : Source) (d : Definition) : List String → List String → Parsing Unit
  | _, [] => pure ()
  | earlier, p :: ps => do
    if s.has p then
      throw (.grammar ("Template Parameter conflicts with rule " ++ p
        ++ " (in template " ++ d.name ++ ")"))
    if earlier.contains p then
      throw (.grammar ("Duplicate Template Parameter " ++ p ++ " (in template " ++ d.name ++ ")"))
    checkParams s d (p :: earlier) ps

def inDefinition (d : Definition) : String := "(in " ++ sortOf d.name ++ " " ++ d.name ++ ")"

/-- The templates that a definition uses are defined, and have as many parameters as arguments. -/
def checkTemplates (s : Source) (d : Definition) (body : Phrase) : Parsing Unit :=
  body.deepestFirst.forM fun e => match e with
    | .template x args =>
      if d.params.contains x then pure ()
      else match s.find? x with
        | none =>
          throw (.grammar ("Template '" ++ x ++ "' used but not defined " ++ inDefinition d))
        | some t =>
          if args.length = t.params.length then pure ()
          else throw (.grammar ("Wrong number of template arguments used for " ++ x ++ " (expected "
            ++ toString t.params.length ++ ", got " ++ toString args.length ++ ") "
            ++ inDefinition d))
    | _ => pure ()

def validate (s : Source) : Parsing Unit := do
  for d in s.definitions do
    checkParams s d [] d.params
    match d.body with
    | none => pure ()
    | some body =>
      checkTemplates s d body
      for x in body.names do
        unless s.has x || d.params.contains x do
          throw (.grammar (sortTitle x ++ " '" ++ x ++ "' used but not defined " ++ inDefinition d))
  let missing := (s.ignored.filter fun x => !s.has x).eraseDups
  unless missing.isEmpty do
    throw (.grammar ("Terminals \x7b" ++ ", ".intercalate (missing.map Text.quote)
      ++ "\x7d were marked to ignore but were not defined!"))

def maxImports : Nat := 8

def load (text source : String) (keepAll : Bool) (canImport : Bool := true) :
    Parsing Source := do
  let s ← loadText keepAll canImport maxImports text source none
  validate s
  pure s

end CompilerKit.Grammar
