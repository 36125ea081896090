import CompilerKit.Grammar.Flatten
import CompilerKit.Grammar.Load

/-!
# Compiling grammars

From definitions to terminals and productions. Literals in rules become terminals, with a name that
says what they are where possible. Templates become rules for each use of theirs.
-/

namespace CompilerKit.Grammar

structure Compiled where
  terminals : List Terminal
  productions : List Production
  ignored : List String

/-! ## Terminals -/

def needRegexp : Option Pattern → Parsing String
  | some p => pure p.regexp
  | none => throw .unreadable

def repetitionText (p : Pattern) : Repetition → Parsing String
  | .optional => pure "?"
  | .some => pure "+"
  | .any => pure "*"
  | .exactly n => pure ("\x7b" ++ toString n ++ "\x7d")
  | .between lo hi =>
    if hi < lo then
      throw (.grammar ("Bad Range for " ++ p.dump ++ " (" ++ toString lo ++ ".." ++ toString hi
        ++ " isn't allowed)"))
    else pure ("\x7b" ++ toString lo ++ "," ++ toString hi ++ "\x7d")

def repeatPattern (p : Option Pattern) (r : Repetition) : Parsing (Option Pattern) :=
  match p with
  | none => throw .unreadable
  | some p => do
    let op ← repetitionText p r
    pure (some { kind := .regexp, value := "(?:" ++ p.regexp ++ ")" ++ op, flags := p.flags })

mutual

def Phrase.pattern? : Phrase → Parsing (Option Pattern)
  | .pattern p => pure (some p)
  | .seq es => do
    match ← Phrase.patterns es with
    | [] => throw .unreadable
    | [p] => pure p
    | ps => pure (some { kind := .regexp, value := String.join (← ps.mapM needRegexp) })
  | .alts es => do
    match ← Phrase.patterns es with
    | [p] => pure p
    | ps =>
      let inner := "|".intercalate (← ps.mapM needRegexp)
      pure (some { kind := .regexp, value := "(?:" ++ inner ++ ")" })
  | .repeated e r => do repeatPattern (← Phrase.pattern? e) r
  | .maybe e => do repeatPattern (← Phrase.pattern? e) .optional
  | .aliased e _ => do
    let _ ← Phrase.pattern? e
    throw (.grammar "Aliasing not allowed in terminals (You used -> in the wrong place)")
  | _ => pure none

def Phrase.patterns : List Phrase → Parsing (List (Option Pattern))
  | [] => pure []
  | e :: es => do
    return (← Phrase.pattern? e) :: (← Phrase.patterns es)

end

def Phrase.isEmptySequence (e : Phrase) : Bool :=
  match e.deepestFirst.filterMap fun e => match e with
    | .seq es => some es.isEmpty
    | _ => none with
  | [isEmpty] => isEmpty
  | _ => false

def compileTerminals (ds : List Definition) : Parsing (List Terminal) := do
  for d in ds do
    if d.body.any Phrase.isEmptySequence then
      throw (.grammar ("Terminals cannot be empty (" ++ d.name ++ ")"))
  let found ← ds.mapM fun d => do
    match d.body with
    | none => pure none
    | some body =>
      let body ← body.readLiterals
      match ← body.pattern? with
      | none => throw (.fault .broken)
      | some pattern =>
        let priority := match d.options with
          | .terminal p => p
          | .rule _ => 1
        pure (some { name := d.name, pattern, priority })
  pure (found.filterMap id)

/-! ## Rules -/

def literalNames : List (String × String) := [
  (".", "DOT"), (",", "COMMA"), (":", "COLON"), (";", "SEMICOLON"), ("+", "PLUS"), ("-", "MINUS"),
  ("*", "STAR"), ("/", "SLASH"), ("\\", "BACKSLASH"), ("|", "VBAR"), ("?", "QMARK"), ("!", "BANG"),
  ("@", "AT"), ("#", "HASH"), ("$", "DOLLAR"), ("%", "PERCENT"), ("^", "CIRCUMFLEX"),
  ("&", "AMPERSAND"), ("_", "UNDERSCORE"), ("<", "LESSTHAN"), (">", "MORETHAN"), ("=", "EQUAL"),
  ("\"", "DBLQUOTE"), ("'", "QUOTE"), ("`", "BACKQUOTE"), ("~", "TILDE"), ("(", "LPAR"),
  (")", "RPAR"), ("\x7b", "LBRACE"), ("\x7d", "RBRACE"), ("[", "LSQB"), ("]", "RSQB"),
  ("\n", "NEWLINE"), ("\r\n", "CRLF"), ("\t", "TAB"), (" ", "SPACE")]

structure Workshop where
  terminals : List Terminal
  numbered : Nat := 0
  /-- The rules, with those that templates lead to at the end. -/
  rules : List Definition
  instances : List String := []
  arguments : Nat := 0

abbrev Working := StateT Workshop Parsing

def suggestName (taken : List String) (value : String) : Option String :=
  let name := match literalNames.lookup value with
    | some x => some x
    | none =>
      let upper := Text.toUpper value
      match value.toList with
      | c :: _ =>
        if Text.isNameText value && Text.isNameStart c && !taken.contains upper then some upper
        else none
      | [] => none
  name.filter fun x => !taken.contains x

def nameTerminal (keepAll : Bool) (p : Pattern) : Working Symbol := do
  let w ← get
  let dropped := p.kind == .literal && !keepAll
  match w.terminals.reverse.find? fun t => t.pattern == p with
  | some t => pure (.terminal t.name dropped none)
  | none =>
    let taken := w.terminals.map Terminal.name
    let suggestion := if p.kind == .literal then suggestName taken p.value else none
    let (name, numbered) := match suggestion with
      | some x => (x, w.numbered)
      | none => ("__ANON_" ++ toString w.numbered, w.numbered + 1)
    set { w with
      numbered
      terminals := if taken.contains name then w.terminals
        else w.terminals ++ [({ name, pattern := p } : Terminal)] }
    pure (.terminal name dropped none)

/-- Replace names by symbols. Terminals whose name starts with an underscore are dropped from
trees. -/
def Phrase.toSymbol : Phrase → Phrase
  | .ruleName x => .symbol (.rule x)
  | .terminalName x => .symbol (.terminal x (x.startsWith "_") none)
  | e => e

mutual

def Phrase.substitute (f : String → Option Symbol) : Phrase → Phrase
  | .alts es => .alts (Phrase.substituteAll f es)
  | .seq es => .seq (Phrase.substituteAll f es)
  | .aliased e a => .aliased (Phrase.substitute f e) a
  | .repeated e r => .repeated (Phrase.substitute f e) r
  | .maybe e => .maybe (Phrase.substitute f e)
  | .ruleName x => match f x with
    | some s => .symbol s
    | none => .ruleName x
  | .terminalName x => match f x with
    | some s => .symbol s
    | none => .terminalName x
  | .template x es =>
    .template (match f x with
      | some s => s.name
      | none => x) (Phrase.substituteAll f es)
  | e => e

def Phrase.substituteAll (f : String → Option Symbol) : List Phrase → List Phrase
  | [] => []
  | e :: es => Phrase.substitute f e :: Phrase.substituteAll f es

end

/-- Number the terminals that are given to a template and were given to none before. -/
def numberArguments (n : Nat) : List Symbol → List Symbol
  | [] => []
  | .terminal x dropped none :: ss =>
    .terminal x dropped (some n) :: numberArguments (n + 1) ss
  | s :: ss => s :: numberArguments (n + 1) ss

/-- Replace the use of a template by a rule, which is made at the first use. -/
def applyTemplate : Phrase → Working Phrase
  | .template x args => do
    let w ← get
    let symbols ← args.mapM fun a => match a with
      | .symbol s => pure s
      | _ => throw .unreadable
    let name := x ++ "\x7b" ++ ",".intercalate (symbols.map Symbol.name) ++ "\x7d"
    unless w.instances.contains name do
      match w.rules.filter fun d => d.name == x with
      | [d] =>
        if d.params.length ≠ symbols.length then throw .unreadable
        let table := d.params.zip (numberArguments w.arguments symbols)
        let body := d.body.map (Phrase.substitute fun p => table.reverse.lookup p)
        set { w with
          rules := w.rules ++ [{ d with name, params := [], body }]
          instances := name :: w.instances
          arguments := w.arguments + symbols.length }
      | _ => throw .unreadable
    pure (.symbol (.rule name))
  | e => pure e

structure FlatRule where
  name : String
  body : Phrase
  options : RuleOptions

def settleRule (keepAll : Bool) (body : Phrase) : Working Phrase := do
  let body ← body.readLiterals
  let body : Phrase := Id.run (body.rewrite fun e => pure e.toSymbol)
  let body ← body.rewrite fun e => match e with
    | .pattern p => do return .symbol (← nameTerminal keepAll p)
    | e => pure e
  body.rewrite applyTemplate

/-- Work through the rules from the one at an index on, and through those that are added. -/
def settleRules : Nat → Nat → Helpers → Working (List FlatRule × Helpers)
  | 0, _, _ => throw (.fault .outOfFuel)
  | fuel + 1, i, helpers => do
    match (← get).rules[i]? with
    | none => pure ([], helpers)
    | some d =>
      if !d.params.isEmpty then settleRules fuel (i + 1) helpers
      else
        let options := match d.options with
          | .rule o => o
          | .terminal _ => {}
        match d.body with
        | none => throw (.fault .missingPart)
        | some body =>
          let body ← settleRule options.keepAll body
          let (body, helpers) ←
            (unfold { name := d.name, keepAll := options.keepAll } body).run helpers
          let (rest, helpers) ← settleRules fuel (i + 1) helpers
          pure ({ name := d.name, body, options } :: rest, helpers)

def symbolOrGap : Phrase → Parsing (Option Symbol)
  | .symbol s => pure (some s)
  | .gap => pure none
  | _ => throw (.fault .broken)

def sequenceOf : Phrase → Parsing (List Phrase × Option String)
  | .seq es => pure (es, none)
  | .aliased (.seq es) a => pure (es, some a)
  | _ => throw .unreadable

def productionsOf (r : FlatRule) : Parsing (List Production) := do
  (← r.body.simplify.options.mapM sequenceOf).zipIdx.mapM fun ((es, otherName), order) => do
    if let some a := otherName then
      if r.name.startsWith "_" then
        throw (.grammar ("Rule " ++ r.name ++
          " is marked for expansion (it starts with an underscore)"
          ++ " and isn't allowed to have aliases (alias=" ++ a ++ ")"))
    let found ← es.mapM symbolOrGap
    let gaps := found.map Option.isNone
    let symbols := (found.filterMap id).map fun s => match s with
      | .terminal x dropped n => .terminal x (dropped && !r.options.keepAll) n
      | s => s
    pure {
      origin := r.name, symbols, order, otherName
      options := if gaps.contains true then { r.options with gaps } else r.options }

/-- A terminal that was given to a template stays in trees wherever it is used, if one of the rules
that use it keeps all terminals. -/
def keepArguments (ps : List Production) : List Production :=
  let kept := ps.flatMap fun p =>
    if p.options.keepAll then p.symbols.filterMap Symbol.argument else []
  ps.map fun p => { p with symbols := p.symbols.map fun s => match s with
    | .terminal x dropped (some n) => .terminal x (dropped && !kept.contains n) (some n)
    | s => s }

/-- Only empty productions can be there twice; the first one stays. -/
def dropDuplicates (ps : List Production) : Parsing (List Production) := do
  for p in ps do
    let same := ps.filter (· == p)
    if same.length > 1 && !p.symbols.isEmpty then
      throw (.grammar ("Rules defined twice: " ++ String.join (same.map fun q => "\n  * " ++ q.text)
        ++ "\n\n(Might happen due to colliding expansion of optionals: [] or ?)"))
  pure ps.eraseDups

/-- Drop the productions of rules that no other rule uses, until none is left. -/
def dropUnused (starts : List String) : Nat → List Production → List Production
  | 0, ps => ps
  | fuel + 1, ps =>
    let used := starts ++ ps.flatMap fun p => p.symbols.filterMap fun s => match s with
      | .rule x => if x == p.origin then none else some x
      | .terminal .. => none
    let kept := ps.filter fun p => used.contains p.origin
    if kept.length = ps.length then ps else dropUnused starts fuel kept

def maxRules : Nat := 100000

/-- The terminals and productions that the start rules need. Some terminals are kept in any case. -/
def compile (s : Source) (starts keep : List String) : Parsing Compiled := do
  let (terminalDefs, ruleDefs) := s.definitions.partition fun d => isTerminalName d.name
  let terminals ← compileTerminals terminalDefs
  let ((flat, helpers), w) ← (settleRules maxRules 0 {}).run { terminals, rules := ruleDefs }
  let helperRules := helpers.rules.map fun h =>
    { name := h.name, body := h.body, options := { keepAll := h.keepAll } : FlatRule }
  let all ← (flat ++ helperRules).mapM productionsOf
  let productions ← dropDuplicates (keepArguments all.flatten)
  let productions := dropUnused starts productions.length productions
  let used := productions.flatMap fun p => p.symbols.filterMap fun s => match s with
    | .terminal x _ _ => some x
    | .rule _ => none
  let needed := used ++ s.ignored ++ keep
  pure {
    terminals := w.terminals.filter fun t => needed.contains t.name
    productions
    ignored := s.ignored }

end CompilerKit.Grammar
