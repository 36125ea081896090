import CompilerKit.Grammar.Diagnosis

/-!
# Statements of a grammar

What a grammar is made of: definitions of rules and terminals, changes to earlier definitions,
imports, declarations and terminals to ignore.
-/

namespace CompilerKit.Grammar

inductive DefinitionOptions where
  | rule (o : RuleOptions)
  | terminal (priority : Int)

structure Definition where
  name : String
  params : List String := []
  body : Option Phrase
  options : DefinitionOptions

inductive DefinitionMode where
  | new
  | override
  | extend

structure Import where
  path : List String
  /-- The path starts at the grammar itself. -/
  isRelative : Bool
  names : List (String × String)

inductive Statement where
  | define (mode : DefinitionMode) (d : Definition)
  | ignore (body : Phrase)
  | declare (names : List String)
  | import (i : Import)

def misread {α : Type} : Parsing α := throw (.fault .broken)

def readNumber (t : Token) : Parsing Int :=
  match Text.readInt? t.text with
  | some n => pure n
  | none => throw (.fault .wrongValue)

def readRepetition : List ParseTree → Parsing Repetition
  | [.token op] =>
    match op.text with
    | "?" => pure .optional
    | "+" => pure .some
    | "*" => pure .any
    | _ => misread
  | [.token _, .token n] => do pure (.exactly (← readNumber n))
  | [.token _, .token lo, .token hi] => do pure (.between (← readNumber lo) (← readNumber hi))
  | _ => misread

mutual

def readPhrase : ParseTree → Parsing Phrase
  | .node "expansions" cs _ => do pure (.alts (← readPhrases cs))
  | .node "expansion" cs _ => do pure (.seq (← readPhrases cs))
  | .node "alias" [e, .token a] _ => do pure (.aliased (← readPhrase e) a.text)
  | .node "expr" (e :: op) _ => do
    pure (.repeated (← readPhrase e) (← readRepetition op))
  | .node "maybe" [e] _ => do pure (.maybe (← readPhrase e))
  | .node "value" [v] _ => readPhrase v
  | .node "terminal" [.token t] _ => pure (.terminalName t.text)
  | .node "nonterminal" [.token t] _ => pure (.ruleName t.text)
  | .node "literal" [.token t] _ => pure (.literal (t.kind == "REGEXP") t.text)
  | .node "range" [.token a, .token b] _ => pure (.range a.text b.text)
  | .node "template_usage" (.token x :: args) _ => do pure (.template x.text (← readPhrases args))
  | _ => misread

def readPhrases : List ParseTree → Parsing (List Phrase)
  | [] => pure []
  | t :: ts => do
    return (← readPhrase t) :: (← readPhrases ts)

end

def tokenTexts (ts : List ParseTree) : List String := ts.map ParseTree.leafText

def readRule (name : String) (params : List ParseTree) (priority : Option Token)
    (body : ParseTree) :
    Parsing Definition := do
  let priority ← priority.mapM readNumber
  let keepAll := name.startsWith "!"
  let name := (name.dropWhile (· == '!')).toString
  let unwrap := name.startsWith "?"
  let name := (name.dropWhile (· == '?')).toString
  let params := tokenTexts params
  pure {
    name, params
    body := some (← readPhrase body)
    options := .rule {
      keepAll, unwrap, priority, template := if params.isEmpty then none else some name } }

def readDefinition : ParseTree → Parsing Definition
  | .node "rule" [.token x, params, body] _ => readRule x.text params.children none body
  | .node "rule" [.token x, params, .token n, body] _ =>
    readRule x.text params.children (some n) body
  | .node "term" [.token x, body] _ => do
    pure { name := x.text, body := some (← readPhrase body), options := .terminal 1 }
  | .node "term" [.token x, .token n, body] _ => do
    let priority ← readNumber n
    pure { name := x.text, body := some (← readPhrase body), options := .terminal priority }
  | _ => misread

def readSingleImport (isRelative : Bool) (path : List String) (otherName : Option String) :
    Parsing Import :=
  match path.reverse with
  | [] => misread
  | [only] => throw (.grammar ("Nothing was imported from grammar `" ++ only ++ "`"))
  | name :: rest =>
    pure { path := rest.reverse, isRelative, names := [(name, otherName.getD name)] }

def readImport : List ParseTree → Parsing Import
  | [.node l path _] => readSingleImport (l == "import_rel") (tokenTexts path) none
  | [.node l path _, .token a] =>
    readSingleImport (l == "import_rel") (tokenTexts path) (some a.text)
  | [.node l path _, .node _ names _] =>
    let names := tokenTexts names
    pure { path := tokenTexts path, isRelative := l == "import_rel", names := names.zip names }
  | _ => misread

def readStatement : ParseTree → Parsing Statement
  | .node "override" [d] _ => do pure (.define .override (← readDefinition d))
  | .node "extend" [d] _ => do pure (.define .extend (← readDefinition d))
  | .node "ignore" [e] _ => do pure (.ignore (← readPhrase e))
  | .node "declare" names _ => pure (.declare (tokenTexts names))
  | .node "import" cs _ => do pure (.import (← readImport cs))
  | d => do pure (.define .new (← readDefinition d))

def readStatements (text source : String) : Parsing (List Statement) := do
  (← parseText text source).children.mapM readStatement

end CompilerKit.Grammar
