import CompilerKit.Lexer.Basic
import CompilerKit.Syntax.Text

/-!
# Options of parsers

What a parser can be asked for, and the checks that the wishes fit together.
-/

namespace CompilerKit

inductive Setting where
  | scalar (c : Literal)
  | list (items : List Literal)
  | dict (entries : List (String × Literal))
  deriving BEq

namespace Setting

def shown (c : Literal) : String := c.dump.toOption.getD ""

def dump : Setting → String
  | scalar c => shown c
  | list cs => listForm (cs.map shown)
  | dict es => dictForm (es.map fun (k, c) => (Text.quote k, shown c))

def isTruthy : Setting → Bool
  | scalar .none => false
  | scalar (.bool b) => b
  | scalar (.int i) => i ≠ 0
  | scalar (.str s) => !s.isEmpty
  | scalar (.float d) => d.toFloat != 0
  | list cs => !cs.isEmpty
  | dict es => !es.isEmpty

def str (s : String) : Setting := scalar (.str s)

def none : Setting := scalar .none

end Setting

structure ParserOptions where
  parser : Setting := .str "earley"
  lexer : Setting := .str "auto"
  starts : List String := ["start"]
  priority : Setting := .str "auto"
  ambiguity : Setting := .str "auto"
  indent : Bool := false
  keepAll : Bool := false
  placeholders : Bool := false
  positions : Setting := .scalar (.bool false)
  richRegexps : Bool := false
  cache : Setting := .scalar (.bool false)
  flags : Regex.Flags := {}
  nodeMaker : Setting := .none
  transformer : Setting := .none
  terminalEditor : Setting := .none
  hooks : Setting := .dict []
  importPaths : Setting := .list []
  source : String := "<string>"

namespace ParserOptions

def known : List String := [
  "debug", "keep_all_tokens", "tree_class", "cache", "postlex", "parser", "lexer", "transformer",
  "start", "priority", "ambiguity", "regex", "propagate_positions", "lexer_callbacks",
  "maybe_placeholders", "edit_terminals", "g_regex_flags", "use_bytes", "import_paths",
  "source_path"]

def flagsOfBits (n : Int) : Regex.Flags :=
  let bit (k : Nat) : Bool := n.shiftRight k % 2 == 1
  { ignoreCase := bit 1, locale := bit 2, multiline := bit 3, dotAll := bit 4, unicode := bit 5
    verbose := bit 6, ascii := bit 8, excessive := n < -0x80000000 || 0x80000000 ≤ n }

def flagsOf : Setting → Regex.Flags
  | .scalar (.int n) => flagsOfBits n
  | .scalar (.bool _) => {}
  | _ => { foreign := true }

def set (o : ParserOptions) (name : String) (v : Setting) : ParserOptions :=
  match name, v with
  | "parser", v => { o with parser := v }
  | "lexer", v => { o with lexer := v }
  | "start", .scalar (.str s) => { o with starts := [s] }
  | "start", .list cs => { o with starts := cs.map fun c => c.text.toOption.getD "" }
  | "priority", v => { o with priority := v }
  | "ambiguity", v => { o with ambiguity := v }
  | "postlex", v => { o with indent := v.isTruthy }
  | "keep_all_tokens", v => { o with keepAll := v.isTruthy }
  | "maybe_placeholders", v => { o with placeholders := v.isTruthy }
  | "propagate_positions", v => { o with positions := v }
  | "regex", v => { o with richRegexps := v.isTruthy }
  | "cache", v => { o with cache := v }
  | "g_regex_flags", v => { o with flags := { flagsOf v with bytes := o.flags.bytes } }
  | "use_bytes", v => { o with flags := { o.flags with bytes := v.isTruthy } }
  | "tree_class", v => { o with nodeMaker := v }
  | "transformer", v => { o with transformer := v }
  | "edit_terminals", v => { o with terminalEditor := v }
  | "lexer_callbacks", v => { o with hooks := v }
  | "import_paths", v => { o with importPaths := v }
  | "source_path", .scalar (.str s) => { o with source := s }
  | _, _ => o

def choicesText (cs : List Setting) : String :=
  match cs with
  | [c] => "(" ++ c.dump ++ ",)"
  | cs => "(" ++ ", ".intercalate (cs.map Setting.dump) ++ ")"

def checkChoice (v : Setting) (choices : List Setting) (message : String → String → String) :
    Parsing Unit :=
  if choices.contains v then pure ()
  else throw (.configuration (message v.dump (choicesText choices)))

def gotMessage (got choices : String) : String := "Got " ++ got ++ ", expected one of " ++ choices

def read (settings : List (String × Setting)) (asciiOnly : Bool) :
    Parsing ParserOptions := do
  let o := settings.foldl (fun o (name, v) => o.set name v) ({} : ParserOptions)
  checkChoice o.parser [.str "earley", .str "lalr", .str "cyk", .none] gotMessage
  if o.parser == .str "earley" && o.transformer.isTruthy then
    throw (.configuration (
      "Cannot specify an embedded transformer when using the Earley algorithm. "
      ++ "Please use your transformer on the resulting parse tree, or use a different algorithm "
      ++ "(i.e. LALR)"))
  let unknown := (settings.map Prod.fst).filter fun x => !known.contains x
  unless unknown.isEmpty do
    throw (.configuration ("Unknown options: dict_keys("
      ++ listForm (unknown.map Text.quote) ++ ")"))
  if o.richRegexps then throw .unsupportedPattern
  if o.flags.bytes && !asciiOnly then
    throw (.configuration "Grammar must be ascii only, when use_bytes=True")
  if o.cache.isTruthy then
    if o.parser != .str "lalr" then
      throw (.configuration "cache only works with parser='lalr' for now")
    match o.cache with
    | .scalar (.str _) | .scalar (.bool true) => pure ()
    | _ => throw (.configuration "cache argument must be bool or str")
  pure o

def lexerHooks (o : ParserOptions) : Lexer.Hooks :=
  match o.hooks with
  | .dict es => .kinds (es.map Prod.fst)
  | v => if v.isTruthy then .none else .kinds []

def canImport (o : ParserOptions) : Bool :=
  match o.importPaths with
  | .list cs => cs.all fun c => (c matches .str _)
  | v => !v.isTruthy

def defaultLexer (o : ParserOptions) : Parsing Setting :=
  if o.parser == .str "lalr" then pure (.str "contextual")
  else if o.parser == .str "earley" then pure (.str (if o.indent then "standard" else "dynamic"))
  else if o.parser == .str "cyk" then pure (.str "standard")
  else throw (.fault .broken)

/-- Make every choice that was left open, and check that the choices fit together. -/
def settle (o : ParserOptions) : Parsing ParserOptions := do
  let lexer ← if o.lexer == .str "auto" then o.defaultLexer else pure o.lexer
  checkChoice lexer [.str "standard", .str "contextual", .str "dynamic", .str "dynamic_complete"]
    gotMessage
  if o.indent && (lexer == .str "dynamic" || lexer == .str "dynamic_complete") then
    throw (.configuration
      "Can't use postlex with a dynamic lexer. Use standard or contextual instead")
  let ambiguity ←
    if o.ambiguity == .str "auto" then
      pure (if o.parser == .str "earley" then .str "resolve" else o.ambiguity)
    else do
      checkChoice o.parser [.str "earley", .str "cyk"] fun got choices =>
        got ++ " doesn't support disambiguation. Use one of these parsers instead: " ++ choices
      pure o.ambiguity
  let priority := if o.priority == .str "auto" then .str "normal" else o.priority
  checkChoice priority [.str "auto", .str "normal", .str "invert", .none] fun got choices =>
    "invalid priority option: " ++ got ++ ". Must be one of " ++ choices
  if ambiguity == .str "resolve__antiscore_sum" then throw (.fault .broken)
  checkChoice ambiguity [.str "auto", .str "resolve", .str "explicit", .str "forest"]
    fun got choices => "invalid ambiguity option: " ++ got ++ ". Must be one of " ++ choices
  pure { o with lexer, ambiguity, priority }

def positionsWanted (o : ParserOptions) : Parsing Bool :=
  match o.positions with
  | .scalar (.bool b) => pure b
  | v => throw (.configuration ("Invalid option for propagate_positions: " ++ v.dump))

def checkLexer (o : ParserOptions) : Parsing Unit :=
  let choices : List Setting :=
    if o.parser == .str "lalr" then [.str "standard", .str "contextual"]
    else if o.parser == .str "earley" then
      [.str "standard", .str "dynamic", .str "dynamic_complete"]
    else [.str "standard"]
  checkChoice o.lexer choices fun got choices =>
    "Parser " ++ o.parser.dump ++ " does not support lexer " ++ got ++ ", expected one of "
      ++ choices

end ParserOptions

end CompilerKit
