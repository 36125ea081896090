import CompilerKit.Regex.Reader

/-!
# Grammars

Symbols, productions and terminals of a grammar in its final form, ready for a lexer and a parser.
-/

namespace CompilerKit.Grammar

/-- Symbols. A terminal may be marked to leave no trace in parse trees; one that was given to a
template has a number, by which its uses are known. -/
inductive Symbol where
  | terminal (name : String) (dropped : Bool) (argument : Option Nat)
  | rule (name : String)

namespace Symbol

def name : Symbol → String
  | terminal n _ _ => n
  | rule n => n

def isTerminal : Symbol → Bool
  | terminal .. => true
  | rule _ => false

def isDropped : Symbol → Bool
  | terminal _ d _ => d
  | rule _ => false

def argument : Symbol → Option Nat
  | terminal _ _ n => n
  | rule _ => none

/-- Symbols are equal when their names are, dropped or not. -/
instance : BEq Symbol where
  beq a b := a.isTerminal == b.isTerminal && a.name == b.name

def isInlined : Symbol → Bool
  | terminal .. => false
  | rule n => n.startsWith "_"

def dump : Symbol → String
  | terminal n _ _ => "Terminal(" ++ Text.quote n ++ ")"
  | rule n => "NonTerminal(" ++ Text.quote n ++ ")"

end Symbol

structure RuleOptions where
  keepAll : Bool := false
  /-- A node with one child is replaced by it. -/
  unwrap : Bool := false
  priority : Option Int := none
  template : Option String := none
  /-- Where an optional part was left out, between the symbols. -/
  gaps : List Bool := []

structure Production where
  origin : String
  symbols : List Symbol
  order : Nat := 0
  otherName : Option String := none
  options : RuleOptions := {}

namespace Production

/-- Productions are equal when they expand the same rule in the same way. -/
instance : BEq Production where
  beq a b := a.origin == b.origin && a.symbols == b.symbols

def text (p : Production) : String :=
  "<" ++ p.origin ++ " : " ++ " ".intercalate (p.symbols.map Symbol.name) ++ ">"

end Production

inductive PatternKind where
  | literal
  | regexp
  deriving BEq

/-- What a terminal matches, with the letters of its switches. -/
structure Pattern where
  kind : PatternKind
  value : String
  flags : List Char := []
  deriving BEq

namespace Pattern

def isSpecial (c : Char) : Bool :=
  "()[]\x7b\x7d?*+-|^$\\.&~# \t\n\r\x0b\x0c".toList.contains c

def escape (s : String) : String :=
  String.ofList (s.toList.flatMap fun c => if isSpecial c then ['\\', c] else [c])

def regexp (p : Pattern) : String :=
  let body := match p.kind with
    | .literal => escape p.value
    | .regexp => p.value
  p.flags.foldl (fun r f => "(?" ++ String.ofList [f] ++ ":" ++ r ++ ")") body

def width (p : Pattern) : Except Regex.PatternError Regex.Width :=
  match p.kind with
  | .literal => .ok ⟨p.value.length, p.value.length⟩
  | .regexp => (Regex.read p.regexp).map fun r => r.1.width

def dump (p : Pattern) : String := Text.quote p.regexp

/-- A match can hold a line break, as far as the text of the expression shows. -/
def mayHoldNewline (p : Pattern) : Bool :=
  let r := p.regexp
  let has (s : String) : Bool := (r.splitOn s).length > 1
  has "\n" || has "\\n" || has "\\s" || has "[^" || (has "(?s" && has ".")

end Pattern

structure Terminal where
  name : String
  pattern : Pattern
  priority : Int := 1

def Terminal.dump (t : Terminal) : String :=
  "TerminalDef(" ++ Text.quote t.name ++ ", " ++ t.pattern.dump ++ ")"

/-!
## Phrases

The right-hand sides of definitions in a grammar: sequences, alternatives, repetitions and optional
parts over names and literals. The steps of compilation replace literals by patterns, and names and
patterns by symbols.
-/

inductive Repetition where
  | optional
  | some
  | any
  | exactly (n : Int)
  | between (lo hi : Int)
  deriving BEq

inductive Phrase where
  | alts (items : List Phrase)
  | seq (items : List Phrase)
  /-- A sequence whose nodes get another label. -/
  | aliased (body : Phrase) (otherName : String)
  | repeated (body : Phrase) (times : Repetition)
  /-- A part in brackets, which may leave a mark when it is left out. -/
  | maybe (body : Phrase)
  | ruleName (name : String)
  | terminalName (name : String)
  /-- A text in quotes or slashes, with its delimiters and the letters of its switches. -/
  | literal (isRegexp : Bool) (text : String)
  | range (first last : String)
  | template (name : String) (args : List Phrase)
  | pattern (p : Pattern)
  | symbol (s : Symbol)
  | gap

namespace Phrase

mutual

def equal : Phrase → Phrase → Bool
  | alts ps, alts qs => equals ps qs
  | seq ps, seq qs => equals ps qs
  | aliased p x, aliased q y => equal p q && x == y
  | repeated p m, repeated q n => equal p q && m == n
  | maybe p, maybe q => equal p q
  | ruleName x, ruleName y => x == y
  | terminalName x, terminalName y => x == y
  | literal a s, literal b t => a == b && s == t
  | range a b, range c d => a == c && b == d
  | template x ps, template y qs => x == y && equals ps qs
  | pattern p, pattern q => p == q
  | symbol s, symbol t => s == t
  | gap, gap => true
  | _, _ => false

def equals : List Phrase → List Phrase → Bool
  | [], [] => true
  | p :: ps, q :: qs => equal p q && equals ps qs
  | _, _ => false

end

instance : BEq Phrase := ⟨equal⟩

def mapInner {m : Type → Type} [Monad m] (f : Phrase → m Phrase) : Phrase → m Phrase
  | alts es => alts <$> es.mapM f
  | seq es => seq <$> es.mapM f
  | aliased e a => do return aliased (← f e) a
  | repeated e r => do return repeated (← f e) r
  | maybe e => maybe <$> f e
  | template x es => template x <$> es.mapM f
  | e => pure e

mutual

def height : Phrase → Nat
  | alts es | seq es | template _ es => heights es + 1
  | aliased e _ | repeated e _ | maybe e => height e + 1
  | _ => 0

def heights : List Phrase → Nat
  | [] => 0
  | e :: es => max (height e) (heights es)

end

def rewriteAt {m : Type → Type} [Monad m] (f : Phrase → m Phrase) : Nat → Phrase → m Phrase
  | 0, e => f e
  | d + 1, e => mapInner (rewriteAt f d) e

def rewrite {m : Type → Type} [Monad m] (f : Phrase → m Phrase) (e : Phrase) : m Phrase :=
  (List.range (height e + 1)).reverse.foldlM (fun e d => rewriteAt f d e) e

mutual

def mapNames (f : String → String) : Phrase → Phrase
  | alts es => alts (mapNamesOf f es)
  | seq es => seq (mapNamesOf f es)
  | aliased e a => aliased (mapNames f e) (f a)
  | repeated e r => repeated (mapNames f e) r
  | maybe e => maybe (mapNames f e)
  | ruleName x => ruleName (f x)
  | terminalName x => terminalName (f x)
  | template x es => template (f x) (mapNamesOf f es)
  | e => e

def mapNamesOf (f : String → String) : List Phrase → List Phrase
  | [] => []
  | e :: es => mapNames f e :: mapNamesOf f es

end

mutual

def allNames : Phrase → List String
  | alts es | seq es => allNamesOf es
  | aliased e a => allNames e ++ [a]
  | repeated e _ | maybe e => allNames e
  | ruleName x | terminalName x => [x]
  | template x es => x :: allNamesOf es
  | _ => []

def allNamesOf : List Phrase → List String
  | [] => []
  | e :: es => allNames e ++ allNamesOf es

end

mutual

def names : Phrase → List String
  | seq es => allNamesOf es
  | alts es => namesOf es
  | aliased e _ | repeated e _ | maybe e => names e
  | _ => []

def namesOf : List Phrase → List String
  | [] => []
  | e :: es => names e ++ namesOf es

end

mutual

/-- All phrases from left to right, each with its level as it is written: what stands for a single
symbol is a level deeper than what it is part of. -/
def levels (d : Nat) : Phrase → List (Nat × Phrase)
  | alts es => (d, alts es) :: levelsOf (d + 1) es
  | seq es => (d, seq es) :: levelsOf (d + 1) es
  | aliased e a => (d, aliased e a) :: levels (d + 1) e
  | repeated e r => (d, repeated e r) :: levels (d + 1) e
  | maybe e => (d, maybe e) :: levels (d + 1) e
  | template x es => (d + 1, template x es) :: levelsOf (d + 2) es
  | e => [(d + 1, e)]

def levelsOf (d : Nat) : List Phrase → List (Nat × Phrase)
  | [] => []
  | e :: es => levels d e ++ levelsOf d es

end

def deepestFirst (e : Phrase) : List Phrase :=
  ((levels 0 e).mergeSort fun a b => b.1 ≤ a.1).map Prod.snd

end Phrase

end CompilerKit.Grammar
