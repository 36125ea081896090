import CompilerKit.Earley.Chart
import CompilerKit.Lexer.Basic
import CompilerKit.Parse.Build

/-!
# Chart parsing

Parsing with a chart, over a list of tokens or directly over a text. Over a text, the terminals that
are possible at a place are matched there, and a match takes effect where it ends; ignored terminals
carry the items over to where they end.
-/

namespace CompilerKit.Earley

open Grammar

variable {α : Type}

/-- How a parser looks at the leaves of its input. -/
structure LeafView (α : Type) where
  same : α → α → Bool
  isKind : String → α → Bool
  describe : α → Token

/-- Take leaves one after the other. What comes behind them may be a failure. -/
def takeLeaves (g : Rules) (v : LeafView α) (after : Option ParseFailure) :
    List α → Chart α → Parsing (Chart α)
  | [], c =>
    match after with
    | some f => throw f
    | none => pure (settle g v.same c)
  | a :: rest, c => do
    let c := settle g v.same c
    let taken := c.waiting.items.toList.filter fun i =>
      ((i.next? g).map Symbol.name).any fun x => v.isKind x a
    if taken.isEmpty then throw (.unexpectedToken (v.describe a) (expected g c.waiting).eraseDups)
    takeLeaves g v after rest (advance g v.same c (taken.map fun i => (i, some a)))

def chartOfLeaves (g : Rules) (v : LeafView α) (start : String) (leaves : List α)
    (after : Option ParseFailure) : Parsing (Chart α) :=
  takeLeaves g v after leaves (Chart.initial g start)

/-! ## Parsing a text without cutting it into tokens first -/

/-- The terminals of a grammar as they are matched at a place. -/
structure Matchers where
  table : List (String × Regex × Regex.Flags)
  ignored : List String
  /-- Shorter matches of a terminal count too. -/
  allPrefixes : Bool

/-- The regular expression holds a class of characters by its category, which is not known here. -/
def namesCategory : List Char → Bool
  | '\\' :: 'p' :: '\x7b' :: cs =>
    let isName (c : Char) : Bool := c.isAlpha || c == '_'
    match cs.dropWhile isName with
    | '\x7d' :: _ => (cs.head?.any isName) || namesCategory cs
    | _ => namesCategory cs
  | _ :: cs => namesCategory cs
  | [] => false

/-- The matcher of a terminal. Priorities have no meaning here, and a match has to take
something. -/
def matcherOf (flags : Regex.Flags) (t : Terminal) :
    Parsing (String × Regex × Regex.Flags) := do
  if t.priority ≠ 1 then
    throw (.grammar ("(\"Dynamic Earley doesn't support weights on terminals\", " ++ t.dump ++ ", "
      ++ toString t.priority ++ ")"))
  let r := t.pattern.regexp
  if namesCategory r.toList then throw .unsupportedPattern
  match Regex.read r with
  | .error .countTooLarge => throw (.ofPattern .countTooLarge)
  | .error _ => throw (.grammar ("Bad regexp in token " ++ t.name ++ ": " ++ r))
  | .ok (e, _) =>
    if e.width.lo = 0 then
      throw (.grammar ("(\"Dynamic Earley doesn't allow zero-width regexps\", " ++ t.dump ++ ")"))
    if flags.bytes && r.toList.any fun c => Text.codeOfChar c ≠ c.toNat then
      throw (.fault .unencodable)
    match Regex.compile r flags with
    | .error e => throw (.ofPattern e)
    | .ok (e, fs) => pure (t.name, e, fs)

namespace Matchers

def ofTerminals (flags : Regex.Flags) (ts : List Terminal) (ignored : List String)
    (allPrefixes : Bool) : Parsing Matchers := do
  pure { table := ← ts.mapM (matcherOf flags), ignored, allPrefixes }

def endOf? (m : Matchers) (name : String) (text : Array Char) (i : Nat) :
    Parsing (Option Nat) :=
  match m.table.lookup name with
  | none => throw (.fault (.missingKey (Text.quote name)))
  | some (r, fs) => if fs.bytes then throw (.fault .wrongKind) else pure (r.endOf? fs text i)

/-- Where the matches of a terminal at a place end: the match, and then those of the texts that are
shorter than it. -/
def endsOf (m : Matchers) (name : String) (text : Array Char) (i : Nat) :
    Parsing (List Nat) := do
  match ← m.endOf? name text i with
  | none => pure []
  | some stop =>
    if !m.allPrefixes then pure [stop]
    else
      let shorter ← (List.range (stop - i - 1)).filterMapM fun j => do
        let piece := text.extract i (stop - (j + 1))
        pure ((← m.endOf? name piece 0).map (i + ·))
      pure (stop :: shorter)

end Matchers

/-- Items that go on at a place further on, by that place. Each has its token, or stays as it is. -/
abbrev Delayed := Std.HashMap Nat (List (Item × Option Token))

def Delayed.append (d : Delayed) (stop : Nat) (items : List (Item × Option Token)) : Delayed :=
  d.insert stop (d.getD stop [] ++ items)

def matchHere (g : Rules) (m : Matchers) (start : String) (text : Array Char) (s : LexState)
    (c : Chart ParseTree) (d : Delayed) : Parsing Delayed := do
  let i := s.offset
  let d ← c.waiting.items.foldlM (fun (d : Delayed) item => do
    match item.next? g with
    | none => pure d
    | some x =>
      pure ((← m.endsOf x.name text i).foldl (fun d stop =>
        let piece := String.ofList (text.extract i stop).toList
        d.append stop [(item, some { kind := x.name, text := piece, start := s.place })]) d)) d
  let column := c.columns.back?.getD {}
  let carried := c.waiting.items.toList
    ++ column.items.toList.filter fun item => item.label g == .done start
  m.ignored.foldlM (fun (d : Delayed) x => do
    match ← m.endOf? x text i with
    | none => pure d
    | some stop => pure (d.append stop (carried.map fun item => (item, none)))) d

def sameLeaf : ParseTree → ParseTree → Bool
  | .token a, .token b => a == b
  | _, _ => false

/-- Go through the text place by place. The fuel is what is left of it. -/
def takeText (g : Rules) (m : Matchers) (start : String) (text : Array Char) :
    Nat → LexState → Delayed → Chart ParseTree → Parsing (Chart ParseTree)
  | 0, _, _, c => pure (settle g sameLeaf c)
  | fuel + 1, s, d, c => do
    let c := settle g sameLeaf c
    let d ← matchHere g m start text s c d
    let stop : Place := .of s.line (s.column + 1) (s.offset + 1)
    let items := (d.getD (s.offset + 1) []).map fun (item, t) =>
      (item, t.map fun t => ParseTree.token { t with stop })
    let d := d.erase (s.offset + 1)
    let next := advance g sameLeaf c items
    if next.column.items.isEmpty && next.waiting.items.isEmpty && d.isEmpty then
      throw (.unexpectedChar (text.getD s.offset ' ') s.line s.column
        (expected g c.waiting).eraseDups)
    takeText g m start text fuel (s.advance text (s.offset + 1) true) d next

def chartOfText (g : Rules) (m : Matchers) (start : String) (text : Array Char) :
    Parsing (Chart ParseTree) :=
  takeText g m start text text.size {} {} (Chart.initial g start)

/-! ## Trees -/

def treeBuilder (g : Rules) (o : BuildOptions) : Forest.Builder Grove ParseTree Shoot where
  leaf := .ready
  build rule children :=
    match g.set.productions[rule]? with
    | some p => p.grow o children
    | none => throw (.fault .broken)
  several := Grove.plant ambiguousLabel
  derivations t := do
    if ← Grove.isLabelled ambiguousLabel t then Grove.children t else pure [t]
  severalPartial ds := do
    Grove.plant partialLabel (← ds.mapM (Grove.plant derivationLabel))

def resultOf {σ α β : Type} (g : Rules) (start : String) (resolve : Bool)
    (b : Forest.Builder σ α β) (c : Chart α) : StateT σ Parsing (Option β) := do
  Forest.tree c.forest g.set.productions resolve b (← root g start c)

def treeOf (g : Rules) (start : String) (resolve : Bool) (o : BuildOptions) (c : Chart ParseTree) :
    Parsing (Option ParseTree) := do
  let (t, grove) ← (resultOf g start resolve (treeBuilder g o) c).run {}
  t.mapM (grove.harvest true)

end CompilerKit.Earley
