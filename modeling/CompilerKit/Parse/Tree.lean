import CompilerKit.Parse.Token
import CompilerKit.Syntax.Text

/-!
# Parse trees

Trees with labelled nodes over tokens and other parts.
-/

namespace CompilerKit

/-- The part of a text that a node covers. The outer places also cover what stood around the node
and left no trace in the tree. -/
structure Span where
  start : Place
  stop : Place
  outerStart : Place
  outerStop : Place

structure NodeInfo where
  span : Option Span := none
  number : Option Nat := none

inductive ParseTree where
  | node (label : String) (children : List ParseTree) (info : NodeInfo)
  | token (t : Token)
  /-- A part that is neither: nothing at all, or a part of compiled code. -/
  | leaf (t : Term)

namespace ParseTree

def written (p : Printed) : String := p.toOption.getD ""

def bare (label : String) (children : List ParseTree) : ParseTree := node label children {}

def isNode : ParseTree → Bool
  | node .. => true
  | _ => false

def isLabelled (label : String) : ParseTree → Bool
  | node l _ _ => l == label
  | _ => false

def children : ParseTree → List ParseTree
  | node _ cs _ => cs
  | _ => []

def label? : ParseTree → Option String
  | node l _ _ => some l
  | _ => none

def span? : ParseTree → Option Span
  | node _ _ i => i.span
  | token t => some ⟨t.start, t.stop, t.start, t.stop⟩
  | leaf _ => none

def withSpan (s : Span) : ParseTree → ParseTree
  | node l cs i => node l cs { i with span := some s }
  | t => t

def number? : ParseTree → Option Nat
  | node _ _ i => i.number
  | _ => none

def leafText : ParseTree → String
  | token t => t.text
  | leaf t => written (t.text baseIndent)
  | node .. => ""

mutual

def dump : ParseTree → String
  | node l cs _ => "Tree(" ++ Text.quote l ++ ", [" ++ ", ".intercalate (dumps cs) ++ "])"
  | token t => t.dump
  | leaf t => written (t.dump baseIndent)

def dumps : List ParseTree → List String
  | [] => []
  | t :: ts => dump t :: dumps ts

end

def ofToken (t : Token) : Term := .leaf .token [.str t.kind, .str t.text]

mutual

def toTerm : ParseTree → Term
  | node l cs _ => .leaf .tree [.str l, .list (toTerms cs)]
  | token t => ofToken t
  | leaf t => t

def toTerms : List ParseTree → List Term
  | [] => []
  | t :: ts => toTerm t :: toTerms ts

end

def margin (level : Nat) : String := String.ofList (List.replicate (2 * level) ' ')

mutual

def lines (level : Nat) : ParseTree → String
  | node l [] _ => margin level ++ l ++ "\n"
  | node l [token t] _ => margin level ++ l ++ "\t" ++ t.text ++ "\n"
  | node l [leaf t] _ => margin level ++ l ++ "\t" ++ written (t.text baseIndent) ++ "\n"
  | node l (c :: cs) _ => margin level ++ l ++ "\n" ++ linesOf (level + 1) (c :: cs)
  | t => margin level ++ t.leafText ++ "\n"

def linesOf (level : Nat) : List ParseTree → String
  | [] => ""
  | t :: ts => lines level t ++ linesOf level ts

end

/-- The indented form: a line for every node and leaf, a single leaf on the line of its node. -/
def pretty (t : ParseTree) : String := lines 0 t

mutual

def size : ParseTree → Nat
  | node _ cs _ => sizes cs + 1
  | _ => 1

def sizes : List ParseTree → Nat
  | [] => 0
  | t :: ts => size t + sizes ts

end

mutual

def topDown : ParseTree → List ParseTree
  | t@(node _ cs _) => t :: topDownOf cs
  | _ => []

def topDownOf : List ParseTree → List ParseTree
  | [] => []
  | t :: ts => topDown t ++ topDownOf ts

end

/-- The trees without those that are among the seen ones, and the seen ones after them. -/
def unseen : List Nat → List ParseTree → List ParseTree × List Nat
  | seen, [] => ([], seen)
  | seen, t :: ts =>
    match t.number? with
    | none => let (us, seen) := unseen seen ts; (t :: us, seen)
    | some n =>
      if seen.contains n then unseen seen ts
      else let (us, seen) := unseen (n :: seen) ts; (t :: us, seen)

/-- The nodes level by level from the roots down, each level from right to left. A node that stands
in several places counts once, where it comes first. -/
def levels : Nat → List Nat → List ParseTree → List ParseTree
  | 0, _, _ => []
  | fuel + 1, seen, ts =>
    match unseen seen ts with
    | ([], _) => []
    | (us, seen) => us ++ levels fuel seen (us.flatMap fun t => (t.children.filter isNode).reverse)

/-- The nodes level by level from the deepest up, each level from left to right. A node that stands
in several places counts once. -/
def bottomUp (t : ParseTree) : List ParseTree := (levels t.size [] [t]).reverse

mutual

def tokens : ParseTree → List Token
  | node _ cs _ => tokensOf cs
  | token t => [t]
  | leaf _ => []

def tokensOf : List ParseTree → List Token
  | [] => []
  | t :: ts => tokens t ++ tokensOf ts

end

mutual

def opened : ParseTree → ParseTree
  | node l cs s => node l (openedAll cs) s
  | token t => token t.opened
  | leaf t => leaf t

def openedAll : List ParseTree → List ParseTree
  | [] => []
  | t :: ts => opened t :: openedAll ts

end

end ParseTree

/-!
## Canonical order of alternatives

The alternatives of an ambiguous node have no order of their own. They are sorted by a text of the
tree in which every part is labelled and every character outside ASCII is escaped.
-/

namespace ParseTree

def escapedUnit (n : Nat) : String :=
  let d := Nat.toDigits 16 n
  "\\u" ++ String.ofList (List.replicate (4 - d.length) '0' ++ d)

def escapedChar (c : Char) : String :=
  let n := c.toNat
  match c with
  | '"' => "\\\""
  | '\\' => "\\\\"
  | '\n' => "\\n"
  | '\r' => "\\r"
  | '\t' => "\\t"
  | '\x08' => "\\b"
  | '\x0c' => "\\f"
  | c =>
    if 32 ≤ n && n < 127 then c.toString
    else if n < 0x10000 then escapedUnit n
    else escapedUnit (0xD800 + (n - 0x10000) / 0x400)
      ++ escapedUnit (0xDC00 + (n - 0x10000) % 0x400)

def quotedText (s : String) : String := "\"" ++ String.join (s.toList.map escapedChar) ++ "\""

def places (a b : Place) : List (Option Nat) :=
  [a.line, a.column, b.line, b.column, a.offset, b.offset]

def listText (xs : List String) : String := "[" ++ ", ".intercalate xs ++ "]"

def placesText (ps : List (Option Nat)) : String :=
  listText (ps.map fun p => match p with
    | some n => toString n
    | none => "null")

def leafForm : Term → String
  | .null => "null"
  | .str s => quotedText s
  | t => written (t.dump baseIndent)

mutual

/-- The tree with all alternatives sorted, and its text, with the places of nodes if asked for. -/
def sorted (spans : Bool) : ParseTree → ParseTree × String
  | leaf t => (leaf t, leafForm t)
  | token t => (token t, "\x7b\"token\": " ++ quotedText t.kind ++ ", \"value\": "
    ++ quotedText t.text
      ++ ", \"pos\": " ++ placesText (places t.start t.stop) ++ "\x7d")
  | node l cs s =>
    let cs := sortedAll spans cs
    let cs := if l == "_ambig" then cs.mergeSort fun a b => a.2 ≤ b.2 else cs
    let text := "\x7b\"tree\": " ++ quotedText l ++ ", \"children\": " ++ listText (cs.map Prod.snd)
    let span := match s.span with
      | some s => placesText (places s.start s.stop)
      | none => "null"
    (node l (cs.map Prod.fst) s,
      text ++ (if spans then ", \"meta\": " ++ span else "") ++ "\x7d")

def sortedAll (spans : Bool) : List ParseTree → List (ParseTree × String)
  | [] => []
  | t :: ts => sorted spans t :: sortedAll spans ts

end

def canonical (spans : Bool) (t : ParseTree) : ParseTree := (sorted spans t).1

end ParseTree

end CompilerKit
