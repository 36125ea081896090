import CompilerKit.Text.Charset
import CompilerKit.Fault

/-!
# Tokens

Pieces of a text that were recognised as one unit, with their places.
-/

namespace CompilerKit

/-- A place in a text. Lines and columns count from one, offsets from zero. -/
structure Place where
  line : Option Nat := none
  column : Option Nat := none
  offset : Option Nat := none

namespace Place

def of (line column offset : Nat) : Place := ⟨some line, some column, some offset⟩

def first : Place := of 1 1 0

end Place

/-- A piece of text of one kind. -/
structure Token where
  kind : String
  text : String
  start : Place := {}
  stop : Place := {}

namespace Token

/-- Tokens are equal when kind and text are, wherever they stand. -/
instance : BEq Token where
  beq a b := a.kind == b.kind && a.text == b.text

def endKind : String := "$END"

def borrow (t : Token) (kind text : String) : Token := { t with kind := kind, text := text }

def opened (t : Token) : Token := { t with stop := {} }

/-- The end of the input, behind the last token if that has a text. -/
def endAfter (last : Option Token) : Token :=
  match last.filter (!·.text.isEmpty) with
  | some t => t.borrow endKind ""
  | none => { kind := endKind, text := "", start := .first }

def dump (t : Token) : String := "Token(" ++ Text.quote t.kind ++ ", " ++ Text.quote t.text ++ ")"

end Token

/-!
## Failures of grammars and parsers

Why a grammar cannot be used, or a text not be parsed.
-/

inductive ParseFailure where
  | grammar (text : String)
  | configuration (text : String)
  | lexing (text : String)
  | parsing (text : String)
  /-- A line goes back to a column at which no block started. -/
  | dedent (text : String)
  | unreadable
  /-- The grammar leaves out text that cannot be restored. -/
  | notReversible
  /-- A regular expression of the terminals taken together is malformed. -/
  | badPattern
  | unsupportedPattern
  | unexpectedToken (token : Token) (expected : List String)
  | unexpectedChar (c : Char) (line column : Nat) (allowed : List String)
  | unexpectedEnd (expected : List String)
  | fault (f : Fault)

abbrev Parsing := Except ParseFailure

end CompilerKit
