import CompilerKit.Parse.Token
import CompilerKit.Grammar.Basic

/-!
# Literals

Texts in quotes and regular expressions in slashes, as they are written in a grammar. Backslashes
introduce control characters and code points; in front of anything else they stay.
-/

namespace CompilerKit.Grammar

/-- Double the backslashes that stand for themselves. -/
def protectBackslashes (whole : String) : List Char → Parsing (List Char)
  | [] => pure []
  | '\\' :: [] =>
    throw (.grammar ("Literal ended unexpectedly (bad escaping): `" ++ Text.quote whole ++ "`"))
  | '\\' :: c :: cs => do
    let rest ← protectBackslashes whole cs
    if c == '\\' then pure ('\\' :: '\\' :: '\\' :: '\\' :: rest)
    else if "Uuxnftr".toList.contains c then pure ('\\' :: c :: rest)
    else pure ('\\' :: '\\' :: c :: rest)
  | c :: cs => do return c :: (← protectBackslashes whole cs)

/-- Double quotes lose one backslash, single quotes get one, and every line break is one
character. -/
def normalizeQuotes : List Char → List Char
  | '\\' :: '"' :: cs => '"' :: normalizeQuotes cs
  | '\'' :: cs => '\\' :: '\'' :: normalizeQuotes cs
  | '\r' :: '\n' :: cs => '\n' :: normalizeQuotes cs
  | '\r' :: cs => '\n' :: normalizeQuotes cs
  | c :: cs => c :: normalizeQuotes cs
  | [] => []

/-- The message for a code point that cannot be read: where it starts and ends, and what is
wrong. -/
def badCodePoint (whole : String) (body : List Char) (first last : Nat) (reason : String) :
    ParseFailure :=
  let source := "u'''" ++ String.ofList body ++ "'''"
  let lines := source.splitOn "\n"
  let line := toString lines.length
  let message := "(unicode error) 'unicodeescape' codec can't decode bytes in position "
    ++ toString first ++ "-" ++ toString last ++ ": " ++ reason
  .grammar ("(" ++ Text.quote whole ++ ", SyntaxError(" ++ Text.quote message ++ ", ('<unknown>', "
    ++ line ++ ", " ++ toString (lines.getLastD "").length ++ ", " ++ Text.quote source ++ ", "
    ++ line ++ ", -1)))")

def placeWidth (c : Char) : Nat := if c.toNat < 128 then 1 else 10

def codePointForm? : Char → Option (Nat × String)
  | 'x' => some (2, "truncated \\xXX escape")
  | 'u' => some (4, "truncated \\uXXXX escape")
  | 'U' => some (8, "truncated \\UXXXXXXXX escape")
  | _ => none

def controlChar? : Char → Option Char
  | 'n' => some '\n'
  | 'f' => some '\x0c'
  | 't' => some '\t'
  | 'r' => some '\r'
  | '\\' => some '\\'
  | '\'' => some '\''
  | '"' => some '"'
  | _ => none

/-- Replace what is behind a backslash by what it means. The fuel is the number of characters. -/
def decodeEscapes (whole : String) (body : List Char) :
    Nat → (place : Nat) → List Char → Parsing (List Char)
  | _ + 1, _, [] => pure []
  | fuel + 1, place, '\\' :: c :: cs =>
    match codePointForm? c, controlChar? c with
    | some (n, reason), _ => do
      let digits := (cs.take n).takeWhile Regex.isHex
      if digits.length < n then
        throw (badCodePoint whole body place (place + 1 + digits.length) reason)
      let code := Regex.inBase 16 digits
      if 0x110000 ≤ code then
        throw (badCodePoint whole body place (place + 9) "illegal Unicode character")
      return Text.charOfCode code :: (← decodeEscapes whole body fuel (place + 2 + n) (cs.drop n))
    | none, some d => do return d :: (← decodeEscapes whole body fuel (place + 2) cs)
    | none, none => do
      return '\\' :: c :: (← decodeEscapes whole body fuel (place + 1 + placeWidth c) cs)
  | fuel + 1, place, c :: cs => do
    return c :: (← decodeEscapes whole body fuel (place + placeWidth c) cs)
  | 0, _, _ => pure []

def unescape (s : String) : Parsing String := do
  let body := normalizeQuotes (← protectBackslashes s s.toList)
  if body.contains '\x00' then throw .unreadable
  String.ofList <$> decodeEscapes s body (body.length + 1) 0 body

/-- The text with every pair of backslashes made one. -/
def halveBackslashes : List Char → List Char
  | '\\' :: '\\' :: cs => '\\' :: halveBackslashes cs
  | c :: cs => c :: halveBackslashes cs
  | [] => []

def patternOf (isRegexp : Bool) (text : String) : Parsing Pattern := do
  let cs := text.toList
  let isDelimiter (c : Char) : Bool := c == '/' || c == '"'
  let flags := (cs.reverse.takeWhile fun c => !isDelimiter c).reverse
  if !isRegexp && cs.contains '\n' then
    throw (.grammar "You cannot put newlines in string literals")
  if isRegexp && cs.contains '\n' && !flags.contains 'x' then
    throw (.grammar (
      "You can only use newlines in regular expressions with the `x` (verbose) flag"))
  let inside := ((cs.take (cs.length - flags.length)).drop 1).dropLast
  let s ← unescape (String.ofList inside)
  if s.isEmpty then throw (.grammar ("Empty terminals are not allowed (" ++ text ++ ")"))
  let flags := flags.eraseDups.mergeSort (· ≤ ·)
  if isRegexp then pure { kind := .regexp, value := s, flags }
  else pure { kind := .literal, value := String.ofList (halveBackslashes s.toList), flags }

def between (text : String) : String := String.ofList (text.toList.drop 1).dropLast

def patternOfRange (first last : String) : Parsing Pattern := do
  let a := between first
  let b := between last
  if (← unescape a).length = 1 && (← unescape b).length = 1 then
    pure { kind := .regexp, value := "[" ++ a ++ "-" ++ b ++ "]" }
  else throw .unreadable

def Phrase.readLiteral : Phrase → Parsing Phrase
  | .literal isRegexp text => .pattern <$> patternOf isRegexp text
  | .range a b => .pattern <$> patternOfRange a b
  | e => pure e

/-- Replace all literals by their patterns. The deepest ones are read first. -/
def Phrase.readLiterals (e : Phrase) : Parsing Phrase := do
  e.deepestFirst.forM fun x => do
    let _ ← x.readLiteral
  e.rewrite Phrase.readLiteral

end CompilerKit.Grammar
