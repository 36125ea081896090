/-!
# Regular expressions

The syntax of regular expressions with groups, references to groups, look-around and scoped flags,
and the least and greatest length of what they match.
-/

namespace CompilerKit

namespace Regex

structure Flags where
  ignoreCase : Bool := false
  multiline : Bool := false
  dotAll : Bool := false
  verbose : Bool := false
  /-- Character classes and letter case know ASCII characters only. -/
  ascii : Bool := false
  unicode : Bool := false
  /-- Character classes are asked to depend on the place of use, which texts do not allow. -/
  locale : Bool := false
  bytes : Bool := false
  foreign : Bool := false
  excessive : Bool := false

inductive Flag where
  | ignoreCase
  | multiline
  | dotAll
  | verbose
  | ascii
  | unicode
  deriving BEq

def Flags.set (fs : Flags) (f : Flag) (on : Bool) : Flags :=
  match f with
  | .ignoreCase => { fs with ignoreCase := on }
  | .multiline => { fs with multiline := on }
  | .dotAll => { fs with dotAll := on }
  | .verbose => { fs with verbose := on }
  | .ascii => { fs with ascii := on, unicode := false }
  | .unicode => { fs with ascii := false, unicode := on }

def Flags.add (fs : Flags) (f : Flag) : Flags :=
  match f with
  | .ascii => { fs with ascii := true }
  | .unicode => { fs with unicode := true }
  | f => fs.set f true

/-- The switches cannot be used together, or not on what the expression is for. -/
def Flags.clash (fs : Flags) : Bool :=
  if fs.bytes then fs.unicode || (fs.locale && fs.ascii) else fs.locale || (fs.ascii && fs.unicode)

def Flags.change (fs : Flags) (on off : List Flag) : Flags :=
  off.foldl (fun fs f => fs.set f false) (on.foldl (fun fs f => fs.set f true) fs)

inductive Category where
  | digit
  | blank
  | word
  deriving BEq

inductive SetItem where
  | code (n : Nat)
  | range (lo hi : Nat)
  | category (k : Category) (negated : Bool)
  deriving BEq

inductive Anchor where
  | lineStart
  | lineEnd
  | textStart
  | textEnd
  | boundary
  | noBoundary
  deriving BEq

/-- How a repetition chooses its count: as many as possible, as few as possible, or as many as
possible without going back. -/
inductive Greed where
  | greedy
  | lazy
  | possessive
  deriving BEq

structure Width where
  lo : Nat
  hi : Nat
  deriving BEq

/-- Lengths are not counted beyond this. -/
def maxWidth : Nat := 4294967295

namespace Width

/-- Cut off at the greatest length that is counted. The least length stays below it. -/
def cap (w : Width) : Width := ⟨min w.lo (maxWidth - 1), min w.hi maxWidth⟩

def zero : Width := ⟨0, 0⟩

def one : Width := ⟨1, 1⟩

def add (a b : Width) : Width := cap ⟨a.lo + b.lo, a.hi + b.hi⟩

def or (a b : Width) : Width := ⟨min a.lo b.lo, max a.hi b.hi⟩

def times (w : Width) (lo : Nat) (hi : Option Nat) : Width :=
  cap ⟨w.lo * lo, match hi with
    | some n => w.hi * n
    | none => if w.hi = 0 then 0 else maxWidth⟩

end Width

end Regex

open Regex in
inductive Regex where
  | empty
  | code (n : Nat)
  | notCode (n : Nat)
  | any
  | set (negated : Bool) (items : List SetItem)
  | anchor (a : Anchor)
  | seq (first second : Regex)
  | alt (first second : Regex)
  | times (lo : Nat) (hi : Option Nat) (greed : Greed) (body : Regex)
  | group (index : Nat) (body : Regex)
  | within (on off : List Flag) (body : Regex)
  | atomic (body : Regex)
  | look (ahead negated : Bool) (body : Regex)
  | backref (index : Nat) (width : Width)
  /-- Depends on whether a group took part in the match. -/
  | cond (index : Nat) (yes no : Regex)
  deriving BEq

namespace Regex

def seqs : List Regex → Regex
  | [] => empty
  | [r] => r
  | r :: rs => seq r (seqs rs)

def alts : List Regex → Regex
  | [] => empty
  | [r] => r
  | r :: rs => alt r (alts rs)

def width : Regex → Width
  | empty | anchor _ | look _ _ _ => .zero
  | code _ | notCode _ | any | set _ _ => .one
  | seq a b => a.width.add b.width
  | alt a b => a.width.or b.width
  | times lo hi _ r => r.width.times lo hi
  | group _ r | within _ _ r | atomic r => r.width
  | backref _ w => w
  | cond _ a b => a.width.or b.width

def parts : Regex → List Regex
  | empty => []
  | seq a b => a :: b.parts
  | r => [r]

/-- The item can be told to be the same in several alternatives. -/
def isPlain : Regex → Bool
  | code _ | notCode _ | any | set _ _ | anchor _ | backref _ _ => true
  | _ => false

def commonStart : List (List Regex) → Nat → List Regex × List (List Regex)
  | branches, 0 => ([], branches)
  | branches, fuel + 1 =>
    match branches with
    | (r :: _) :: _ =>
      if r.isPlain && branches.all fun b => b.head? == some r then
        let (rs, rests) := commonStart (branches.map List.tail) fuel
        (r :: rs, rests)
      else ([], branches)
    | _ => ([], branches)

/-- The members of a set that does the work of a sequence, if it takes one character. -/
def members? : List Regex → Option (List SetItem)
  | [code n] => some [.code n]
  | [set false items] => some items
  | _ => none

/-- The alternatives as one sequence: what they start with is taken out, and alternatives that all
take one character become a set. -/
def choice (branches : List (List Regex)) : List Regex :=
  match branches with
  | [] => []
  | [b] => b
  | _ =>
    let (start, rests) := commonStart branches (branches.foldl (fun n b => n + b.length) 0)
    match rests.mapM members? with
    | some items => start ++ [set false items.flatten.eraseDups]
    | none => start ++ [alts (rests.map seqs)]

def opened (items : List Regex) : List Regex :=
  items.flatMap fun
    | within [] [] r => r.parts
    | r => [r]

/-- Every look behind has a fixed length. -/
def wellFormed : Regex → Bool
  | empty | anchor _ | code _ | notCode _ | any | set _ _ | backref _ _ => true
  | seq a b | alt a b | cond _ a b => a.wellFormed && b.wellFormed
  | times _ _ _ r | group _ r | within _ _ r | atomic r => r.wellFormed
  | look ahead _ r => (ahead || r.width.lo == r.width.hi) && r.wellFormed

end Regex

end CompilerKit
