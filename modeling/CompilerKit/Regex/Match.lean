import CompilerKit.Regex.Basic
import CompilerKit.Text.Case

/-!
# Matching regular expressions

Matching tries the alternatives in order and goes back where the rest fails. What follows an
expression is a continuation, so going back is trying the next way to call it.
-/

namespace CompilerKit.Regex

abbrev Captures := List (Nat × Nat × Nat)

/-- What follows: the place reached and the groups so far give the end of the whole match. -/
abbrev Rest := Nat → Captures → Option (Nat × Captures)

abbrev Matcher := Nat → Captures → Rest → Option (Nat × Captures)

def Category.has (fs : Flags) (k : Category) (c : Char) : Bool :=
  (!fs.ascii || c.toNat < 128) &&
    match k with
    | .digit => (Text.digitValue? c).isSome
    | .blank => Text.isBlank c && (!fs.ascii || !(28 ≤ c.toNat && c.toNat ≤ 31))
    | .word => Text.isWordChar c

/-- The lower case of a code point, which stands for all its forms when case is ignored. -/
def lower (fs : Flags) (n : Nat) : Nat :=
  if fs.ascii then (if 65 ≤ n && n ≤ 90 then n + 32 else n) else Text.lowerCode n

def isCased (fs : Flags) (n : Nat) : Bool :=
  if fs.ascii then (65 ≤ n && n ≤ 90) || (97 ≤ n && n ≤ 122) else Text.isCased n

/-- The lower-case code points that stand for the same letter. -/
def twins (fs : Flags) (n : Nat) : List Nat := if fs.ascii then [] else Text.twinsOf n

def lowerSources (fs : Flags) (n : Nat) : List Nat :=
  if fs.ascii then
    (if 65 ≤ n && n ≤ 90 then [] else [n]) ++ (if 97 ≤ n && n ≤ 122 then [n - 32] else [])
  else Text.lowerSources n

/-- The code points up to this one have their lower case in the same plane. -/
def basicPlane : Nat := 0xFFFF

def sameLetter (fs : Flags) (n c : Nat) : Bool :=
  if fs.ignoreCase && isCased fs n then
    lower fs c == lower fs n || (twins fs (lower fs n)).contains (lower fs c)
  else c == n

/-- The member of a set holds the character. Where case is ignored the character is taken in lower
case, and so are the members in the first plane; beyond it a member is taken as it is, and a range
also by upper case. -/
def SetItem.has (fs : Flags) (c : Char) : SetItem → Bool
  | .code n =>
    if !fs.ignoreCase then c.toNat == n
    else
      let l := lower fs c.toNat
      if lower fs n ≤ basicPlane then l == lower fs n || (twins fs (lower fs n)).contains l
      else l == n
  | .range lo hi =>
    let inside (n : Nat) : Bool := lo ≤ n && n ≤ hi
    if !fs.ignoreCase then inside c.toNat
    else
      let l := lower fs c.toNat
      ((l :: twins fs l).flatMap (lowerSources fs)).any (fun n => inside n && n ≤ basicPlane)
        || (basicPlane < hi && (inside l || inside (Text.upperCode l)))
  | .category k negated =>
    k.has fs (if fs.ignoreCase then Char.ofNat (lower fs c.toNat) else c) != negated

def wordAt (fs : Flags) (text : Array Char) (i : Nat) : Bool :=
  match text[i]? with
  | some c => Category.word.has fs c
  | none => false

def Anchor.holds (fs : Flags) (text : Array Char) (i : Nat) : Anchor → Bool
  | .textStart => i == 0
  | .lineStart => i == 0 || (fs.multiline && text[i - 1]? == some '\n')
  | .textEnd => i == text.size
  | .lineEnd =>
    i == text.size || (text[i]? == some '\n' && (fs.multiline || i + 1 == text.size))
  | .boundary => !text.isEmpty && side != wordAt fs text i
  | .noBoundary => !text.isEmpty && side == wordAt fs text i
where
  side : Bool := match i with
    | 0 => false
    | j + 1 => wordAt fs text j

def oneChar (text : Array Char) (ok : Char → Bool) : Matcher := fun i caps k =>
  match text[i]? with
  | some c => if ok c then k (i + 1) caps else none
  | none => none

/-- Repeat as often as possible. An iteration that may be left out has to start at a new place. -/
def loopGreedy (m : Matcher) (hi : Option Nat) :
    (fuel least done : Nat) → (last : Option Nat) → Nat → Captures → Rest → Option (Nat × Captures)
  | 0, _, _, _, _, _, _ => none
  | fuel + 1, least + 1, done, last, i, caps, k =>
    m i caps fun j caps => loopGreedy m hi fuel least (done + 1) last j caps k
  | fuel + 1, 0, done, last, i, caps, k =>
    let more :=
      if hi.all (done < ·) && last != some i then
        m i caps fun j caps => loopGreedy m hi fuel 0 (done + 1) (some i) j caps k
      else none
    match more with
    | some r => some r
    | none => k i caps

def loopLazy (m : Matcher) (hi : Option Nat) :
    (fuel least done : Nat) → (last : Option Nat) → Nat → Captures → Rest → Option (Nat × Captures)
  | 0, _, _, _, _, _, _ => none
  | fuel + 1, least + 1, done, last, i, caps, k =>
    m i caps fun j caps => loopLazy m hi fuel least (done + 1) last j caps k
  | fuel + 1, 0, done, last, i, caps, k =>
    match k i caps with
    | some r => some r
    | none =>
      if hi.all (done < ·) && last != some i then
        m i caps fun j caps => loopLazy m hi fuel 0 (done + 1) (some i) j caps k
      else none

/-- Repeat as often as possible and never go back. -/
def loopPossessive (m : Matcher) (hi : Option Nat) :
    (fuel least done : Nat) → (last : Option Nat) → Nat → Captures → Option (Nat × Captures)
  | 0, _, _, _, _, _ => none
  | fuel + 1, least + 1, done, last, i, caps =>
    match m i caps fun j caps => some (j, caps) with
    | some (j, caps) => loopPossessive m hi fuel least (done + 1) last j caps
    | none => none
  | fuel + 1, 0, done, last, i, caps =>
    if hi.all (done < ·) && last != some i then
      match m i caps fun j caps => some (j, caps) with
      | some (j, caps) => loopPossessive m hi fuel 0 (done + 1) (some i) j caps
      | none => some (i, caps)
    else some (i, caps)

def sameAt (fs : Flags) (text : Array Char) (i j n : Nat) : Bool :=
  (List.range n).all fun d =>
    match text[i + d]?, text[j + d]? with
    | some a, some b =>
      if fs.ignoreCase then lower fs a.toNat == lower fs b.toNat else a == b
    | _, _ => false

def matcher (text : Array Char) : Regex → Flags → Matcher
  | .empty, _ => fun i caps k => k i caps
  | .code n, fs => oneChar text fun c => sameLetter fs n c.toNat
  | .notCode n, fs => oneChar text fun c => !sameLetter fs n c.toNat
  | .any, fs => oneChar text fun c => fs.dotAll || c != '\n'
  | .set negated items, fs => oneChar text fun c => items.any (SetItem.has fs c) != negated
  | .anchor a, fs => fun i caps k => if a.holds fs text i then k i caps else none
  | .seq a b, fs => fun i caps k =>
    matcher text a fs i caps fun j caps => matcher text b fs j caps k
  | .alt a b, fs => fun i caps k =>
    match matcher text a fs i caps k with
    | some r => some r
    | none => matcher text b fs i caps k
  | .times lo hi greed r, fs => fun i caps k =>
    let m := matcher text r fs
    let fuel := lo + (text.size - i) + 2
    match greed with
    | .greedy => loopGreedy m hi fuel lo 0 none i caps k
    | .lazy => loopLazy m hi fuel lo 0 none i caps k
    | .possessive =>
      match loopPossessive m hi fuel lo 0 none i caps with
      | some (j, caps) => k j caps
      | none => none
  | .group g r, fs => fun i caps k =>
    matcher text r fs i caps fun j caps => k j ((g, i, j) :: caps)
  | .within on off r, fs => matcher text r (fs.change on off)
  | .atomic r, fs => fun i caps k =>
    match matcher text r fs i caps fun j caps => some (j, caps) with
    | some (j, caps) => k j caps
    | none => none
  | .look ahead negated r, fs => fun i caps k =>
    let back := if ahead then 0 else r.width.lo
    let found :=
      if back ≤ i then matcher text r fs (i - back) caps fun j caps => some (j, caps) else none
    match found with
    | some (_, inner) => if negated then none else k i inner
    | none => if negated then k i caps else none
  | .backref g _, fs => fun i caps k =>
    match caps.lookup g with
    | some (a, b) => if sameAt fs text i a (b - a) then k (i + (b - a)) caps else none
    | none => none
  | .cond g yes no, fs => fun i caps k =>
    match caps.lookup g with
    | some _ => matcher text yes fs i caps k
    | none => matcher text no fs i caps k

def run (r : Regex) (fs : Flags) (text : Array Char) (start : Nat) : Option (Nat × Captures) :=
  if start ≤ text.size then matcher text r fs start [] fun j caps => some (j, caps) else none

def endOf? (r : Regex) (fs : Flags) (text : Array Char) (start : Nat) : Option Nat :=
  (run r fs text start).map Prod.fst

end CompilerKit.Regex
