import CompilerKit.Regex.Basic
import CompilerKit.Text.CharacterName
import CompilerKit.Text.Charset

/-!
# Reading regular expressions

The text form of regular expressions. Reading goes from left to right and keeps count of the
groups, so that references can be checked.
-/

namespace CompilerKit.Regex

inductive PatternError where
  | malformed
  | countTooLarge
  | countTooLong
  | flagsClash
  | flagsForeign

/-- What is left to read, and the groups so far. -/
structure ReadState where
  rest : List Char
  nextGroup : Nat := 1
  names : List (String × Nat) := []
  closed : List (Nat × Width) := []
  flags : Flags := {}
  /-- Inside a look behind: the first group that may not be referred to. -/
  behind : Option Nat := none
  wanted : List Nat := []

abbrev Reading := StateT ReadState (Except PatternError)

/-- A character of the text, alone or behind a backslash. -/
inductive Piece where
  | plain (c : Char)
  | escaped (c : Char)
  deriving BEq

def Piece.chars : Piece → List Char
  | plain c => [c]
  | escaped c => ['\\', c]

def malformed {α : Type} : Reading α := throw .malformed

def peek : Reading (Option Piece) := do
  match (← get).rest with
  | [] => pure none
  | ['\\'] => malformed
  | '\\' :: c :: _ => pure (some (.escaped c))
  | c :: _ => pure (some (.plain c))

def take : Reading (Option Piece) := do
  let p ← peek
  match p with
  | none => pure ()
  | some p => modify fun s => { s with rest := s.rest.drop p.chars.length }
  pure p

def accept (c : Char) : Reading Bool := do
  if (← peek) == some (.plain c) then
    let _ ← take
    pure true
  else
    pure false

def expect (c : Char) : Reading Unit := do
  unless ← accept c do malformed

def takeWhile (ok : Char → Bool) : Nat → Reading (List Char)
  | 0 => pure []
  | n + 1 => do
    match ← peek with
    | some (.plain c) =>
      if ok c then
        let _ ← take
        return c :: (← takeWhile ok n)
      else
        pure []
    | _ => pure []

def takeUntil (close : Char) : Nat → Reading (List Char)
  | 0 => malformed
  | n + 1 => do
    match ← take with
    | none => malformed
    | some p =>
      if p == .plain close then pure []
      else return p.chars ++ (← takeUntil close n)

def takeName (close : Char) : Reading String := do
  let cs ← takeUntil close ((← get).rest.length + 1)
  if cs.isEmpty then malformed
  pure (String.ofList cs)

def isHex (c : Char) : Bool := c.isDigit || ('a' ≤ c && c ≤ 'f') || ('A' ≤ c && c ≤ 'F')

def isOctal (c : Char) : Bool := '0' ≤ c && c ≤ '7'

def hexValue (c : Char) : Nat :=
  if c.isDigit then c.toNat - 48 else (c.toNat ||| 32) - 87

def inBase (base : Nat) (cs : List Char) : Nat :=
  cs.foldl (fun n c => n * base + hexValue c) 0

def hexCode (n : Nat) : Reading Nat := do
  let ds ← takeWhile isHex n
  if ds.length = n then pure (inBase 16 ds) else malformed

def controlCode? : Char → Option Nat
  | 'a' => some 7
  | 'b' => some 8
  | 'f' => some 12
  | 'n' => some 10
  | 'r' => some 13
  | 't' => some 9
  | 'v' => some 11
  | '\\' => some 92
  | _ => none

def category? : Char → Option SetItem
  | 'd' => some (.category .digit false)
  | 'D' => some (.category .digit true)
  | 's' => some (.category .blank false)
  | 'S' => some (.category .blank true)
  | 'w' => some (.category .word false)
  | 'W' => some (.category .word true)
  | _ => none

def anchor? : Char → Option Anchor
  | 'A' => some .textStart
  | 'b' => some .boundary
  | 'B' => some .noBoundary
  | 'Z' => some .textEnd
  | _ => none

def plainEscape (c : Char) : Reading Nat := do
  if (← get).flags.bytes && "uUN".toList.contains c then malformed
  match c with
  | 'x' => hexCode 2
  | 'u' => hexCode 4
  | 'U' =>
    let n ← hexCode 8
    if n < 0x110000 then pure n else malformed
  | 'N' =>
    expect '\x7b'
    match Text.characterNamed? (← takeName '\x7d') with
    | some n => pure n
    | none => malformed
  | c => if c.isAlphanum then malformed else pure (Text.codeOfChar c)

def setEscape (c : Char) : Reading SetItem := do
  match controlCode? c, category? c with
  | some n, _ => pure (.code n)
  | none, some k => pure k
  | none, none =>
    if isOctal c then
      let n := inBase 8 (c :: (← takeWhile isOctal 2))
      if n ≤ 0o377 then pure (.code n) else malformed
    else
      return .code (← plainEscape c)

def checkBehind (g : Nat) : Reading Unit := do
  let s ← get
  match s.behind with
  | none => pure ()
  | some first => if (s.closed.lookup g).isNone || first ≤ g then malformed

def reference (g : Nat) : Reading Regex := do
  match (← get).closed.lookup g with
  | none => malformed
  | some w =>
    checkBehind g
    pure (.backref g w)

def escape (c : Char) : Reading Regex := do
  match anchor? c, category? c, controlCode? c with
  | some a, _, _ => pure (.anchor a)
  | none, some k, _ => pure (.set false [k])
  | none, none, some n => pure (.code n)
  | none, none, none =>
    if c == '0' then
      return .code (inBase 8 (← takeWhile isOctal 2))
    else if c.isDigit then
      let more ← takeWhile Char.isDigit 1
      let last ← if isOctal c && !more.isEmpty && more.all isOctal then takeWhile isOctal 1
        else pure []
      if last.isEmpty then reference (inBase 10 (c :: more))
      else
        let n := inBase 8 (c :: more ++ last)
        if n ≤ 0o377 then pure (.code n) else malformed
    else
      return .code (← plainEscape c)

def setMember : Piece → Reading SetItem
  | .escaped c => setEscape c
  | .plain c => pure (.code (Text.codeOfChar c))

def setMembers : Nat → List SetItem → Reading (List SetItem)
  | 0, _ => malformed
  | n + 1, got => do
    match ← take with
    | none => malformed
    | some p =>
      if p == .plain ']' && !got.isEmpty then pure got
      else
        let a ← setMember p
        if ← accept '-' then
          match ← take with
          | none => malformed
          | some q =>
            if q == .plain ']' then pure (got ++ [a, .code 45])
            else match a, ← setMember q with
              | .code lo, .code hi =>
                if hi < lo then malformed else setMembers n (got ++ [.range lo hi])
              | _, _ => malformed
        else setMembers n (got ++ [a])

def readSet : Reading Regex := do
  let negated ← accept '^'
  let items ← setMembers ((← get).rest.length + 1) []
  match items.eraseDups with
  | [.code n] => pure (if negated then .notCode n else .code n)
  | items => pure (.set negated items)

def maxCount : Nat := 4294967295

def maxDigits : Nat := 4300

def readCount (digits : List Char) : Reading Nat := do
  if maxDigits < digits.length then throw .countTooLong
  let n := inBase 10 digits
  if maxCount ≤ n then throw .countTooLarge
  pure n

/-- The counts of a repetition that was started by this character; `none` if the character stands
for itself. -/
def readCounts (c : Char) : Reading (Option (Nat × Option Nat)) := do
  match c with
  | '?' => pure (some (0, some 1))
  | '*' => pure (some (0, none))
  | '+' => pure (some (1, none))
  | _ =>
    if (← peek) == some (.plain '}') then pure none
    else
      let here ← get
      let lo ← takeWhile Char.isDigit here.rest.length
      let hi ← if ← accept ',' then takeWhile Char.isDigit here.rest.length else pure lo
      if ← accept '}' then
        let least ← readCount lo
        let most ← if hi.isEmpty then pure none else some <$> readCount hi
        if most.any (· < least) then malformed
        pure (some (least, most))
      else
        modify fun _ => here
        pure none

def readGreed : Reading Greed := do
  match ← peek with
  | some (.plain '?') =>
    let _ ← take
    pure .lazy
  | some (.plain '+') =>
    let _ ← take
    pure .possessive
  | _ => pure .greedy

def repeatLast (items : List Regex) (lo : Nat) (hi : Option Nat) : Reading (List Regex) := do
  match items with
  | [] | .anchor _ :: _ | .times .. :: _ => malformed
  | r :: rest =>
    pure (.times lo hi (← readGreed) r :: rest)

def flag? : Char → Option Flag
  | 'i' => some .ignoreCase
  | 'm' => some .multiline
  | 's' => some .dotAll
  | 'x' => some .verbose
  | 'a' => some .ascii
  | 'u' => some .unicode
  | _ => none

/-- The switches of the class tables exclude each other. -/
def clash (fs : List Flag) : Bool := fs.contains .ascii && fs.contains .unicode

def takeFlags (ends : List Char) : Nat → List Flag → Reading (List Flag × Char)
  | 0, _ => malformed
  | n + 1, got => do
    match ← take with
    | some (.plain c) =>
      if ends.contains c && !got.isEmpty then pure (got, c)
      else match flag? c with
        | some f => takeFlags ends n (got ++ [f])
        | none => malformed
    | _ => malformed

def openGroup (name : Option String) : Reading Nat := do
  let s ← get
  match name with
  | none => modify fun s => { s with nextGroup := s.nextGroup + 1 }
  | some x =>
    if (s.names.lookup x).isSome then malformed
    modify fun s => { s with nextGroup := s.nextGroup + 1, names := (x, s.nextGroup) :: s.names }
  pure s.nextGroup

def groupName (close : Char) : Reading String := do
  let x ← takeName close
  if Text.isIdentifier x then pure x else malformed

def conditionGroup : Reading Nat := do
  let x ← takeName ')'
  if Text.isIdentifier x then
    match (← get).names.lookup x with
    | some g => pure g
    | none => malformed
  else match Text.readInt? x with
    | some (.ofNat (g + 1)) =>
      modify fun s => { s with wanted := (g + 1) :: s.wanted }
      pure (g + 1)
    | _ => malformed

def skipComment : Nat → Reading Unit
  | 0 => malformed
  | n + 1 => do
    match ← take with
    | none => malformed
    | some p => unless p == .plain ')' do skipComment n

def skipLine : Nat → Reading Unit
  | 0 => pure ()
  | n + 1 => do
    match ← take with
    | none => pure ()
    | some p => unless p == .plain '\n' do skipLine n

def isSkipped (c : Char) : Bool :=
  c == ' ' || c == '\t' || c == '\n' || c == '\r' || c == '\x0b' || c == '\x0c'

mutual

def readAlternatives : Nat → (verbose nested : Bool) → Reading Regex
  | 0, _, _ => malformed
  | n + 1, verbose, nested => do
    let items ← readItems n verbose nested (!nested) []
    pure (seqs (choice (items :: (← readMore n verbose nested))))

def readMore : Nat → (verbose nested : Bool) → Reading (List (List Regex))
  | 0, _, _ => malformed
  | n + 1, verbose, nested => do
    if ← accept '|' then
      let s ← get
      let verbose := if nested then verbose else s.flags.verbose
      return (← readItems n verbose nested false []) :: (← readMore n verbose nested)
    else
      pure []

/-- A sequence of items; `first` at the very start of the expression, where switches for the whole
expression may stand. The items so far come last first. -/
def readItems : Nat → (verbose nested first : Bool) → List Regex → Reading (List Regex)
  | 0, _, _, _, _ => malformed
  | n + 1, verbose, nested, first, items => do
    let skip := readItems n verbose nested first
    let next (r : Regex) : Reading (List Regex) := skip (r :: items)
    let inner (verbose : Bool) : Reading Regex := do
      let r ← readAlternatives n verbose true
      expect ')'
      pure r
    match ← peek with
    | none | some (.plain '|') | some (.plain ')') => pure (opened items.reverse)
    | some p =>
      let _ ← take
      match p with
      | .escaped c => next (← escape c)
      | .plain c =>
        if verbose && isSkipped c then skip items
        else if verbose && c == '#' then
          skipLine ((← get).rest.length + 1)
          skip items
        else match c with
        | '[' => next (← readSet)
        | '?' | '*' | '+' | '{' =>
          match ← readCounts c with
          | none => next (.code (Text.codeOfChar c))
          | some (lo, hi) => skip (← repeatLast items lo hi)
        | '.' => next .any
        | '^' => next (.anchor .lineStart)
        | '$' => next (.anchor .lineEnd)
        | '(' =>
          if ← accept '?' then
            match ← take with
            | some (.plain 'P') =>
              match ← take with
              | some (.plain '<') =>
                let x ← groupName '>'
                next (← readGroup n verbose (some x))
              | some (.plain '=') =>
                let x ← groupName ')'
                match (← get).names.lookup x with
                | none => malformed
                | some g => next (← reference g)
              | _ => malformed
            | some (.plain ':') => next (.within [] [] (← inner verbose))
            | some (.plain '>') => next (.atomic (← inner verbose))
            | some (.plain '#') =>
              skipComment ((← get).rest.length + 1)
              skip items
            | some (.plain '=') => next (.look true false (← inner verbose))
            | some (.plain '!') => next (.look true true (← inner verbose))
            | some (.plain '<') =>
              let sign ← take
              let negated := sign == some (.plain '!')
              unless negated || sign == some (.plain '=') do malformed
              let outer := (← get).behind
              modify fun s => { s with behind := some (outer.getD s.nextGroup) }
              let r ← readAlternatives n verbose true
              modify fun s => { s with behind := outer }
              expect ')'
              next (.look false negated r)
            | some (.plain '(') =>
              let g ← conditionGroup
              checkBehind g
              let yes ← readItems n verbose true false []
              let no ← if ← accept '|' then readItems n verbose true false [] else pure []
              expect ')'
              next (.cond g (seqs yes) (seqs no))
            | some (.plain c) =>
              let (on, close) ←
                if c == '-' then pure ([], '-')
                else match flag? c with
                  | some f => takeFlags [')', '-', ':'] ((← get).rest.length + 1) [f]
                  | none => malformed
              if clash on || ((← get).flags.bytes && on.contains .unicode) then malformed
              if close == ')' then
                if !first || !items.isEmpty then malformed
                modify fun s => { s with flags := on.foldl Flags.add s.flags }
                readItems n (← get).flags.verbose nested first items
              else
                let off ← if close == '-' then
                    let (off, _) ← takeFlags [':'] ((← get).rest.length + 1) []
                    pure off
                  else pure []
                if off.contains .ascii || off.contains .unicode || on.any off.contains
                then malformed
                next (.within on off (← inner (({ verbose } : Flags).change on off).verbose))
            | _ => malformed
          else next (← readGroup n verbose none)
        | c => next (.code (Text.codeOfChar c))

def readGroup : Nat → Bool → Option String → Reading Regex
  | 0, _, _ => malformed
  | n + 1, verbose, name => do
    let g ← openGroup name
    let r ← readAlternatives n verbose true
    expect ')'
    modify fun s => { s with closed := (g, r.width) :: s.closed }
    pure (.group g r)

end

def readAll (length : Nat) (flags : Flags) : Reading Regex := do
  let r ← readAlternatives (4 * length + 8) flags.verbose false
  if (← get).flags.clash then throw .flagsClash
  match ← peek with
  | some _ => malformed
  | none =>
    let s ← get
    if s.wanted.any fun g => s.nextGroup ≤ g then malformed
    pure r

def read (text : String) (flags : Flags := {}) : Except PatternError (Regex × Flags) := do
  let cs := text.toList
  let (r, s) ← (readAll cs.length flags).run { rest := cs, flags := flags }
  pure (r, s.flags)

def check (r : Regex) (flags : Flags) : Except PatternError Unit := do
  unless r.wellFormed do throw .malformed
  if flags.excessive then throw .countTooLarge

def compile (text : String) (flags : Flags := {}) : Except PatternError (Regex × Flags) := do
  if flags.foreign then throw .flagsForeign
  let (r, fs) ← read text flags
  r.check flags
  pure (r, fs)

end CompilerKit.Regex
