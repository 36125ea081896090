import CompilerKit.Parse.Token
import CompilerKit.Grammar.Basic

/-!
# Repetitions and alternatives

Productions are plain sequences of symbols. Repetitions become rules of their own, alternatives
inside of a sequence are distributed over it.
-/

namespace CompilerKit.Grammar

mutual

def Phrase.dump : Phrase → String
  | .alts es => "Tree('expansions', [" ++ ", ".intercalate (Phrase.dumps es) ++ "])"
  | .seq es => "Tree('expansion', [" ++ ", ".intercalate (Phrase.dumps es) ++ "])"
  | .aliased e a =>
    "Tree('alias', [" ++ Phrase.dump e ++ ", " ++ (Token.mk "RULE" a {} {}).dump ++ "])"
  | .symbol s => s.dump
  | .pattern p => p.dump
  | _ => "Symbol('__empty__')"

def Phrase.dumps : List Phrase → List String
  | [] => []
  | e :: es => Phrase.dump e :: Phrase.dumps es

end

/-- What a rule was made for: to repeat a phrase, or to repeat two phrases so many times each, also
up to so many times. -/
inductive Purpose where
  | many (body : Phrase)
  | times (a b : Nat) (target atom : Phrase)
  | upTo (a b : Nat) (target atom : Phrase)
  deriving BEq

structure HelperRule where
  name : String
  body : Phrase
  keepAll : Bool

structure Helpers where
  rules : List HelperRule := []
  known : List (Purpose × Symbol) := []
  count : Nat := 0

/-- The rule that is being replaced: its name, and whether it keeps all terminals. -/
structure Host where
  name : String
  keepAll : Bool

abbrev Unfolding := StateT Helpers Parsing

def helper (h : Host) (purpose : Purpose) (word : String) (body : Symbol → Phrase) :
    Unfolding Phrase := do
  let s ← get
  match s.known.find? fun k => k.1 == purpose with
  | some (_, r) => pure (.symbol r)
  | none =>
    let name := "__" ++ h.name ++ "_" ++ word ++ "_" ++ toString s.count
    let r := Grammar.Symbol.rule name
    set { s with
      rules := s.rules ++ [HelperRule.mk name (body r) h.keepAll]
      known := (purpose, r) :: s.known
      count := s.count + 1 }
    pure (.symbol r)

def helperMany (h : Host) (word : String) (e : Phrase) : Unfolding Phrase :=
  helper h (.many e) word fun r => .alts [.seq [e], .seq [.symbol r, e]]

/-- A rule for `a` times the target and `b` times the atom. -/
def helperTimes (h : Host) (a b : Nat) (target atom : Phrase) : Unfolding Phrase :=
  helper h (.times a b target atom) ("repeat_a" ++ toString a ++ "_b" ++ toString b) fun _ =>
    .alts [.seq (List.replicate a target ++ List.replicate b atom)]

def helperUpTo (h : Host) (a b : Nat) (target below atom : Phrase) : Unfolding Phrase :=
  helper h (.upTo a b target atom)
    ("repeat_a" ++ toString a ++ "_b" ++ toString b ++ "_opt") fun _ =>
    .alts ((List.range a).map (fun i => .seq (List.replicate i target ++ [below]))
      ++ (List.range b).map fun i => .seq (List.replicate a target ++ List.replicate i atom))

/-- The greatest number of phrases that a helper rule puts side by side. -/
def maxFactor : Nat := 5

/-- Split a number into steps `(a, b)`, each of which makes `n * a + b` of `n`, from one on. -/
def factors : Nat → Nat → List (Nat × Nat)
  | 0, n => [(n, 0)]
  | fuel + 1, n =>
    if n ≤ maxFactor then [(n, 0)]
    else match [5, 4, 3, 2].find? fun a => a + n % a ≤ maxFactor with
      | some a => factors fuel (n / a) ++ [(a, n % a)]
      | none => [(n, 0)]

/-- From this count on repetitions are split up. -/
def splitCount : Nat := 50

def repeatBetween (h : Host) (e : Phrase) (lo hi : Int) : Unfolding Phrase := do
  if hi < splitCount then
    let counts := (List.range (hi - lo + 1).toNat).map fun (i : Nat) => (lo + (i : Int)).toNat
    pure (.alts (counts.map fun n => .seq (List.replicate n e)))
  else
    let low ← (factors lo.toNat lo.toNat).foldlM (fun t (a, b) => helperTimes h a b t e) e
    if lo = hi then pure low
    else
      let fs := factors (hi - lo + 1).toNat (hi - lo + 1).toNat
      let (target, below) ← fs.dropLast.foldlM (fun (target, below) (a, b) => do
        let below ← helperUpTo h a b target below e
        pure (← helperTimes h a b target e, below)) (e, Phrase.seq [])
      let (a, b) := fs.getLastD (0, 0)
      pure (.alts [.seq [low, ← helperUpTo h a b target below e]])

mutual

/-- The leaves from left to right: whether each of them stays in the tree, nothing for a label. -/
def Phrase.visible (keepAll : Bool) : Phrase → List (Option Bool)
  | .alts es | .seq es | .template _ es => Phrase.visibleAll keepAll es
  | .aliased e _ => Phrase.visible keepAll e ++ [none]
  | .repeated e _ | .maybe e => Phrase.visible keepAll e
  | .symbol (.rule x) => [some (!x.startsWith "_")]
  | .symbol (.terminal _ dropped _) => [some (keepAll || !dropped)]
  | _ => [none]

def Phrase.visibleAll (keepAll : Bool) : List Phrase → List (Option Bool)
  | [] => []
  | e :: es => Phrase.visible keepAll e ++ Phrase.visibleAll keepAll es

end

def anyVisible : List (Option Bool) → Parsing Bool
  | [] => pure false
  | some true :: _ => pure true
  | some false :: rest => anyVisible rest
  | none :: _ => throw .unreadable

def unfoldStep (h : Host) : Phrase → Unfolding Phrase
  | .repeated e .optional => pure (.alts [e, .seq []])
  | .repeated e .some => helperMany h "plus" e
  | .repeated e .any => do return .alts [← helperMany h "star" e, .seq []]
  | .repeated e (.exactly n) => repeatBetween h e n n
  | .repeated e (.between lo hi) =>
    if hi < lo || lo < 0 then
      throw (.grammar ("Bad Range for " ++ e.dump ++ " (" ++ toString lo ++ ".." ++ toString hi
        ++ " isn't allowed)"))
    else repeatBetween h e lo hi
  | .maybe e => do
    let empty := if ← anyVisible (e.visible h.keepAll) then Phrase.gap else .seq []
    pure (.alts [e, empty])
  | e => pure e

def unfold (h : Host) (e : Phrase) : Unfolding Phrase := e.rewrite (unfoldStep h)

/-! ## Alternatives -/

def Phrase.options : Phrase → List Phrase
  | .alts es => es
  | e => [e]

/-- Distribute alternatives over the sequence that they stand in. -/
def distribute : (done todo : List Phrase) → Phrase
  | done, [] => .seq done
  | done, .alts es :: todo =>
    .alts (es.eraseDups.flatMap fun e =>
      (distribute (done ++ match e with | .seq ds => ds | e => [e]) todo).options)
  | done, e :: todo => distribute (done ++ [e]) todo

mutual

def Phrase.simplify : Phrase → Phrase
  | .seq es => distribute [] ((Phrase.simplifyAll es).flatMap fun e => match e with
    | .seq ds => ds
    | e => [e])
  | .aliased e a =>
    match Phrase.simplify e with
    | .alts es => .alts (es.map fun e => .aliased e a)
    | e => .aliased e a
  | .alts es => .alts ((Phrase.simplifyAll es).flatMap Phrase.options).eraseDups
  | e => e

def Phrase.simplifyAll : List Phrase → List Phrase
  | [] => []
  | e :: es => Phrase.simplify e :: Phrase.simplifyAll es

end

end CompilerKit.Grammar
