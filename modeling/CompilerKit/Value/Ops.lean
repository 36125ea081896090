import CompilerKit.Syntax.Tree
import CompilerKit.Word

/-!
# Operations on values

Truth values count as the numbers zero and one. Numbers compare by value, texts by code points,
sequences of the same kind item by item. Positions count from the end when negative.

* `Value.same`: identity. Small numbers, short texts and empty tuples are identical when they are
  equal, other values only when they are one object.
-/

namespace CompilerKit.Value

def ofLiteral (c : Literal) (id : Nat) : Value :=
  match c with
  | .none => none
  | .bool b => bool b
  | .int i => int i id
  | .float d => float d id
  | .str s => str s id

def asInt? : Value → Option Int
  | int i _ => some i
  | bool b => some (if b then 1 else 0)
  | _ => Option.none

/-- The order of two numbers: none if one value is no number, some none if they have no order. -/
def compareNumbers (a b : Value) : Option (Option Ordering) :=
  match a, b with
  | float x _, float y _ => some (x.compareDouble y)
  | float x _, b => (asInt? b).map fun j => x.compareInt j
  | a, float y _ => (asInt? a).map fun i => (y.compareInt i).map Ordering.swap
  | a, b => (asInt? a).bind fun i => (asInt? b).map fun j => some (compare i j)

/-! ## Identity -/

/-- The numbers that there is only one object of. -/
def isSmall (i : Int) : Bool := -5 ≤ i && i ≤ 256

/-- The texts that there is only one object of. -/
def isShort (s : String) : Bool :=
  match s.toList with
  | [] => true
  | [c] => c.toNat < 256
  | _ => false

def isEmptyTuple (h : Heap) (pos : Nat) : Bool :=
  match h[pos]? with
  | some s => !s.isList && s.cells.isEmpty
  | Option.none => false

def same (h : Heap) : Value → Value → Bool
  | none, none => true
  | bool a, bool b => a == b
  | int a i, int b j => a == b && (i == j || isSmall a)
  | float a i, float b j => a == b && i == j
  | str a i, str b j => a == b && (i == j || isShort a)
  | seq a, seq b => a == b || (isEmptyTuple h a && isEmptyTuple h b)
  | function _ _ _ _ i, function _ _ _ _ j => i == j
  | closure _ _ i, closure _ _ j => i == j
  | tagged _ _ i, tagged _ _ j => i == j
  | proxiedTuple _ _ i, proxiedTuple _ _ j => i == j
  | proxiedList _ _ _ i, proxiedList _ _ _ j => i == j
  | other (.node .type [.str x] _) _, other (.node .type [.str y] _) _ => x == y
  | other _ i, other _ j => i == j
  | _, _ => false

/-! ## Equality -/

/-- Equality of values, where `inner` compares the sequences at two positions. Parts of a value are
also equal when they are one object. -/
def equalWith (h : Heap) (inner : Nat → Nat → Bool) : Value → Value → Bool
  | none, none => true
  | str a _, str b _ => a == b
  | seq a, seq b => inner a b
  | function _ _ _ _ i, function _ _ _ _ j => i == j
  | closure _ _ i, closure _ _ j => i == j
  | tagged a s _, tagged b t _ =>
    (same h a b || equalWith h inner a b) && (same h s t || equalWith h inner s t)
  | proxiedTuple a r _, proxiedTuple b s _ =>
    (same h a b || equalWith h inner a b) && (same h r s || equalWith h inner r s)
  | proxiedList a r w _, proxiedList b s x _ =>
    (same h a b || equalWith h inner a b) && (same h r s || equalWith h inner r s) &&
      (same h w x || equalWith h inner w x)
  | other t i, other u j => i == j || t.equal u
  | other t _, str s _ => t.equal (.str s)
  | str s _, other t _ => t.equal (.str s)
  | a, b => match compareNumbers a b with
    | some o => o == some .eq
    | Option.none => false

def equalSeq (h : Heap) : (fuel : Nat) → Nat → Nat → Bool
  | 0, _, _ => true
  | fuel + 1, a, b =>
    a == b || match h[a]?, h[b]? with
    | some s, some t =>
      s.isList == t.isList && s.cells.size == t.cells.size &&
        (s.cells.toList.zip t.cells.toList).all fun (x, y) =>
          same h x y || equalWith h (equalSeq h fuel) x y
    | _, _ => false

def equal (h : Heap) (a b : Value) : Bool :=
  equalWith h (equalSeq h (h.size * h.size + 1)) a b

/-! ## Order -/

def holds (op : CmpOp) (o : Option Ordering) : Bool :=
  match op, o with
  | .lt, some .lt => true
  | .le, some .lt | .le, some .eq => true
  | .gt, some .gt => true
  | .ge, some .gt | .ge, some .eq => true
  | _, _ => false

/-- Compare item by item: the first unequal pair decides, and then the lengths. -/
def orderedItems (equal : Value → Value → Bool) (ordered : Value → Value → Except Fault Bool)
    (op : CmpOp) : List Value → List Value → Except Fault Bool
  | [], ys => .ok (holds op (some (if ys.isEmpty then .eq else .lt)))
  | _ :: _, [] => .ok (holds op (some .gt))
  | x :: xs, y :: ys => if equal x y then orderedItems equal ordered op xs ys else ordered x y

def orderedWith (h : Heap) (op : CmpOp) : (fuel : Nat) → Value → Value → Except Fault Bool
  | 0, _, _ => .error .outOfFuel
  | fuel + 1, a, b =>
    match a, b with
    | str x _, str y _ => .ok (holds op (some (compare x y)))
    | seq i, seq j =>
      match h[i]?, h[j]? with
      | some s, some t =>
        if s.isList == t.isList then
          orderedItems (fun x y => same h x y || equal h x y) (orderedWith h op fuel) op
            s.cells.toList t.cells.toList
        else .error .wrongKind
      | _, _ => .error .wrongKind
    | _, _ => match compareNumbers a b with
      | some o => .ok (holds op o)
      | Option.none => .error .wrongKind

def ordered (h : Heap) (op : CmpOp) (a b : Value) : Except Fault Bool :=
  orderedWith h op (h.size + 2) a b

/-! ## Truth -/

def truthy (h : Heap) : Value → Bool
  | none => false
  | bool b => b
  | int i _ => i != 0
  | float d _ => d.significand != 0 || !d.isFinite
  | str s _ => !s.isEmpty
  | seq pos => match h[pos]? with
    | some s => s.cells.size != 0
    | Option.none => false
  | closure cells _ _ => truthy h cells
  | other (.dict es) _ => !es.isEmpty
  | other (.set xs) _ => !xs.isEmpty
  | _ => true

/-! ## Sequences -/

def len (h : Heap) : Value → Except Fault Nat
  | seq pos => match h[pos]? with
    | some s => .ok s.cells.size
    | Option.none => .error .wrongKind
  | str s _ => .ok s.length
  | closure cells _ _ => len h cells
  | other (.dict es) _ => .ok es.length
  | other (.set xs) _ => .ok xs.length
  | _ => .error .wrongKind

/-- A position, counted from the end when negative. -/
def position (size : Nat) (i : Int) : Except Fault Nat :=
  if 0 ≤ i then (if i < size then .ok i.toNat else .error .outOfRange)
  else if 0 ≤ i + size then .ok (i + size).toNat
  else .error .outOfRange

def itemOf (cells : Array Value) (index : Value) : Except Fault Value :=
  match asInt? index with
  | Option.none => .error .wrongKind
  | some i => do
    match cells[(← position cells.size i)]? with
    | some v => .ok v
    | Option.none => .error .outOfRange

def entry (h : Heap) (entries : List (Term × Term)) (key : Value) : Except Fault Value :=
  let k := key.toTerm h
  if k.hashable then
    match Term.get? entries k with
    | some (.scalar c) => .ok (ofLiteral c 0)
    | some t => .ok (other t 0)
    | Option.none => match key.dump h with
      | .ok s => .error (.missingKey s)
      | .error m => .error m.fault
  else .error .wrongKind

def item (h : Heap) (base index : Value) : Except Fault Value :=
  match base with
  | seq pos => match h[pos]? with
    | some s => itemOf s.cells index
    | Option.none => .error .wrongKind
  | str s _ => itemOf (s.toList.toArray.map fun c => str (String.singleton c) 0) index
  | closure cells _ _ => item h cells index
  | other (.dict es) _ => entry h es index
  | _ => .error .wrongKind

def setItem (h : Heap) (base index v : Value) : Except Fault Heap :=
  match base with
  | seq pos => match h[pos]? with
    | some s =>
      if s.isList then
        match asInt? index with
        | Option.none => .error .wrongKind
        | some i => do
          let p ← position s.cells.size i
          pure (h.set! pos { s with cells := s.cells.set! p v })
      else .error .wrongKind
    | Option.none => .error .wrongKind
  | closure cells _ _ => setItem h cells index v
  | _ => .error .wrongKind

/-! ## Arithmetic -/

def onInts (f : Int → Int → Int) (a b : Value) : Except Fault Int :=
  match asInt? a, asInt? b with
  | some i, some j => .ok (f i j)
  | _, _ => .error .wrongKind

def addWord (a b : Value) : Except Fault Int := onInts Word.add a b

def subWord (a b : Value) : Except Fault Int := onInts Word.sub a b

def mulWord (a b : Value) : Except Fault Int := onInts Word.mul a b

def negWord (a : Value) : Except Fault Int :=
  match asInt? a with
  | some i => .ok (Word.neg i)
  | Option.none => .error .wrongKind

/-- What an operation makes: a new object, or one that is there already. -/
inductive Made where
  | number (i : Int)
  | float (d : Text.Double)
  | text (s : String)
  | sequence (s : Sequence)
  | present (v : Value)

/-- Repetition of a list of items; a negative count gives none. -/
def repeatItems (n : Int) (xs : Array Value) : Array Value :=
  (List.range n.toNat).foldl (fun acc _ => acc ++ xs) #[]

def repeatCount (n : Int) : Except Fault Int :=
  if Word.inRange n then .ok n else .error .overflow

def toFloat : Value → Except Fault Float
  | float d _ => .ok d.toFloat
  | v => match asInt? v with
    | some i =>
      if i.natAbs < (1 <<< 1024) - (1 <<< 970) then .ok (Float.ofInt i) else .error .overflow
    | Option.none => .error .wrongKind

/-- The sequence at a position repeated. A tuple repeated once is the tuple itself. -/
def repeatSeq (h : Heap) (pos : Nat) (count : Value) : Except Fault Made :=
  match asInt? count, h[pos]? with
  | some n, some s => do
    let n ← repeatCount n
    if !s.isList && (n == 1 || s.cells.isEmpty) then pure (.present (seq pos))
    else pure (.sequence { s with cells := repeatItems n s.cells })
  | _, _ => .error .wrongKind

/-- A text repeated. A text repeated once is the text itself. -/
def repeatText (s : String) (id : Nat) (count : Value) : Except Fault Made :=
  match asInt? count with
  | some n => do
    let n ← repeatCount n
    if n == 1 then pure (.present (str s id))
    else pure (.text (String.join (List.replicate n.toNat s)))
  | Option.none => .error .wrongKind

/-- The product of two values: of numbers, or the repetition of a sequence or text. -/
def product (h : Heap) (a b : Value) : Except Fault Made :=
  match asInt? a, asInt? b with
  | some i, some j => .ok (.number (i * j))
  | _, _ =>
    match a, b with
    | seq pos, _ => repeatSeq h pos b
    | _, seq pos => repeatSeq h pos a
    | str s id, _ => repeatText s id b
    | _, str s id => repeatText s id a
    | float d _, _ => do pure (.float (.ofFloat (d.toFloat * (← toFloat b))))
    | _, float d _ => do pure (.float (.ofFloat ((← toFloat a) * d.toFloat)))
    | _, _ => .error .wrongKind

end CompilerKit.Value
