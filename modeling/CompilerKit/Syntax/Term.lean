import CompilerKit.Fault
import CompilerKit.Text.Double
import CompilerKit.Text.Charset
import CompilerKit.Syntax.Kind

/-!
# Labelled trees

The neutral form of programs, types, values and code: a node has a kind, fields in a fixed order,
and marks that analyses have put on it. A program of a language is read from such a tree, and a
part of it that fits no rule of the language stays a tree.
-/

namespace CompilerKit

/-!
## Literals

The atoms of programs and values, with their two written forms. A number is only written if it
has few enough digits.
-/

inductive Literal where
  | none
  | bool (b : Bool)
  | int (i : Int)
  | float (d : Text.Double)
  | str (s : String)
  deriving BEq, DecidableEq

def decimal (i : Int) : Except Fault String :=
  if i.natAbs < 100000000000000000000 then .ok (toString i)
  else
    let digits := toString i.natAbs
    if digits.length ≤ Text.maxDigits then .ok (if i < 0 then "-" ++ digits else digits)
    else .error .wrongValue

namespace Literal

def text : Literal → Except Fault String
  | none => .ok "None"
  | bool true => .ok "True"
  | bool false => .ok "False"
  | int i => decimal i
  | float d => .ok d.text
  | str s => .ok s

def dump : Literal → Except Fault String
  | str s => .ok (Text.quote s)
  | c => c.text

def asInt? : Literal → Option Int
  | int i => some i
  | bool b => some (if b then 1 else 0)
  | _ => Option.none

def equal (a b : Literal) : Bool :=
  match a, b with
  | none, none => true
  | str x, str y => x == y
  | float x, float y => x.compareDouble y == some .eq
  | float x, b => match b.asInt? with
    | some j => x.compareInt j == some .eq
    | Option.none => false
  | a, float y => match a.asInt? with
    | some i => y.compareInt i == some .eq
    | Option.none => false
  | a, b => match a.asInt?, b.asInt? with
    | some i, some j => i == j
    | _, _ => false

end Literal

/-- What analyses have put on a node, and the number that tells the node from others. -/
structure Marks (α : Type) where
  type : Option α := none
  erased : Option α := none
  types : Option α := none
  id : Nat := 0

inductive Term where
  | scalar (c : Literal)
  | list (items : List Term)
  | tuple (items : List Term)
  | dict (entries : List (Term × Term))
  | set (items : List Term)
  | node (kind : Kind) (fields : List Term) (marks : Marks Term)
  /-- A container that is being written further out, and what is written in its place. -/
  | cycle (shown : String)

namespace Term

@[match_pattern] abbrev null : Term := scalar .none

@[match_pattern] abbrev str (s : String) : Term := scalar (.str s)

@[match_pattern] abbrev int (i : Int) : Term := scalar (.int i)

@[match_pattern] abbrev bool (b : Bool) : Term := scalar (.bool b)

def leaf (kind : Kind) (fields : List Term) : Term := node kind fields {}

def ofRecord (r : Record) (fields : List Term) : Term := node (.record r) fields {}

def strs (ss : List String) : Term := list (ss.map str)

def str? : Term → Option String
  | str s => some s
  | node .token [_, str s] _ => some s
  | _ => none

def truthy : Term → Bool
  | null => false
  | bool b => b
  | int i => i != 0
  | scalar (.float d) => d.significand != 0 || !d.isFinite
  | str s => !s.isEmpty
  | list xs | tuple xs | set xs => !xs.isEmpty
  | dict es => !es.isEmpty
  | node .token [_, str s] _ => !s.isEmpty
  | node .closureTuple (cells :: _) _ => cells.truthy
  | node _ _ _ => true
  | cycle _ => true

/-! ## Equality -/

/-- Nodes of the kind are equal when their fields are. Other nodes are objects of their own, equal
to nothing else. -/
def comparable : Kind → Bool
  | .name | .type | .tree => true
  | .record r => !r.isInstr
  | _ => false

mutual

def equal : Term → Term → Bool
  | scalar a, scalar b => a.equal b
  | list xs, list ys => equals xs ys
  | tuple xs, tuple ys => equals xs ys
  | set xs, set ys => equals xs ys
  | dict xs, dict ys => xs.length == ys.length && entriesIn xs ys
  | node .token [k, str s] _, node .token [l, str t] _ => equal k l && s == t
  | node .token [_, str s] _, str t => s == t
  | str s, node .token [_, str t] _ => s == t
  | node k xs m, node l ys n =>
    if comparable k then k == l && equals xs ys else m.id != 0 && m.id == n.id
  | _, _ => false

def equals : List Term → List Term → Bool
  | [], [] => true
  | x :: xs, y :: ys => equal x y && equals xs ys
  | _, _ => false

def entriesIn : List (Term × Term) → List (Term × Term) → Bool
  | [], _ => true
  | (k, v) :: rest, ys => (ys.any fun (l, w) => equal k l && equal v w) && entriesIn rest ys

end

instance : BEq Term := ⟨equal⟩

/-! ## Tables -/

mutual

def hashable : Term → Bool
  | scalar _ => true
  | tuple xs => hashables xs
  | node .name fs _ => hashables fs
  | node .tree [d, list cs] _ => hashable d && hashables cs
  | node (.record r) fs _ => r.isInstr || (r.isOperand && hashables fs)
  | node _ _ _ => true
  | _ => false

def hashables : List Term → Bool
  | [] => true
  | t :: ts => hashable t && hashables ts

end

def get? (entries : List (Term × Term)) (k : Term) : Option Term :=
  (entries.find? fun e => e.1.equal k).map (·.2)

/-- Give a key a value. A key that is there already stays as it is. -/
def put : List (Term × Term) → Term → Term → List (Term × Term)
  | [], k, v => [(k, v)]
  | (l, w) :: rest, k, v => if l.equal k then (l, v) :: rest else (l, w) :: put rest k v

def tableOf (entries : List (Term × Term)) : Except Fault (List (Term × Term)) :=
  if entries.all fun e => e.1.hashable then .ok (entries.foldl (fun t (k, v) => put t k v) [])
  else .error .wrongKind

/-! ## Parts -/

/-- The parts of what can be iterated: the items of a sequence, the keys of a table, the characters
of a text. -/
def items? : Term → Option (List Term)
  | list xs | tuple xs | set xs => some xs
  | dict es => some (es.map (·.1))
  | t => t.str?.map fun s => s.toList.map fun c => str (String.singleton c)

def fields? : Term → Option (List Term)
  | list xs | tuple xs => some xs
  | _ => none

def items (t : Term) : Except Fault (List Term) :=
  match t.items? with
  | some xs => .ok xs
  | none => .error .wrongKind

def pair (t : Term) : Except Fault (Term × Term) := do
  match ← t.items with
  | [a, b] => .ok (a, b)
  | _ => .error .wrongValue

def item (t : Term) (i : Nat) : Except Fault Term :=
  match t with
  | dict es => match get? es (int i) with
    | some v => .ok v
    | none => .error (.missingKey (toString i))
  | set _ => .error .wrongKind
  | t => do
    match (← t.items)[i]? with
    | some x => .ok x
    | none => .error .outOfRange

def field? (name : String) : Term → Option Term
  | node k fs _ => (k.fieldNames.zip fs).lookup name
  | _ => none

def setField (name : String) (v : Term) : Term → Term
  | node k fs m => node k ((k.fieldNames.zip fs).map fun (x, f) => if x == name then v else f) m
  | t => t

/-! ## Acceptance -/

/-- Number the nodes of a tree and make its tables. The operands of an instruction become a
tuple. -/
def acceptNode (kind : Kind) (fields : List Term) (marks : Marks Term) :
    StateT Nat (Except Fault) Term := do
  let n ← getModify (· + 1)
  match kind, fields with
  | .record .instr, [x, args] => do
    pure (node kind [x, tuple (← liftM args.items)] { marks with id := n })
  | _, _ => pure (node kind fields { marks with id := n })

mutual

def accept : Term → StateT Nat (Except Fault) Term
  | scalar c => pure (scalar c)
  | list xs => do pure (list (← accepts xs))
  | tuple xs => do pure (tuple (← accepts xs))
  | set xs => do pure (set (← accepts xs))
  | dict es => do
    let es ← acceptEntries es
    pure (dict (← liftM (tableOf es)))
  | node k fs ⟨t, e, ts, _⟩ => do
    acceptNode k (← accepts fs) ⟨← acceptOption t, ← acceptOption e, ← acceptOption ts, 0⟩
  | cycle s => pure (cycle s)

def accepts : List Term → StateT Nat (Except Fault) (List Term)
  | [] => pure []
  | t :: ts => do
    pure ((← accept t) :: (← accepts ts))

def acceptEntries : List (Term × Term) → StateT Nat (Except Fault) (List (Term × Term))
  | [] => pure []
  | (k, v) :: rest => do
    pure ((← accept k, ← accept v) :: (← acceptEntries rest))

def acceptOption : Option Term → StateT Nat (Except Fault) (Option Term)
  | none => pure none
  | some t => do
    pure (some (← accept t))

end

end Term

end CompilerKit
