import CompilerKit.Syntax.Text

/-!
# Programs

One syntax for the whole family of languages: the source languages, the languages of blocks that
programs are lowered to, and the forms that the passes in between introduce. Which forms belong to
a language is decided by its interpreter and its type checker. What is no form of any language
stays the tree that it was given as.

* `Expr`, `Stmt`: expressions and statements. Each carries a `Note` with what a type checker
  recorded about it.
-/

namespace CompilerKit

/-!
## Types

The types of all languages of the family, and the trees that they are written as. A tree that is
no type may stand where a type belongs; it is kept as it is.
-/

/-- The built-in types that a type hint may name directly. -/
inductive HostType where
  | int
  | bool
  | none
  deriving BEq

namespace HostType

def name : HostType → String
  | int => "int"
  | bool => "bool"
  | none => "NoneType"

def ofName? : String → Option HostType
  | "int" => some int
  | "bool" => some bool
  | "NoneType" => some none
  | _ => Option.none

end HostType

/-- Types of the source and intermediate languages. The parts of a type come in a list, or in a
tuple, which makes it another type. -/
inductive Ty where
  | int
  | bool
  | void
  /-- The type of what never yields a value. -/
  | bottom
  | any
  | tuple (parts : List Ty) (isTuple : Bool := false)
  | list (part : Ty)
  | function (params : List Ty) (result : Ty) (isTuple : Bool := false)
  | generic (name : String)
  | all (names : List String) (body : Ty) (isTuple : Bool := false)
  | proxyOrTuple (parts : List Ty) (isTuple : Bool := false)
  | proxyOrList (part : Ty)
  | host (type : HostType)
  /-- Something else standing where a type belongs. -/
  | other (t : Term)

/-- Types by variable, in the order in which the variables were first bound. -/
abbrev TypeTable := List (String × Ty)

namespace Ty

@[match_pattern] abbrev absent : Ty := other .null

mutual

def equal : Ty → Ty → Bool
  | int, int | bool, bool | void, void | bottom, bottom | any, any => true
  | tuple ps b, tuple qs c => equals ps qs && b == c
  | list p, list q => equal p q
  | function ps r b, function qs s c => equals ps qs && equal r s && b == c
  | generic x, generic y => x == y
  | all xs p b, all ys q c => xs == ys && equal p q && b == c
  | proxyOrTuple ps b, proxyOrTuple qs c => equals ps qs && b == c
  | proxyOrList p, proxyOrList q => equal p q
  | host a, host b => a == b
  | other a, other b => a.equal b
  | _, _ => false

def equals : List Ty → List Ty → Bool
  | [], [] => true
  | p :: ps, q :: qs => equal p q && equals ps qs
  | _, _ => false

end

instance : BEq Ty := ⟨equal⟩

def sequence (isTuple : Bool) (ts : List Term) : Term := if isTuple then .tuple ts else .list ts

mutual

def toTerm : Ty → Term
  | int => .ofRecord .intType []
  | bool => .ofRecord .boolType []
  | void => .ofRecord .voidType []
  | bottom => .ofRecord .bottom []
  | any => .ofRecord .anyType []
  | tuple ts b => .ofRecord .tupleType [sequence b (toTerms ts)]
  | list t => .ofRecord .listType [toTerm t]
  | function ps r b => .ofRecord .functionType [sequence b (toTerms ps), toTerm r]
  | generic x => .ofRecord .genericVar [.str x]
  | all xs t b => .ofRecord .allType [sequence b (xs.map .str), toTerm t]
  | proxyOrTuple ts b => .ofRecord .proxyOrTupleType [sequence b (toTerms ts)]
  | proxyOrList t => .ofRecord .proxyOrListType [toTerm t]
  | host h => .leaf .type [.str h.name]
  | other t => t

def toTerms : List Ty → List Term
  | [] => []
  | t :: ts => toTerm t :: toTerms ts

end

def names? : List Term → Option (List String)
  | [] => some []
  | .str x :: ts => (names? ts).map (x :: ·)
  | _ :: _ => none

mutual

def ofTerm : Term → Ty
  | .node (.record .intType) [] _ => int
  | .node (.record .boolType) [] _ => bool
  | .node (.record .voidType) [] _ => void
  | .node (.record .bottom) [] _ => bottom
  | .node (.record .anyType) [] _ => any
  | .node (.record .tupleType) [.list ts] _ => tuple (ofTerms ts) false
  | .node (.record .tupleType) [.tuple ts] _ => tuple (ofTerms ts) true
  | .node (.record .listType) [t] _ => list (ofTerm t)
  | .node (.record .functionType) [.list ps, r] _ => function (ofTerms ps) (ofTerm r) false
  | .node (.record .functionType) [.tuple ps, r] _ => function (ofTerms ps) (ofTerm r) true
  | .node (.record .genericVar) [.str x] _ => generic x
  | .node (.record .allType) [.list xs, t] m => match names? xs with
    | some ys => all ys (ofTerm t) false
    | none => other (.node (.record .allType) [.list xs, t] m)
  | .node (.record .allType) [.tuple xs, t] m => match names? xs with
    | some ys => all ys (ofTerm t) true
    | none => other (.node (.record .allType) [.tuple xs, t] m)
  | .node (.record .proxyOrTupleType) [.list ts] _ => proxyOrTuple (ofTerms ts) false
  | .node (.record .proxyOrTupleType) [.tuple ts] _ => proxyOrTuple (ofTerms ts) true
  | .node (.record .proxyOrListType) [t] _ => proxyOrList (ofTerm t)
  | .node .type [.str x] m => match HostType.ofName? x with
    | some h => host h
    | none => other (.node .type [.str x] m)
  | t => other t

def ofTerms : List Term → List Ty
  | [] => []
  | t :: ts => ofTerm t :: ofTerms ts

end

def head? (t : Ty) : Option Record :=
  match t.toTerm with
  | .node (.record r) _ _ => some r
  | _ => none

def text (t : Ty) : Printed := t.toTerm.text baseIndent

def dump (t : Ty) : Printed := t.toTerm.dump baseIndent

end Ty

namespace TypeTable

def toTerm (ts : TypeTable) : Term := .dict (ts.map fun (x, t) => (.str x, t.toTerm))

def pairs (ts : TypeTable) : Term := .list (ts.map fun (x, t) => .tuple [.str x, t.toTerm])

def ofEntries? : List (Term × Term) → Option TypeTable
  | [] => some []
  | (.str x, t) :: rest => (ofEntries? rest).map ((x, .ofTerm t) :: ·)
  | _ :: _ => none

def ofPairs? : List Term → Option TypeTable
  | [] => some []
  | .tuple [.str x, t] :: rest => (ofPairs? rest).map ((x, .ofTerm t) :: ·)
  | _ :: _ => none

end TypeTable

/-- What is known about a part of a program apart from its form. -/
structure Note where
  type : Option Ty := none
  /-- The type under which closures of different shapes are compatible. -/
  erased : Option Ty := none
  types : Option Term := none
  /-- The positions of the fields that were given as tuples where lists are usual. -/
  tuples : List Nat := []
  id : Nat := 0

structure Param where
  name : String
  hint : Ty
  note : Note := {}

/-- The parameters of a function: as written, as names with types, as names only, or something
else. -/
inductive Params where
  | signature (ps : List Param) (note : Note)
  | typed (ps : TypeTable)
  | names (xs : List String)
  | other (t : Term)

mutual

inductive Expr where
  | name (id : String) (note : Note)
  | const (value : Value) (note : Note)
  | arith (left : Expr) (op : ArithOp) (right : Expr) (note : Note)
  | logic (op : LogicOp) (operands : List Expr) (note : Note)
  | unary (op : UnaryOp) (operand : Expr) (note : Note)
  | call (callee : Expr) (args : List Expr) (note : Note)
  | cond (test yes no : Expr) (note : Note)
  | compare (left : Expr) (ops : List CmpOp) (others : List Expr) (note : Note)
  | tuple (parts : List Expr) (access : Access) (note : Note)
  | list (parts : List Expr) (access : Access) (note : Note)
  | subscript (base index : Expr) (access : Access) (note : Note)
  | lambda (params : Params) (body : Expr) (note : Note)
  | cast (body : Expr) (source target : Ty) (note : Note)
  | annLambda (params : Params) (result : Ty) (body : Expr) (note : Note)
  | inst (generic : Expr) (types : TypeTable) (note : Note)
  | uninitialized (type : Ty) (note : Note)
  | allocate (length : Term) (type : Ty) (note : Note)
  | allocateArray (length : Term) (type : Ty) (note : Note)
  | allocateClosure (length : Term) (type : Ty) (arity : Term) (note : Note)
  | uncheckedCast (body : Expr) (type : Ty) (note : Note)
  | block (body : List Stmt) (result : Expr) (note : Note)
  | global (id : Term) (note : Note)
  | funRef (id : String) (arity : Term) (note : Note)
  | closure (arity : Term) (parts : List Expr) (note : Note)
  | inject (body : Expr) (type : Ty) (note : Note)
  | project (body : Expr) (type : Ty) (note : Note)
  | tagOf (body : Expr) (note : Note)
  | valueOf (body : Expr) (type : Ty) (note : Note)
  | tupleProxy (body reads : Expr) (source target : Ty) (note : Note)
  | rawTuple (parts : List Expr) (note : Note)
  | listProxy (body read write : Expr) (source target : Ty) (note : Note)
  | injectTuple (body : Expr) (note : Note)
  | injectTupleProxy (body : Expr) (type : Ty) (note : Note)
  | injectList (body : Expr) (note : Note)
  | injectListProxy (body : Expr) (type : Ty) (note : Note)
  | embedded (value : Value) (note : Note)
  | other (t : Term)

inductive Stmt where
  | expr (value : Expr) (note : Note)
  | pass (note : Note)
  | assign (targets : List Expr) (value : Expr) (note : Note)
  | annAssign (target : Expr) (hint : Ty) (value : Expr) (simple : Term) (note : Note)
  | ret (value : Expr) (note : Note)
  | ite (test : Expr) (yes no : List Stmt) (note : Note)
  | loop (test : Expr) (body no : List Stmt) (note : Note)
  | fundef (name : String) (params : Params) (body : Body) (decorators : Term) (result : Ty)
      (comment : Term) (note : Note)
  | importFrom (note : Note)
  | goto (label : String) (note : Note)
  | collect (size : Term) (note : Note)
  | tailCall (callee : Expr) (args : List Expr) (note : Note)
  | other (t : Term)

/-- The body of a function: statements, blocks with labels, or something else. -/
inductive Body where
  | stmts (ss : List Stmt)
  | blocks (bs : List Block)
  | other (t : Term)

inductive Block where
  | mk (label : String) (code : List Stmt)

/-- Values. Sequences and environments live in the store and are named by their position there.
Other values carry a number that tells objects of equal contents apart. -/
inductive Value where
  | none
  | bool (b : Bool)
  | int (i : Int) (id : Nat)
  | float (d : Text.Double) (id : Nat)
  | str (s : String) (id : Nat)
  | seq (pos : Nat)
  | function (name : String) (params : Params) (body : Body) (env : Nat) (id : Nat)
  | closure (cells : Value) (arity : Value) (id : Nat)
  | tagged (payload tag : Value) (id : Nat)
  | proxiedTuple (base reads : Value) (id : Nat)
  | proxiedList (base read write : Value) (id : Nat)
  | other (t : Term) (id : Nat)

end

instance : Inhabited Expr := ⟨.other .null⟩
instance : Inhabited Stmt := ⟨.other .null⟩
instance : Inhabited Value := ⟨.none⟩
instance : Inhabited Body := ⟨.other .null⟩

/-- Whole programs: statements, labelled blocks, function definitions over blocks, or something
else. -/
inductive Program where
  | module (body : List Stmt) (note : Note)
  | blocks (body : List Block) (note : Note)
  | defs (defs : List Stmt) (note : Note)
  | other (t : Term)

instance : Inhabited Program := ⟨.other .null⟩

namespace Block

def label : Block → String
  | mk l _ => l

def code : Block → List Stmt
  | mk _ c => c

end Block

namespace Expr

def note : Expr → Note
  | name _ n | const _ n | arith _ _ _ n | logic _ _ n | unary _ _ n | call _ _ n | cond _ _ _ n
  | compare _ _ _ n | tuple _ _ n | list _ _ n | subscript _ _ _ n | lambda _ _ n
  | cast _ _ _ n | annLambda _ _ _ n | inst _ _ n | uninitialized _ n | allocate _ _ n
  | allocateArray _ _ n | allocateClosure _ _ _ n | uncheckedCast _ _ n | block _ _ n | global _ n
  | funRef _ _ n | closure _ _ n | inject _ _ n | project _ _ n | tagOf _ n | valueOf _ _ n
  | tupleProxy _ _ _ _ n | rawTuple _ n | listProxy _ _ _ _ _ n | injectTuple _ n
  | injectTupleProxy _ _ n | injectList _ n | injectListProxy _ _ n | embedded _ n => n
  | other _ => {}

def withNote (n : Note) : Expr → Expr
  | name x _ => name x n
  | const c _ => const c n
  | arith l op r _ => arith l op r n
  | logic op es _ => logic op es n
  | unary op e _ => unary op e n
  | call f es _ => call f es n
  | cond t y o _ => cond t y o n
  | compare l ops rs _ => compare l ops rs n
  | tuple es a _ => tuple es a n
  | list es a _ => list es a n
  | subscript b i a _ => subscript b i a n
  | lambda ps b _ => lambda ps b n
  | cast b s t _ => cast b s t n
  | annLambda ps r b _ => annLambda ps r b n
  | inst g ts _ => inst g ts n
  | uninitialized t _ => uninitialized t n
  | allocate l t _ => allocate l t n
  | allocateArray l t _ => allocateArray l t n
  | allocateClosure l t a _ => allocateClosure l t a n
  | uncheckedCast b t _ => uncheckedCast b t n
  | block ss e _ => block ss e n
  | global x _ => global x n
  | funRef x a _ => funRef x a n
  | closure a es _ => closure a es n
  | inject b t _ => inject b t n
  | project b t _ => project b t n
  | tagOf b _ => tagOf b n
  | valueOf b t _ => valueOf b t n
  | tupleProxy b r s t _ => tupleProxy b r s t n
  | rawTuple es _ => rawTuple es n
  | listProxy b r w s t _ => listProxy b r w s t n
  | injectTuple b _ => injectTuple b n
  | injectTupleProxy b t _ => injectTupleProxy b t n
  | injectList b _ => injectList b n
  | injectListProxy b t _ => injectListProxy b t n
  | embedded v _ => embedded v n
  | other t => other t

def withType (t : Ty) (e : Expr) : Expr :=
  e.withNote { e.note with type := some t }

end Expr

def findBlock? (bs : List Block) (label : String) : Option (List Stmt) :=
  (bs.find? fun b => b.label == label).map Block.code

/-!
## Notes and parameters as trees

Parameters come as declarations with hints, as pairs of names and types, or as names. A function
is applied by pairing what its parameters iterate to with the arguments.
-/

namespace Note

def marks (n : Note) : Marks Term :=
  { type := n.type.map Ty.toTerm, erased := n.erased.map Ty.toTerm, types := n.types, id := n.id }

def ofMarks (m : Marks Term) (tuples : List (Nat × Bool)) : Note :=
  { type := m.type.map Ty.ofTerm
    erased := m.erased.map Ty.ofTerm
    types := m.types
    tuples := (tuples.filter (·.2)).map (·.1)
    id := m.id }

def sequence (n : Note) (i : Nat) (items : List Term) : Term :=
  if n.tuples.contains i then .tuple items else .list items

end Note

namespace Param

def toTerm (p : Param) : Term := .node .arg [.str p.name, p.hint.toTerm] p.note.marks

end Param

namespace Params

def toTerm : Params → Term
  | signature ps n => .node .arguments [n.sequence 0 (ps.map Param.toTerm)] n.marks
  | typed ps => ps.pairs
  | names xs => .strs xs
  | other t => t

def declarations? : List Term → Option (List Param)
  | [] => some []
  | .node .arg [.str x, a] m :: ts =>
    (declarations? ts).map ({ name := x, hint := .ofTerm a, note := .ofMarks m [] } :: ·)
  | _ :: _ => none

def ofItems (ts : List Term) : Params :=
  match Ty.names? ts with
  | some xs => names xs
  | none => match TypeTable.ofPairs? ts with
    | some ps => typed ps
    | none => other (.list ts)

def ofTerm : Term → Params
  | .node .arguments [.list ts] m => match declarations? ts with
    | some ps => signature ps (.ofMarks m [])
    | none => other (.node .arguments [.list ts] m)
  | .node .arguments [.tuple ts] m => match declarations? ts with
    | some ps => signature ps (.ofMarks m [(0, true)])
    | none => other (.node .arguments [.tuple ts] m)
  | .list ts => ofItems ts
  | t => other t

/-! ## Application -/

def keys : Params → Except Fault (List Term)
  | names xs => .ok (xs.map .str)
  | typed ps => .ok (ps.map fun (x, t) => .tuple [.str x, t.toTerm])
  | signature _ _ => .error .wrongKind
  | other t => t.items

def count : Params → Except Fault Nat
  | names xs => .ok xs.length
  | typed ps => .ok ps.length
  | signature _ _ => .error .wrongKind
  | other t => do .ok (← t.items).length

def twoCharacters (x : String) : Except Fault (Term × Ty) :=
  match x.toList with
  | [a, b] => .ok (.str (String.singleton a), .other (.str (String.singleton b)))
  | _ => .error .wrongValue

def pairs : Params → Except Fault (List (Term × Ty))
  | typed ps => .ok (ps.map fun (x, t) => (.str x, t))
  | names xs => xs.mapM twoCharacters
  | signature _ _ => .error .wrongKind
  | other t => do
    .ok ((← (← t.items).mapM Term.pair).map fun (x, t) => (x, .ofTerm t))

def firsts : Params → Except Fault Params
  | typed ps => .ok (names (ps.map (·.1)))
  | ps => do .ok (ofItems ((← ps.pairs).map (·.1)))

def declaredName : Term → Except Fault Term
  | .node .arg (x :: _) _ => .ok x
  | _ => .error .missingPart

def declared : Params → Except Fault Params
  | signature ps _ => .ok (names (ps.map Param.name))
  | other (.node .arguments [f] _) => do .ok (ofItems (← (← f.items).mapM declaredName))
  | ps => ps.firsts

end Params

/-!
## Sequences

Lists and tuples are shared and lists can be changed, so they live in a heap and a value holds
their position.
-/

/-- A sequence in the heap. Lists can be written to, tuples cannot. -/
structure Sequence where
  isList : Bool
  cells : Array Value

abbrev Heap := Array Sequence

end CompilerKit
