import CompilerKit.Syntax.Tree
import CompilerKit.Bindings

/-!
# Type systems

The type systems of the family. Those of the source languages form a chain in which each adds rules
to the one before; the last of the chain are alternatives to each other. The systems of the block
languages form a chain of their own.
-/

namespace CompilerKit

inductive TypeSystem where
  | vars
  | conditionals
  | loops
  | tuples
  | arrays
  | functions
  | lambdas
  | anys
  | casts
  | proxies
  | generics
  | gradual
  | conditionalBlocks
  | tupleBlocks
  | arrayBlocks
  | functionBlocks
  | lambdaBlocks
  | anyBlocks
  | proxyBlocks
  deriving BEq

namespace TypeSystem

def level : TypeSystem → Nat
  | vars => 1
  | conditionals | conditionalBlocks => 2
  | loops => 3
  | tuples | tupleBlocks => 4
  | arrays | arrayBlocks => 5
  | functions | functionBlocks => 6
  | lambdas | lambdaBlocks | casts | generics | gradual => 7
  | anys | anyBlocks => 8
  | proxies | proxyBlocks => 10

def hasConditionals (c : TypeSystem) : Bool := 2 ≤ c.level

def hasLoops (c : TypeSystem) : Bool := 3 ≤ c.level

def hasTuples (c : TypeSystem) : Bool := 4 ≤ c.level

def hasArrays (c : TypeSystem) : Bool := 5 ≤ c.level

def hasFunctions (c : TypeSystem) : Bool := 6 ≤ c.level

def hasLambdas (c : TypeSystem) : Bool := 7 ≤ c.level

def hasTags (c : TypeSystem) : Bool := 8 ≤ c.level

def hasProxies (c : TypeSystem) : Bool := 10 ≤ c.level

end TypeSystem

inductive Culprit where
  | expr (e : Expr)
  | stmt (s : Stmt)
  | stmts (ss : List Stmt)
  | value (v : Value)
  | program (p : Program)
  | term (t : Term)

inductive CheckError where
  | fault (f : Fault)
  | mismatch (a b : Ty) (place : Culprit)
  | inconsistent (a b : Ty) (place : Culprit)
  | unexpected (rule : String) (place : Culprit)
  | unusable (rule : String) (t : Ty)
  | told (message : Heap → Printed)

abbrev Check := StateT TypeTable (Except CheckError)

namespace Culprit

def dump (h : Heap) : Culprit → Printed
  | expr e => e.dump h baseIndent
  | stmt s => s.dump h baseIndent
  | stmts ss => (Term.list (ss.map (Stmt.toTerm h))).dump baseIndent
  | value v => v.dump h
  | program p => p.dump h baseIndent
  | term t => t.dump baseIndent

end Culprit

namespace CheckError

def toFault (h : Heap) : CheckError → Fault
  | fault f => f
  | mismatch a b place => failureOf do
    .ok ("error: " ++ (← a.dump) ++ " != " ++ (← b.dump) ++ " in " ++ (← place.dump h))
  | inconsistent a b place => failureOf do
    let s ← a.dump
    .ok ("error: " ++ s ++ " inconsistent with " ++ (← b.dump) ++ " in " ++ (← place.dump h))
  | unexpected rule place => failureOf do .ok (rule ++ (← place.dump h))
  | unusable rule t => failureOf do .ok (rule ++ (← t.dump))
  | told message => failureOf (message h)

def ofText (rule : String) (t : Ty) : CheckError :=
  .told fun _ => do .ok (rule ++ (← t.text))

end CheckError

namespace Check

def refuse {α : Type} (e : CheckError) : Check α := throw e

def stop {α : Type} (f : Fault) : Check α := throw (.fault f)

def tell {α : Type} (message : Heap → Printed) : Check α := throw (.told message)

def ofExcept {α : Type} : Except Fault α → Check α
  | .ok a => pure a
  | .error f => stop f

def find? (x : String) : Check (Option Ty) := do
  pure (Bindings.get? (← get) x)

def lookup (x : String) : Check Ty := do
  match ← find? x with
  | some t => pure t
  | none => stop (.missingKey (Text.quote x))

def bind (x : String) (t : Ty) : Check Unit := modify fun env => Bindings.put env x t

/-- Check in a scope of its own, with more variables; the scope ends with the computation. -/
def inScope {α : Type} (more : TypeTable) (m : Check α) : Check α := do
  let env ← get
  set (Bindings.putAll env more)
  let a ← m
  set env
  pure a

/-- The variables among what is bound to types. Other keys of a table cannot be looked up. -/
def scope : List (Term × Ty) → Except Fault TypeTable
  | [] => .ok []
  | (.str x, t) :: rest => do .ok ((x, t) :: (← scope rest))
  | (k, _) :: rest => if k.hashable then scope rest else .error .wrongKind

def unbound {α : Type} (x : Term) : Check α :=
  if x.hashable then
    match x.dump baseIndent with
    | .ok s => stop (.missingKey s)
    | .error m => stop m.fault
  else stop .wrongKind

def typeAt (ts : List Ty) (i : Int) : Check Ty :=
  let p := if 0 ≤ i then i else i + ts.length
  if 0 ≤ p then
    match ts[p.toNat]? with
    | some t => pure t
    | none => stop .outOfRange
  else stop .outOfRange

def typeAtValue (ts : List Ty) : Value → Check Ty
  | .int i _ => typeAt ts i
  | .bool b => typeAt ts (if b then 1 else 0)
  | _ => stop .wrongKind

end Check

end CompilerKit

namespace CompilerKit.Ty

/-! ## Relations between types -/

/-! ## Gradual types -/

mutual

/-- The types agree wherever neither is unknown. -/
def consistent : Ty → Ty → Bool
  | any, _ => true
  | _, any => true
  | function ps r _, function qs s _ => consistents ps qs && consistent r s
  | tuple ps _, tuple qs _ => consistents ps qs
  | list p, list q => consistent p q
  | s, t => s == t

def consistents : List Ty → List Ty → Bool
  | p :: ps, q :: qs => consistent p q && consistents ps qs
  | _, _ => true

end

mutual

/-- The type that is known wherever one of the two is. -/
def join : Ty → Ty → Ty
  | any, t => t
  | t, any => t
  | function ps r _, function qs s _ => function (joins ps qs) (join r s)
  | tuple ps _, tuple qs _ => tuple (joins ps qs)
  | list p, list q => list (join p q)
  | s, _ => s

def joins : List Ty → List Ty → List Ty
  | p :: ps, q :: qs => join p q :: joins ps qs
  | _, _ => []

end

/-! ## Generic types -/

def union (xs ys : List String) : List String := xs ++ ys.filter fun y => !xs.contains y

mutual

def genericVariables : Ty → Except CheckError (List String)
  | generic x => .ok [x]
  | all ps t _ => do pure ((← genericVariables t).filter fun x => !ps.contains x)
  | tuple ts _ => genericVariablesOf ts
  | list t => genericVariables t
  | function ps r _ => do pure (union (← genericVariablesOf ps) (← genericVariables r))
  | int => .ok []
  | bool => .ok []
  | t => .error (.unusable "generic_variables: unexpected " t)

def genericVariablesOf : List Ty → Except CheckError (List String)
  | [] => .ok []
  | t :: ts => do pure (union (← genericVariables t) (← genericVariablesOf ts))

end

mutual

def substitute (m : TypeTable) : Ty → Except CheckError Ty
  | generic x => match Bindings.get? m x with
    | some t => .ok t
    | none => .error (.fault (.missingKey (Text.quote x)))
  | all ps t b => do
    pure (all ps (← substitute (Bindings.putAll m (ps.map fun p => (p, generic p))) t) b)
  | tuple ts _ => do pure (tuple (← substitutes m ts))
  | list t => do pure (list (← substitute m t))
  | function ps r _ => do pure (function (← substitutes m ps) (← substitute m r))
  | int => .ok int
  | bool => .ok bool
  | t => .error (.unusable "substitute_type: unexpected " t)

def substitutes (m : TypeTable) : List Ty → Except CheckError (List Ty)
  | [] => .ok []
  | t :: ts => do pure ((← substitute m t) :: (← substitutes m ts))

end

/-! ## Equality -/

section Equate

variable (c : TypeSystem) (place : Culprit)

/-- The type system lets the type of what never yields a value stand for every type. -/
def forgivesBottom (c : TypeSystem) : Bool :=
  c.hasFunctions || c == .conditionalBlocks || c == .tupleBlocks || c == .arrayBlocks

/-- The type system compares the results of functions with each of their parameters. -/
def resultPerParam (c : TypeSystem) : Bool :=
  c == .functionBlocks || c == .lambdaBlocks || c == .anyBlocks || c == .proxyBlocks

mutual

def equate (s t : Ty) : Except CheckError Unit :=
  if forgivesBottom c && (s == bottom || t == bottom) then .ok ()
  else
    let refuse : Except CheckError Unit := .error (.mismatch s t place)
    match s with
    | all ps a _ =>
      match t with
      | all qs b _ =>
        if c == .generics then do
          let b ← substitute (Bindings.putAll [] ((qs.zip ps).map fun (q, p) => (q, generic p))) b
          equate a b
        else if s == t then .ok () else refuse
      | _ => refuse
    | tuple ps _ =>
      if c.hasTuples then
        match t with
        | tuple qs _ => equates ps qs
        | _ => refuse
      else if s == t then .ok () else refuse
    | list p =>
      if c.hasArrays then
        match t with
        | list q => equate p q
        | _ => refuse
      else if s == t then .ok () else refuse
    | function ps r _ =>
      if c.hasFunctions then
        match t with
        | function qs r' _ =>
          if resultPerParam c then
            match ps, qs with
            | [], _ => .ok ()
            | _, [] => .ok ()
            | p :: ps, q :: qs => do
              equate p q
              equate r r'
              equates ps qs
          else do
            equates ps qs
            equate r r'
        | _ => refuse
      else if s == t then .ok () else refuse
    | proxyOrList p =>
      if c.hasProxies then
        match t with
        | proxyOrList q => equate p q
        | _ => refuse
      else if s == t then .ok () else refuse
    | proxyOrTuple ps _ =>
      if c.hasProxies then
        match t with
        | proxyOrTuple qs _ => equates ps qs
        | _ => refuse
      else if s == t then .ok () else refuse
    | _ => if s == t then .ok () else refuse

def equates : List Ty → List Ty → Except CheckError Unit
  | p :: ps, q :: qs => do
    equate p q
    equates ps qs
  | _, _ => .ok ()

end

end Equate

/-! ## Matching -/

section Match

variable (place : Culprit)

mutual

/-- Match the type of a parameter with the type of an argument and extend the table of deduced
types. -/
def matchTypes (deduced : TypeTable) : Ty → Ty → Except CheckError TypeTable
  | generic x, t => match Bindings.get? deduced x with
    | some u => do
      equate .generics place t u
      pure deduced
    | none => .ok (Bindings.put deduced x t)
  | all ps s _, all qs t _ => do
    let t ← substitute (Bindings.putAll [] ((qs.zip ps).map fun (q, p) => (q, other (.str p)))) t
    matchTypes deduced s t
  | tuple ps _, tuple ts _ => matchAll deduced ps ts
  | list p, list t => matchTypes deduced p t
  | function ps r _, function qs s _ => do
    matchTypes (← matchAll deduced ps qs) r s
  | int, int => .ok deduced
  | bool, bool => .ok deduced
  | s, t => .error (.told fun _ => do
    .ok ("mismatch: " ++ (← s.text) ++ "\n!= " ++ (← t.text)))

def matchAll (deduced : TypeTable) : List Ty → List Ty → Except CheckError TypeTable
  | p :: ps, t :: ts => do
    matchAll (← matchTypes deduced p t) ps ts
  | _, _ => .ok deduced

end

end Match

/-!
## Equality of types

Types are compared as trees are. Trees that are no types may compare equal to others, so they are
kept out.
-/

/-- Types that are built from types only. -/
inductive Genuine : Ty → Prop where
  | int : Genuine .int
  | bool : Genuine .bool
  | void : Genuine .void
  | bottom : Genuine .bottom
  | any : Genuine .any
  | tuple {ps b} (h : ∀ p ∈ ps, Genuine p) : Genuine (.tuple ps b)
  | list {p : Ty} (h : Genuine p) : Genuine (.list p)
  | function {ps r b} (h : ∀ p ∈ ps, Genuine p) (hr : Genuine r) : Genuine (.function ps r b)
  | generic (x) : Genuine (.generic x)
  | all {xs : List String} {p : Ty} {b : Bool} (h : Genuine p) : Genuine (.all xs p b)
  | proxyOrTuple {ps b} (h : ∀ p ∈ ps, Genuine p) : Genuine (.proxyOrTuple ps b)
  | proxyOrList {p : Ty} (h : Genuine p) : Genuine (.proxyOrList p)
  | host (h) : Genuine (.host h)

/-- Comparing lists of types decides equality if comparing the types does. -/
theorem equals_iff {ps} (h : ∀ p ∈ ps, ∀ q, equal p q = true ↔ p = q) (qs) :
    equals ps qs = true ↔ ps = qs := by
  induction ps generalizing qs with
  | nil => cases qs <;> simp [equals]
  | cons p ps ih =>
    rw [List.forall_mem_cons] at h
    cases qs with
    | nil => simp [equals]
    | cons q qs => simp [equals, h.1 q, ih h.2 qs]

theorem equal_iff {s} (hs : Genuine s) (t) : equal s t = true ↔ s = t := by
  induction hs generalizing t with
  | tuple h ih =>
    cases t <;> simp [equal, equals_iff ih]
  | list h ih => cases t <;> simp [equal, ih]
  | function h hr ih ihr => cases t <;> simp [equal, equals_iff ih, ihr, and_assoc]
  | all h ih => cases t <;> simp [equal, ih, and_assoc]
  | proxyOrTuple h ih => cases t <;> simp [equal, equals_iff ih]
  | proxyOrList h ih => cases t <;> simp [equal, ih]
  | host a =>
    cases t with
    | host b => cases a <;> cases b <;> simp [equal] <;> decide
    | _ => simp [equal]
  | _ => cases t <;> simp [equal]

theorem beq_bottom (t : Ty) : (t == .bottom) = true ↔ t = .bottom := by
  cases t <;> simp [BEq.beq, equal]

/-- The type of what never yields a value fits every type. -/
theorem equate_bottom {c} (hc : forgivesBottom c = true) {s t} (h : s = .bottom ∨ t = .bottom)
    (place) : equate c place s t = .ok () := by
  have hbottom : (s == .bottom || t == .bottom) = true := by
    rcases h with rfl | rfl
    · rfl
    · exact Bool.or_true _
  rw [equate, hc, hbottom]
  rfl

theorem equates_iff (c place ps qs) :
    equates c place ps qs = .ok () ↔ ∀ pq ∈ ps.zip qs, equate c place pq.1 pq.2 = .ok () := by
  induction ps generalizing qs with
  | nil => simp [equates]
  | cons p ps ih =>
    cases qs with
    | nil => simp [equates]
    | cons q qs =>
      rw [equates, List.zip_cons_cons, List.forall_mem_cons, ← ih qs]
      cases h : equate c place p q with
      | error e => simp [bind, Except.bind]
      | ok u => simp [bind, Except.bind]

end CompilerKit.Ty

namespace CompilerKit

/-!
## Type hints

The types that hints in programs stand for, in each type system. A hint is a tree: an expression
that denotes a type, or a type.
-/

namespace TypeSystem

def namesAny (c : TypeSystem) : Bool := c.hasTags || c == .gradual

def keepsAny (c : TypeSystem) : Bool := c.namesAny || c == .casts

end TypeSystem

def badHint {α : Type} (t : Term) : Except CheckError α :=
  .error (.unexpected "parse_type_annot: unexpected " (.term t))

def resolveName (c : TypeSystem) (x : String) : Except CheckError Ty :=
  if x == "int" then .ok .int
  else if x == "bool" then .ok .bool
  else if c == .generics then .ok (.generic x)
  else if c.namesAny && x == "Any" then .ok .any
  else badHint (.leaf .name [.str x])

def declaredVariables (t : Term) : Except CheckError Term := do
  match t.items with
  | .error f => .error (.fault f)
  | .ok ts =>
    let xs ← ts.mapM fun t => match t.field? "id" with
      | some x => .ok x
      | none => .error (.fault .missingPart)
    .ok (.list xs)

/-- A hint whose parts are the items of something else than a list: the first of them is refused. -/
def foreignHints (t : Term) : Except CheckError (List Ty) :=
  match t.items? with
  | none => .error (.fault .wrongKind)
  | some [] => .ok []
  | some (t :: _) => badHint t

mutual

/-- The type that a tree stands for as a hint. A missing hint is the unknown type under gradual
typing. -/
def Term.resolve (c : TypeSystem) (hint : Term) : Except CheckError Ty :=
  match hint with
  | .null => if c == .gradual then .ok .any else badHint hint
  | .node .name [.str x] _ => resolveName c x
  | .node .name [x] _ =>
    if c == .generics then .ok (.ofTerm (.ofRecord .genericVar [x])) else badHint hint
  | .node .constant [.null] _ => .ok .void
  | .node .type [.str "int"] _ => .ok .int
  | .node .type [.str "bool"] _ => .ok .bool
  | .node .type [.str "NoneType"] _ => .ok .void
  | .node .subscript (.node .name [.str "Callable"] _ :: .node .tuple (es :: _) _ :: _) _ =>
    match es with
    | .list [ps, r] | .tuple [ps, r] => do
      .ok (.function (← Term.resolveParts c ps) (← Term.resolve c r))
    | _ => badHint hint
  | .node .subscript (.node .name [.str "tuple"] _ :: .node .tuple (es :: _) _ :: _) _ => do
    .ok (.tuple (← Term.resolveItems c es))
  | .node .subscript (.node .name [.str "tuple"] _ :: t :: _) _ => do
    .ok (.tuple [← Term.resolve c t])
  | .node .subscript (.node .name [.str "list"] _ :: t :: _) _ => do
    .ok (.list (← Term.resolve c t))
  | .node .subscript (.node .name [.str "All"] _ :: .node .tuple (es :: _) _ :: _) _ =>
    match es with
    | .list [.node .list (ps :: _) _, t] | .tuple [.node .list (ps :: _) _, t] =>
      if c == .generics then do
        .ok (.ofTerm (.ofRecord .allType [← declaredVariables ps, (← Term.resolve c t).toTerm]))
      else badHint hint
    | _ => badHint hint
  | .node (.record r) fs _ =>
    match r, fs with
    | .intType, _ => .ok .int
    | .boolType, _ => .ok .bool
    | .voidType, _ => .ok .void
    | .anyType, _ => if c.keepsAny then .ok .any else badHint hint
    | .tupleType, [ts] => do
      .ok (.tuple (← Term.resolveItems c ts))
    | .listType, [t] => do
      .ok (.list (← Term.resolve c t))
    | .functionType, [ps, r] => do
      .ok (.function (← Term.resolveItems c ps) (← Term.resolve c r))
    | .proxyOrTupleType, [ts] =>
      if c.hasProxies then do
        .ok (.proxyOrTuple (← Term.resolveItems c ts))
      else badHint hint
    | .proxyOrListType, [t] =>
      if c.hasProxies then do
        .ok (.proxyOrList (← Term.resolve c t))
      else badHint hint
    | _, _ => badHint hint
  | _ => badHint hint

def Term.resolveParts (c : TypeSystem) : Term → Except CheckError (List Ty)
  | .node k (es :: _) _ =>
    match k with
    | .list | .tuple | .set | .record .rawTuple => Term.resolveItems c es
    | _ => .error (.fault .missingPart)
  | _ => .error (.fault .missingPart)

def Term.resolveItems (c : TypeSystem) : Term → Except CheckError (List Ty)
  | .list ts => Term.resolves c ts
  | .tuple ts => Term.resolves c ts
  | t => foreignHints t

def Term.resolves (c : TypeSystem) : List Term → Except CheckError (List Ty)
  | [] => .ok []
  | t :: ts => do
    .ok ((← Term.resolve c t) :: (← Term.resolves c ts))

end

def Ty.resolve (c : TypeSystem) (hint : Ty) : Except CheckError Ty := hint.toTerm.resolve c

def resolveDeclaration (c : TypeSystem) : Term → Except CheckError (Term × Ty)
  | .node .arg (x :: hint :: _) _ => do .ok (x, ← hint.resolve c)
  | _ => .error (.fault .missingPart)

def CheckError.ofExcept {α : Type} : Except Fault α → Except CheckError α
  | .ok a => .ok a
  | .error f => .error (.fault f)

def Params.areDeclared : Params → Bool
  | .signature _ _ | .other (.node .arguments _ _) => true
  | _ => false

/-- The parameters of a function with their types. Hints as written are resolved; types that stand
in pairs with the parameters are taken as they are. -/
def resolveParams (c : TypeSystem) : Params → Except CheckError (List (Term × Ty))
  | .signature ps _ => ps.mapM fun p => do .ok (Term.str p.name, ← p.hint.resolve c)
  | .other (.node .arguments [f] _) => do
    (← CheckError.ofExcept f.items).mapM (resolveDeclaration c)
  | ps => CheckError.ofExcept ps.pairs

/-- The parameters of a function with their types, its result type, and what the parameters are
recorded as. The result is a hint if the parameters have hints. -/
def resolveHeader (c : TypeSystem) (ps : Params) (result : Ty) :
    Except CheckError (List (Term × Ty) × Ty × Params) := do
  let ds ← resolveParams c ps
  if ps.areDeclared then
    .ok (ds, ← result.resolve c, .ofItems (ds.map fun (x, t) => .tuple [x, t.toTerm]))
  else .ok (ds, result, ps)

end CompilerKit
