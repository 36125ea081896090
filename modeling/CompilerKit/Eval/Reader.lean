import CompilerKit.Eval.Store

/-!
# Reading programs

A labelled tree is read as an expression, a statement, a value or a program. What fits no rule of
any language stays a tree, so reading never fails. Sequences inside values go to the heap of a
store, functions get an empty environment of their own, and numbers and texts become objects of
their own.
-/

namespace CompilerKit

abbrev Reading := StateM Store

namespace Reading

def newId : Reading Nat := modifyGet fun σ => (σ.next, { σ with next := σ.next + 1 })

def newSequence (isList : Bool) (vs : List Value) : Reading Value :=
  modifyGet fun σ => (.seq σ.heap.size, { σ with heap := σ.heap.push ⟨isList, vs.toArray⟩ })

def newEnv (env : Env) : Reading Nat :=
  modifyGet fun σ => (σ.envs.size, { σ with envs := σ.envs.push env })

end Reading

open Reading

def cmpOps? : List Term → Option (List CmpOp)
  | [] => some []
  | .node (.cmp op) _ _ :: ts => (cmpOps? ts).map (op :: ·)
  | _ :: _ => none

/-- The comparison operators of a field, and whether it is a tuple. -/
def cmpField? : Term → Option (List CmpOp × Bool)
  | .list ts => (cmpOps? ts).map fun ops => (ops, false)
  | .tuple ts => (cmpOps? ts).map fun ops => (ops, true)
  | _ => none

mutual

def Expr.ofTerm (t : Term) : Reading Expr :=
  match t with
  | .node k fs m =>
    let note (tuples : List (Nat × Bool)) : Note := .ofMarks m tuples
    match k, fs with
    | .name, [.str x] => pure (.name x (note []))
    | .constant, [v] => do pure (.const (← Value.ofTerm v) (note []))
    | .binOp, [l, .node (.arith op) _ _, r] => do
      pure (.arith (← Expr.ofTerm l) op (← Expr.ofTerm r) (note []))
    | .boolOp, [.node (.logic op) _ _, es] => do
      match ← Expr.ofField es with
      | some (es, b) => pure (.logic op es (note [(1, b)]))
      | none => pure (.other t)
    | .unaryOp, [.node (.unary op) _ _, e] => do pure (.unary op (← Expr.ofTerm e) (note []))
    | .call, [f, es] => do
      let f ← Expr.ofTerm f
      match ← Expr.ofField es with
      | some (es, b) => pure (.call f es (note [(1, b)]))
      | none => pure (.other t)
    | .ifExp, [c, y, o] => do
      pure (.cond (← Expr.ofTerm c) (← Expr.ofTerm y) (← Expr.ofTerm o) (note []))
    | .compare, [l, ops, rs] => do
      let l ← Expr.ofTerm l
      match cmpField? ops, ← Expr.ofField rs with
      | some (ops, a), some (rs, b) => pure (.compare l ops rs (note [(1, a), (2, b)]))
      | _, _ => pure (.other t)
    | .tuple, [es, .node (.access a) _ _] => do
      match ← Expr.ofField es with
      | some (es, b) => pure (.tuple es a (note [(0, b)]))
      | none => pure (.other t)
    | .list, [es, .node (.access a) _ _] => do
      match ← Expr.ofField es with
      | some (es, b) => pure (.list es a (note [(0, b)]))
      | none => pure (.other t)
    | .subscript, [b, i, .node (.access a) _ _] => do
      pure (.subscript (← Expr.ofTerm b) (← Expr.ofTerm i) a (note []))
    | .lambda, [ps, b] => do pure (.lambda (.ofTerm ps) (← Expr.ofTerm b) (note []))
    | .record .cast, [b, s, u] => do
      pure (.cast (← Expr.ofTerm b) (.ofTerm s) (.ofTerm u) (note []))
    | .record .annLambda, [ps, r, b] => do
      pure (.annLambda (.ofTerm ps) (.ofTerm r) (← Expr.ofTerm b) (note []))
    | .record .inst, [g, .dict es] => do
      let g ← Expr.ofTerm g
      match TypeTable.ofEntries? es with
      | some ts => pure (.inst g ts (note []))
      | none => pure (.other t)
    | .record .uninitialized, [u] => pure (.uninitialized (.ofTerm u) (note []))
    | .record .allocate, [l, u] => pure (.allocate l (.ofTerm u) (note []))
    | .record .allocateArray, [l, u] => pure (.allocateArray l (.ofTerm u) (note []))
    | .record .allocateClosure, [l, u, a] => pure (.allocateClosure l (.ofTerm u) a (note []))
    | .record .uncheckedCast, [b, u] => do
      pure (.uncheckedCast (← Expr.ofTerm b) (.ofTerm u) (note []))
    | .record .block, [ss, e] => do
      let e ← Expr.ofTerm e
      match ← Stmt.ofField ss with
      | some (ss, b) => pure (.block ss e (note [(0, b)]))
      | none => pure (.other t)
    | .record .globalValue, [x] => pure (.global x (note []))
    | .record .funRef, [.str x, a] => pure (.funRef x a (note []))
    | .record .closure, [a, es] => do
      match ← Expr.ofField es with
      | some (es, b) => pure (.closure a es (note [(1, b)]))
      | none => pure (.other t)
    | .record .inject, [b, u] => do pure (.inject (← Expr.ofTerm b) (.ofTerm u) (note []))
    | .record .project, [b, u] => do pure (.project (← Expr.ofTerm b) (.ofTerm u) (note []))
    | .record .tagOf, [b] => do pure (.tagOf (← Expr.ofTerm b) (note []))
    | .record .valueOf, [b, u] => do pure (.valueOf (← Expr.ofTerm b) (.ofTerm u) (note []))
    | .record .tupleProxy, [b, r, s, u] => do
      pure (.tupleProxy (← Expr.ofTerm b) (← Expr.ofTerm r) (.ofTerm s) (.ofTerm u) (note []))
    | .record .rawTuple, [es] => do
      match ← Expr.ofField es with
      | some (es, b) => pure (.rawTuple es (note [(0, b)]))
      | none => pure (.other t)
    | .record .listProxy, [b, r, w, s, u] => do
      let b ← Expr.ofTerm b
      pure (.listProxy b (← Expr.ofTerm r) (← Expr.ofTerm w) (.ofTerm s) (.ofTerm u) (note []))
    | .record .injectTuple, [b] => do pure (.injectTuple (← Expr.ofTerm b) (note []))
    | .record .injectTupleProxy, [b, u] => do
      pure (.injectTupleProxy (← Expr.ofTerm b) (.ofTerm u) (note []))
    | .record .injectList, [b] => do pure (.injectList (← Expr.ofTerm b) (note []))
    | .record .injectListProxy, [b, u] => do
      pure (.injectListProxy (← Expr.ofTerm b) (.ofTerm u) (note []))
    | .record .valueExp, [v] => do pure (.embedded (← Value.ofTerm v) (note []))
    | _, _ => pure (.other t)
  | t => pure (.other t)

def Expr.ofTerms : List Term → Reading (List Expr)
  | [] => pure []
  | t :: ts => do pure ((← Expr.ofTerm t) :: (← Expr.ofTerms ts))

/-- The expressions of a field, and whether it is a tuple; none if it is no sequence. -/
def Expr.ofField : Term → Reading (Option (List Expr × Bool))
  | .list ts => do pure (some (← Expr.ofTerms ts, false))
  | .tuple ts => do pure (some (← Expr.ofTerms ts, true))
  | _ => pure none

def Stmt.ofTerm (t : Term) : Reading Stmt :=
  match t with
  | .node k fs m =>
    let note (tuples : List (Nat × Bool)) : Note := .ofMarks m tuples
    match k, fs with
    | .exprStmt, [e] => do pure (.expr (← Expr.ofTerm e) (note []))
    | .pass, _ => pure (.pass (note []))
    | .assign, [ts, e] => do
      let e ← Expr.ofTerm e
      match ← Expr.ofField ts with
      | some (ts, b) => pure (.assign ts e (note [(0, b)]))
      | none => pure (.other t)
    | .annAssign, [x, a, e, s] => do
      pure (.annAssign (← Expr.ofTerm x) (.ofTerm a) (← Expr.ofTerm e) s (note []))
    | .ret, [e] => do pure (.ret (← Expr.ofTerm e) (note []))
    | .ifStmt, [c, y, o] => do
      let c ← Expr.ofTerm c
      match ← Stmt.ofField y, ← Stmt.ofField o with
      | some (y, a), some (o, b) => pure (.ite c y o (note [(1, a), (2, b)]))
      | _, _ => pure (.other t)
    | .whileStmt, [c, y, o] => do
      let c ← Expr.ofTerm c
      match ← Stmt.ofField y, ← Stmt.ofField o with
      | some (y, a), some (o, b) => pure (.loop c y o (note [(1, a), (2, b)]))
      | _, _ => pure (.other t)
    | .functionDef, [.str f, ps, b, ds, r, c] => do
      let (b, isTuple) ← Body.ofTerm b
      pure (.fundef f (.ofTerm ps) b ds (.ofTerm r) c (note [(2, isTuple)]))
    | .importFrom, _ => pure (.importFrom (note []))
    | .record .goto, [.str l] => pure (.goto l (note []))
    | .record .collect, [s] => pure (.collect s (note []))
    | .record .tailCall, [f, es] => do
      let f ← Expr.ofTerm f
      match ← Expr.ofField es with
      | some (es, b) => pure (.tailCall f es (note [(1, b)]))
      | none => pure (.other t)
    | _, _ => pure (.other t)
  | t => pure (.other t)

def Stmt.ofTerms : List Term → Reading (List Stmt)
  | [] => pure []
  | t :: ts => do pure ((← Stmt.ofTerm t) :: (← Stmt.ofTerms ts))

/-- The statements of a field, and whether it is a tuple; none if it is no sequence. -/
def Stmt.ofField : Term → Reading (Option (List Stmt × Bool))
  | .list ts => do pure (some (← Stmt.ofTerms ts, false))
  | .tuple ts => do pure (some (← Stmt.ofTerms ts, true))
  | _ => pure none

def Body.ofTerm (t : Term) : Reading (Body × Bool) :=
  match t with
  | .list ts => do pure (.stmts (← Stmt.ofTerms ts), false)
  | .tuple ts => do pure (.stmts (← Stmt.ofTerms ts), true)
  | .dict es => do
    match ← Block.ofEntries es with
    | some bs => pure (.blocks bs, false)
    | none => pure (.other t, false)
  | t => pure (.other t, false)

def Block.ofEntries : List (Term × Term) → Reading (Option (List Block))
  | [] => pure (some [])
  | (.str l, .list ts) :: rest => do
    let ss ← Stmt.ofTerms ts
    match ← Block.ofEntries rest with
    | some bs => pure (some (.mk l ss :: bs))
    | none => pure none
  | _ :: _ => pure none

def Value.ofTerm (t : Term) : Reading Value :=
  match t with
  | .scalar c => do
    pure (.ofLiteral c (← newId))
  | .list ts => do
    newSequence true (← Value.ofTerms ts)
  | .tuple ts => do
    newSequence false (← Value.ofTerms ts)
  | .node k fs _ =>
    match k, fs with
    | .function, [.str f, ps, b] => do
      let (b, _) ← Body.ofTerm b
      pure (.function f (.ofTerm ps) b (← newEnv []) (← newId))
    | .closureTuple, [c, a] => do
      pure (.closure (← Value.ofTerm c) (← Value.ofTerm a) (← newId))
    | .record .tagged, [v, u] => do
      pure (.tagged (← Value.ofTerm v) (← Value.ofTerm u) (← newId))
    | .record .proxiedTuple, [b, r] => do
      pure (.proxiedTuple (← Value.ofTerm b) (← Value.ofTerm r) (← newId))
    | .record .proxiedList, [b, r, w] => do
      pure (.proxiedList (← Value.ofTerm b) (← Value.ofTerm r) (← Value.ofTerm w) (← newId))
    | _, _ => do
      pure (.other t (← newId))
  | t => do
    pure (.other t (← newId))

def Value.ofTerms : List Term → Reading (List Value)
  | [] => pure []
  | t :: ts => do pure ((← Value.ofTerm t) :: (← Value.ofTerms ts))

end

namespace Program

def ofTerm (t : Term) : Reading Program :=
  match t with
  | .node .module [b] m => do
    match ← Stmt.ofField b with
    | some (ss, a) => pure (.module ss (.ofMarks m [(0, a)]))
    | none => pure (.other t)
  | .node (.record .blocks) [.dict es] m => do
    match ← Block.ofEntries es with
    | some bs => pure (.blocks bs (.ofMarks m []))
    | none => pure (.other t)
  | .node (.record .defs) [ds] m => do
    match ← Stmt.ofField ds with
    | some (ss, a) => pure (.defs ss (.ofMarks m [(0, a)]))
    | none => pure (.other t)
  | t => pure (.other t)

end Program

/-- The environment of the entries of a table whose keys are texts, as a new environment of the
store. -/
def readEnv (entries : List (Term × Term)) : Reading Nat := do
  let bound ← entries.filterMapM fun (k, v) => match k with
    | .str x => do pure (some (x, ← Value.ofTerm v))
    | _ => pure none
  newEnv (Bindings.putAll [] bound)

end CompilerKit
