import CompilerKit.Typing.Source

/-!
# Gradual typing

The rules of the type system in which types may be unknown. Where two types are needed to be equal
elsewhere, they are needed to be consistent here, and an unknown type is taken on trust. The body of
a lambda is not looked into.
-/

namespace CompilerKit

open Check

/-- Refuse types that are not consistent. -/
def requireConsistent (s t : Ty) (place : Culprit) : Check Unit :=
  if s.consistent t then pure () else refuse (.inconsistent s t place)

/-- The join of the types of the items of a list. -/
def joinItems (items : List (Ty × Expr)) (start : Ty) : Check Ty :=
  items.foldlM (fun t (u, x) => do
    requireConsistent t u (.expr x)
    pure (t.join u)) start

/-- Record the wanted type of a lambda without looking into its body. The lambda and the type have
to be writable. -/
def gradualLambda (want : Ty) (ps : Params) (body : Expr) (n : Note) : Check Expr := do
  match Expr.text #[] baseIndent (.lambda ps body n), want.text with
  | .error m, _ | _, .error m => stop m.fault
  | .ok _, .ok _ =>
    let ps ← lambdaParams ps
    match want with
    | .function qs _ _ => do
      let _ ← ofExcept (scope ((← ofExcept ps.keys).zip qs))
      pure (.lambda ps body { n with type := some want })
    | .any => do
      let keys ← ofExcept ps.keys
      let _ ← ofExcept (scope (keys.map fun k => (k, Ty.any)))
      let t := Ty.function (keys.map fun _ => .any) .any
      pure (.lambda ps body { n with type := some t })
    | .bottom => pure (.lambda ps body n)
    | t => refuse (.ofText "lambda does not have type " t)

/-- What is no list of statements is fine where a body belongs if it has no items; the first item
is no statement. -/
def foreignStmts : Body → Check Unit
  | .stmts _ | .blocks [] => pure ()
  | .blocks (b :: _) => refuse (.unexpected "type_check_stmt: unexpected " (.term (.str b.label)))
  | .other t => do
    match ← ofExcept t.items with
    | [] => pure ()
    | x :: _ => refuse (.unexpected "type_check_stmt: unexpected " (.term x))

mutual

/-- The type of an expression, where the unknown type is consistent with all others. -/
def gradualExpr (want : Option Ty) (e : Expr) : Check (Expr × Ty) := do
  let unexpected : Check (Expr × Ty) := refuse (.unexpected "type_check_exp: unexpected " (.expr e))
  let finish (r : Expr × Ty) : Check (Expr × Ty) := do
    match want with
    | none => pure ()
    | some t => requireConsistent r.2 t (.expr r.1)
    pure r
  match e with
  | .lambda ps body n => do
    pure (← gradualLambda (want.getD .any) ps body n, .any)
  | .const (.bool _) _ => finish (e, .bool)
  | .const .none _ => finish (e, .void)
  | .const (.int _ _) _ => finish (e, .int)
  | .name x _ => do finish (e, ← lookup x)
  | .funRef x _ _ => do finish (e, ← lookup x)
  | .arith l op r n =>
    if isArithmetic .gradual op then do
      let (l, s) ← gradualExpr none l
      requireConsistent s .int (.expr l)
      let (r, t) ← gradualExpr none r
      requireConsistent t .int (.expr r)
      finish (.arith l op r n, .int)
    else unexpected
  | .unary .neg a n => do
    let (a, t) ← gradualExpr none a
    requireConsistent t .int (.expr a)
    finish (.unary .neg a n, .int)
  | .unary .not a n => do
    let (a, t) ← gradualExpr none a
    requireConsistent t .bool (.expr a)
    finish (.unary .not a n, .bool)
  | .cond test yes no n => do
    let (test, s) ← gradualExpr none test
    requireConsistent s .bool (.expr test)
    let (yes, t) ← gradualExpr none yes
    let (no, u) ← gradualExpr none no
    requireConsistent t u (.expr (.cond test yes no n))
    finish (.cond test yes no n, t.join u)
  | .logic op (a :: b :: more) n => do
    let (a, s) ← gradualExpr none a
    requireConsistent s .bool (.expr a)
    let (b, t) ← gradualExpr none b
    requireConsistent t .bool (.expr b)
    finish (.logic op (a :: b :: more) n, .bool)
  | .logic _ _ _ => stop .outOfRange
  | .compare l [op] [r] n =>
    match op with
    | .eq | .notEq | .same => do
      let (l, s) ← gradualExpr none l
      let (r, t) ← gradualExpr none r
      requireConsistent s t (.expr (.compare l [op] [r] n))
      finish (.compare l [op] [r] n, .bool)
    | .lt | .le | .gt | .ge => do
      let (l, s) ← gradualExpr none l
      requireConsistent s .int (.expr l)
      let (r, t) ← gradualExpr none r
      requireConsistent t .int (.expr r)
      finish (.compare l [op] [r] n, .bool)
    | _ => unexpected
  | .tuple es .load n => do
    let (es, ts) ← gradualExprs es
    finish (.tuple es .load { n with type := some (.tuple ts) }, .tuple ts)
  | .list es .load n => do
    let (es, ts) ← gradualExprs es
    match ts with
    | [] => stop .outOfRange
    | t :: _ => do
      let u ← joinItems (ts.zip es) t
      finish (.list es .load { n with type := some (.list u) }, .list u)
  | .subscript b i .load n => do
    let (b, s) ← gradualExpr none b
    let b := b.withType s
    let constant : Option Value := match i with
      | .const (.int k j) _ => some (.int k j)
      | .const (.bool k) _ => some (.bool k)
      | _ => none
    match constant with
    | some k =>
      let e := Expr.subscript b i .load n
      match s with
      | .tuple ts _ => finish (e, ← typeAtValue ts k)
      | .list t => finish (e, t)
      | .any => finish (e, .any)
      | s => refuse (.unusable "subscript expected a tuple, not " s)
    | none => do
      let (i, t) ← gradualExpr none i
      requireConsistent t .int (.expr i)
      let e := Expr.subscript b i .load n
      match s with
      | .tuple _ _ => finish (e, .any)
      | .list t => finish (e, t)
      | .any => finish (e, .any)
      | s => refuse (.unusable "subscript a tuple, not " s)
  | .call f args n =>
    let general : Check (Expr × Ty) := do
      let (g, t) ← gradualExpr none f
      match t with
      | .function ps r _ => do
        finish (.call g (← gradualArgs ps args) n, r)
      | .any => do
        let (args, _) ← gradualExprs args
        finish (.call g args n, .any)
      | t => refuse (.unusable "type_check_exp: in call, unexpected " t)
    match f, args with
    | .name "input_int" _, [] => finish (e, .int)
    | .name "len" _, [a] => do
      let (a, t) ← gradualExpr none a
      match t with
      | .tuple _ _ | .list _ | .any => finish (.call f [a.withType t] n, .int)
      | t => refuse (.unusable "len expected a tuple, not " t)
    | .name "array_len" _, [a] => do
      let (a, t) ← gradualExpr none a
      match t with
      | .list _ | .any => finish (.call f [a.withType t] n, .int)
      | .bottom => finish (.call f [a.withType t] n, .bottom)
      | t => refuse (.unusable "array_len: unexpected " t)
    | .name "array_load" _, [a, i] => do
      let (a, s) ← gradualExpr none a
      let (i, t) ← gradualExpr none i
      requireConsistent t .int (.expr i)
      match s with
      | .list u => finish (.call f [a, i] n, u)
      | .any => finish (.call f [a, i] n, .any)
      | s => refuse (.unusable "array_load: unexpected " s)
    | .name "array_store" _, [a, i, v] => do
      let (a, s) ← gradualExpr none a
      let (v, u) ← gradualExpr none v
      let (i, t) ← gradualExpr none i
      requireConsistent t .int (.expr i)
      match s with
      | .list w =>
        requireConsistent w u (.expr (.call f [a, i, v] n))
        finish (.call f [a, i, v] n, .void)
      | .bottom | .any => finish (.call f [a, i, v] n, .void)
      | s => refuse (.unusable "type_check_exp: unexpected " s)
    | .name "arity" _, [a] => do
      let (a, t) ← gradualExpr none a
      match t with
      | .function _ _ _ | .any => finish (.call f [a] n, .int)
      | t => refuse (.unusable "type_check_exp: in arity, unexpected " t)
    | .name "any_load" _, [a, i] => do
      let (a, _) ← gradualExpr (some .any) a
      let (i, _) ← gradualExpr (some .int) i
      finish (.call f [a, i] n, .any)
    | .name "any_store" _, [a, i, v] => do
      let (a, _) ← gradualExpr (some .any) a
      let (v, _) ← gradualExpr none v
      let (i, _) ← gradualExpr (some .int) i
      finish (.call f [a, i, v] n, .void)
    | .name "any_len" _, [a] => do
      let (a, _) ← gradualExpr (some .any) a
      finish (.call f [a] n, .int)
    | _, _ => general
  | .other t => refuseTree .gradual "type_check_exp: unexpected " t
  | _ => unexpected

def gradualExprs : List Expr → Check (List Expr × List Ty)
  | [] => pure ([], [])
  | e :: es => do
    let (e, t) ← gradualExpr none e
    let (es, ts) ← gradualExprs es
    pure (e :: es, t :: ts)

def gradualArgs : List Ty → List Expr → Check (List Expr)
  | t :: ts, e :: es => do
    let (e, _) ← gradualExpr (some t) e
    pure (e :: (← gradualArgs ts es))
  | _, es => pure es

end

mutual

/-- Check a statement of a function that returns the type `result`. -/
def gradualStmt (result : Ty) (s : Stmt) : Check Stmt := do
  let unexpected : Check Stmt := refuse (.unexpected "type_check_stmt: unexpected " (.stmt s))
  match s with
  | .assign [.name x m] e n => do
    let (e, t) ← gradualExpr none e
    match ← find? x with
    | some u => requireConsistent u t (.expr e)
    | none => bind x t
    pure (.assign [.name x m] e n)
  | .expr (.call (.name "print" k) [a] m) n => do
    let (a, t) ← gradualExpr none a
    requireConsistent t .int (.expr a)
    pure (.expr (.call (.name "print" k) [a] m) n)
  | .expr e n => do
    let (e, _) ← gradualExpr none e
    pure (.expr e n)
  | .ite test yes no n => do
    let (test, t) ← gradualExpr none test
    requireConsistent .bool t (.expr test)
    pure (.ite test (← gradualStmts result yes) (← gradualStmts result no) n)
  | .loop test body [] n => do
    let (test, t) ← gradualExpr none test
    requireConsistent .bool t (.expr test)
    pure (.loop test (← gradualStmts result body) [] n)
  | .assign [.subscript b i .store m] e n => do
    let (b, s) ← gradualExpr none b
    let b := b.withType s
    let (e, u) ← gradualExpr none e
    let (i, t) ← gradualExpr none i
    requireConsistent t .int (.expr i)
    let stored := Stmt.assign [.subscript b i .store m] e n
    match s with
    | .tuple ts _ => match i with
      | .const k _ => do
        requireConsistent (← typeAtValue ts k) u (.stmt stored)
      | _ => tell fun _ => .ok "subscript required constant integer index"
    | .list t => requireConsistent t u (.stmt stored)
    | .any | .bottom => pure ()
    | s => refuse (.unusable "type_check_stmts: expected a list or tuple, not " s)
    pure stored
  | .fundef f ps body ds r k n => do
    let (params, t, ps) ← liftM (resolveHeader .gradual ps r)
    let table ← ofExcept (scope params)
    let body ← match body with
      | .stmts ss => do
        pure (Body.stmts (← inScope table (gradualStmts t ss)))
      | body => do
        foreignStmts body
        pure body
    pure (.fundef f ps body ds t k n)
  | .ret e n => do
    let (e, _) ← gradualExpr (some result) e
    pure (.ret e n)
  | .annAssign (.name x m) hint e k n => do
    let t ← liftM (hint.resolve .gradual)
    match ← find? x with
    | some _ => stop .wrongKind
    | none => bind x t
    let (e, _) ← gradualExpr (some t) e
    pure (.annAssign (.name x { m with type := some t }) t e k n)
  | _ => unexpected

def gradualStmts (result : Ty) : List Stmt → Check (List Stmt)
  | [] => pure []
  | s :: ss => do
    pure ((← gradualStmt result s) :: (← gradualStmts result ss))

end

def gradualModule (p : Program) : Except CheckError Program :=
  match p with
  | .module ss n => do
    let env ← declare .gradual [] ss
    let (ss, _) ← (gradualStmts .int ss).run env
    pure (.module ss n)
  | .other (.node .module [b] m) => do
    let _ ← (foreignStmts (.other b)).run []
    pure (.other (.node .module [b] m))
  | p => .error (.unexpected "type_check: unexpected " (.program p))

end CompilerKit
