import CompilerKit.Typing.System
import CompilerKit.Eval.Language

/-!
# Checking source programs

The rules of the type systems of the source languages. An expression has a type that its parts
determine, or is checked against a type that is wanted; only a lambda needs the latter. Statements
are checked for the type that they return, or against the type that they have to return. Checking
returns the program with the types that it found recorded in it.
-/

namespace CompilerKit

open Check

namespace TypeSystem

/-- The type of an empty list of statements. -/
def emptyType (c : TypeSystem) : Ty :=
  if c == .arrays || c == .functions then .void else .absent

end TypeSystem

def equal (c : TypeSystem) (s t : Ty) (place : Culprit) : Check Unit :=
  liftM (Ty.equate c place s t)

/-- The type under which closures of different shapes are compatible. -/
def closureType : Ty → Except CheckError Ty
  | .function ps r false => .ok (.tuple [.function (.tuple [] :: ps.drop 1) r])
  | .function _ _ true => .error (.fault .wrongKind)
  | t => .error (.ofText "erase_closure_type expected function type, not " t)

/-- Constants. Truth values count as numbers until there is a type for them. -/
def constantType? (c : TypeSystem) : Value → Option Ty
  | .int _ _ => some .int
  | .bool _ => some (if c.hasConditionals then .bool else .int)
  | .none => if c.hasFunctions then some .void else none
  | _ => none

/-- The operators on numbers that the system knows. -/
def isArithmetic (c : TypeSystem) : ArithOp → Bool
  | .add | .sub => true
  | .mult => c.hasArrays
  | _ => false

/-- The comparisons that the system allows at any type. -/
def comparesAny (c : TypeSystem) : CmpOp → Bool
  | .eq | .notEq => true
  | .same => c.hasTuples
  | _ => false

def lenType (c : TypeSystem) : Ty → Check Ty
  | .tuple _ _ => pure .int
  | .bottom => pure .bottom
  | .list t =>
    if c.hasArrays then pure .int else refuse (.unusable "len expected a tuple, not " (.list t))
  | t => refuse (.unusable "len expected a tuple, not " t)

def hasRepeats : List Term → Bool
  | [] => false
  | x :: xs => xs.contains x || hasRepeats xs

def declaresTypeVariable : Expr → Bool
  | .call (.name "TypeVar" _) _ _ => true
  | _ => false

/-- The parameters that stay in a lambda: their types are recorded apart. -/
def lambdaParams (ps : Params) : Check Params :=
  match ps with
  | .signature ps _ => pure (.names (ps.map Param.name))
  | .other (.node .arguments [f] m) => ofExcept (Params.declared (.other (.node .arguments [f] m)))
  | ps => pure ps

/-- Refuse a call of something that is no function. -/
def notCallable {α : Type} (t : Ty) (call : Expr) : Check α :=
  tell fun h => do
    .ok ("type_check_exp: unexpected " ++ (← t.dump) ++ "\nin call\n" ++ (← call.text h baseIndent))

/-- Refuse a statement that has no text. -/
def writable (s : Stmt) : Check Unit :=
  match s.dump #[] baseIndent with
  | .ok _ => pure ()
  | .error m => stop m.fault

def notInRange {α : Type} (k : Int) (t : Ty) (stored : Stmt) : Check α :=
  tell fun h => do
    let index ← printedAt baseIndent (Literal.int k).text
    .ok ("subscript " ++ index ++ " not in range of " ++ (← t.text) ++ " in\n" ++
      (← stored.text h baseIndent))

/-- What is no list of statements is fine where a body belongs if it is empty. -/
def foreignBody (rule : String) : Body → Check Unit
  | .stmts _ | .blocks [] | .other (.dict []) | .other (.set []) | .other (.str "") => pure ()
  | .blocks _ | .other (.dict _) => stop (.missingKey "0")
  | .other t => match t.str? with
    | some _ => refuse (.unexpected rule (.term t))
    | none => stop .wrongKind

/-- Refuse a tree that is no expression, or stop at what is missing in it. -/
def refuseTree {α : Type} (c : TypeSystem) (rule : String) (t : Term) : Check α :=
  match t with
  | .node .name [x] _ => unbound x
  | .node (.record .funRef) (x :: _) _ =>
    if c.hasFunctions then unbound x else refuse (.unexpected rule (.term t))
  | .node .boolOp [_, es] _ =>
    if c.hasConditionals then do
      let a ← ofExcept (es.item 0)
      let _ ← ofExcept (es.item 1)
      refuse (.unexpected rule (.term a))
    else refuse (.unexpected rule (.term t))
  | t => refuse (.unexpected rule (.term t))

mutual

/-- The type of an expression, and the expression with what was recorded in it. -/
def checkExpr (c : TypeSystem) (want : Option Ty) (e : Expr) : Check (Expr × Ty) := do
  let unexpected : Check (Expr × Ty) := refuse (.unexpected "type_check_exp: unexpected " (.expr e))
  let given (b : Bool) (rule : Check (Expr × Ty)) : Check (Expr × Ty) :=
    if b then rule else unexpected
  let finish (r : Expr × Ty) : Check (Expr × Ty) := do
    match want with
    | none => pure ()
    | some t => equal c r.2 t (.expr r.1)
    pure r
  match e with
  | .lambda ps body n =>
    if !c.hasLambdas then unexpected
    else match want with
    | none => tell fun h => do
      .ok ("cannot synthesize a type for lambda: " ++ (← e.text h baseIndent))
    | some want => do
      let ps ← lambdaParams ps
      match want with
      | .function qs r _ => do
        let table ← ofExcept (scope ((← ofExcept ps.keys).zip qs))
        let (body, _) ← inScope table (checkExpr c (some r) body)
        pure (.lambda ps body { n with type := some want }, want)
      | .bottom => pure (.lambda ps body { n with type := some want }, .bottom)
      | t => refuse (.ofText "lambda does not have type " t)
  | .name x n => do
    let t ← lookup x
    finish (if c.hasLambdas then .name x { n with type := some t } else e, t)
  | .const k _ => match constantType? c k with
    | some t => finish (e, t)
    | none => unexpected
  | .arith l op r n => given (isArithmetic c op) do
    let (l, s) ← checkExpr c none l
    equal c s .int (.expr l)
    let (r, t) ← checkExpr c none r
    equal c t .int (.expr r)
    finish (.arith l op r n, .int)
  | .unary .neg a n => do
    let (a, t) ← checkExpr c none a
    equal c t .int (.expr a)
    finish (.unary .neg a n, .int)
  | .unary .not a n => given c.hasConditionals do
    let (a, t) ← checkExpr c none a
    equal c t .bool (.expr a)
    finish (.unary .not a n, .bool)
  | .logic op (a :: b :: more) n => given c.hasConditionals do
    let (a, s) ← checkExpr c none a
    equal c s .bool (.expr a)
    let (b, t) ← checkExpr c none b
    equal c t .bool (.expr b)
    finish (.logic op (a :: b :: more) n, .bool)
  | .logic _ _ _ => given c.hasConditionals (stop .outOfRange)
  | .cond test yes no n => given c.hasConditionals do
    let (test, s) ← checkExpr c none test
    equal c .bool s (.expr test)
    let (yes, t) ← checkExpr c none yes
    let (no, u) ← checkExpr c none no
    equal c t u (.expr (.cond test yes no n))
    finish (.cond test yes no n, t)
  | .compare l [op] [r] n => given c.hasConditionals do
    let (l, s) ← checkExpr c none l
    if comparesAny c op then
      let (r, t) ← checkExpr c none r
      equal c s t (.expr (.compare l [op] [r] n))
      finish (.compare l [op] [r] n, .bool)
    else
      equal c s .int (.expr l)
      let (r, t) ← checkExpr c none r
      equal c t .int (.expr r)
      finish (.compare l [op] [r] n, .bool)
  | .block ss r n => given c.hasConditionals do
    let (ss, _) ← checkStmts c none ss
    let (r, t) ← checkExpr c none r
    finish (.block ss r n, t)
  | .tuple es .load n => given c.hasTuples do
    let (es, ts) ← checkExprs c es
    finish (.tuple es .load { n with type := some (.tuple ts) }, .tuple ts)
  | .list es .load n => given c.hasArrays do
    let (es, ts) ← checkExprs c es
    match ts with
    | [] => stop .outOfRange
    | t :: _ =>
      (ts.zip es).forM fun (u, x) => equal c t u (.expr x)
      finish (.list es .load { n with type := some (.list t) }, .list t)
  | .subscript b i .load n =>
    if c.hasArrays then do
      let (b, s) ← checkExpr c none b
      let b := b.withType s
      let (i, t) ← checkExpr c none i
      equal c t .int (.expr i)
      match s with
      | .tuple ts _ => match i with
        | .const k _ => finish (.subscript b i .load n, ← typeAtValue ts k)
        | _ => tell fun _ => .ok "subscript required constant integer index"
      | .list t => finish (.subscript b i .load n, t)
      | s => refuse (.unusable "subscript expected a tuple, not " s)
    else match i with
    | .const k _ => given c.hasTuples do
      let (b, s) ← checkExpr c none b
      match constantType? c k with
      | some t => equal c t .int (.value k)
      | none => refuse (.unexpected "type_check_exp: unexpected " (.expr (.const k {})))
      match s with
      | .tuple ts _ => finish (.subscript b i .load n, ← typeAtValue ts k)
      | s => refuse (.unusable "subscript expected a tuple, not " s)
    | _ => unexpected
  | .global _ _ => given c.hasTuples (finish (e, .int))
  | .allocate l t n => given c.hasTuples do
    match t with
    | .tuple _ _ => finish (.allocate l t { n with type := some t }, t)
    | t => refuse (.unusable "type_check_exp: Allocate expected a tuple, not " t)
  | .allocateArray _ t _ => given c.hasArrays (finish (e, t))
  | .allocateClosure _ t _ _ => given c.hasLambdas (finish (e, t))
  | .uninitialized t _ => given c.hasLambdas (finish (e, t))
  | .uncheckedCast b t n => given c.hasLambdas do
    let (b, _) ← checkExpr c none b
    finish (.uncheckedCast b t n, t)
  | .funRef x a n => given c.hasFunctions do
    let t ← lookup x
    finish (if c.hasLambdas then .funRef x a { n with type := some t } else e, t)
  | .closure a es n => given c.hasLambdas do
    let (es, ts) ← checkExprs c es
    match ts with
    | [] => stop .outOfRange
    | t :: _ =>
      let u ← liftM (closureType t)
      finish (.closure a es { n with type := some (.tuple ts), erased := some u }, u)
  | .inject b t n => given c.hasTags do
    let (b, _) ← checkExpr c (some t) b
    finish (.inject b t n, .any)
  | .project b t n => given c.hasTags do
    let (b, _) ← checkExpr c (some .any) b
    finish (.project b t n, t)
  | .valueOf b t n => given c.hasTags do
    let (b, _) ← checkExpr c (some .any) b
    finish (.valueOf b t n, t)
  | .tagOf b n => given c.hasTags do
    let (b, _) ← checkExpr c (some .any) b
    finish (.tagOf b n, .int)
  | .annLambda ps r body n => given (c.hasTags || c == .casts) do
    let qs ← ofExcept ps.pairs
    let table ← ofExcept (scope qs)
    let (body, t) ← inScope table (checkExpr c none body)
    equal c r t (.expr (.annLambda ps r body n))
    finish (.annLambda ps r body n, .function (qs.map (·.2)) t)
  | .cast b s t n => given (c == .casts) do
    let (b, _) ← checkExpr c (some s) b
    if s.consistent t then finish (.cast b s t n, t)
    else refuse (.inconsistent s t (.expr (.cast b s t n)))
  | .rawTuple es n => given c.hasProxies do
    let (es, ts) ← checkExprs c es
    finish (.rawTuple es { n with type := some (.tuple ts) }, .tuple ts)
  | .tupleProxy b reads s t n => given c.hasProxies do
    let (b, _) ← checkExpr c (some s) b
    let (reads, _) ← checkExpr c none reads
    finish (.tupleProxy b reads s t n, t)
  | .listProxy b read write s t n => given c.hasProxies do
    let (b, _) ← checkExpr c (some s) b
    let (read, _) ← checkExpr c none read
    let (write, _) ← checkExpr c none write
    finish (.listProxy b read write s t n, t)
  | .injectTuple b n => given c.hasProxies do
    let (b, t) ← checkExpr c none b
    match t with
    | .tuple ts k => finish (.injectTuple b n, .proxyOrTuple ts k)
    | _ => refuse (.unexpected "type_check error " (.expr (.injectTuple b n)))
  | .injectTupleProxy b t n => given c.hasProxies do
    let (b, _) ← checkExpr c none b
    match t with
    | .tuple ts k => finish (.injectTupleProxy b t n, .proxyOrTuple ts k)
    | _ => refuse (.unexpected "type_check error " (.expr (.injectTupleProxy b t n)))
  | .injectList b n => given c.hasProxies do
    let (b, t) ← checkExpr c none b
    match t with
    | .list t => finish (.injectList b n, .proxyOrList t)
    | _ => refuse (.unexpected "type_check error " (.expr (.injectList b n)))
  | .injectListProxy b t n => given c.hasProxies do
    let (b, _) ← checkExpr c none b
    match t with
    | .list u => finish (.injectListProxy b t n, .proxyOrList u)
    | _ => refuse (.unexpected "type_check error " (.expr (.injectListProxy b t n)))
  | .inst g ts n => given (c == .generics) do
    let (g, t) ← checkExpr c none g
    let g := g.withType t
    match t with
    | .all _ t _ => finish (.inst g ts n, ← liftM (Ty.substitute ts t))
    | t => refuse (.ofText "type_check_exp: expected generic, not " t)
  | .call f args n => do
    let general : Check (Expr × Ty) := do
      if c == .generics then
        let (g, t) ← checkExpr c none f
        match t with
        | .all _ (.function ps r _) _ =>
          let (args, ts) ← checkExprs c args
          let args := (args.zip ts).map fun (a, t) => a.withType t
          let g := g.withType t
          let deduced ← liftM (Ty.matchAll (.expr (.call g args n)) [] ps ts)
          finish (.call g args n, ← liftM (Ty.substitute deduced r))
        | t =>
          let (g, u) ← checkExpr c none f
          let g := g.withType t
          match u with
          | .function ps r _ =>
            finish (.call g (← checkArgs c ps args) n, r)
          | u => notCallable u (.call g args n)
      else
        let (g, t) ← checkExpr c none f
        if c.hasLambdas then
          match t with
          | .function ps r _ =>
            finish (.call g (← checkArgs c ps args) n, r)
          | t => notCallable t (.call g args n)
        else
          let (args, ts) ← checkExprs c args
          match t with
          | .function ps r _ =>
            (ts.zip ps).forM fun (t, p) => equal c p t (.expr (.call g args n))
            finish (.call g args n, r)
          | t => refuse (.unusable "type_check_exp: in call, unexpected " t)
    match f, args with
    | .name "input_int" _, [] => finish (e, .int)
    | .name "len" _, [a] => given c.hasTuples do
      let (a, t) ← checkExpr c none a
      let u ← lenType c t
      finish (.call f [if c.hasArrays then a.withType t else a] n, u)
    | .name "array_len" _, [a] => given c.hasArrays do
      let (a, t) ← checkExpr c none a
      match t with
      | .list _ => finish (.call f [a.withType t] n, .int)
      | .bottom => finish (.call f [a.withType t] n, .bottom)
      | t => refuse (.unusable "array_len: unexpected " t)
    | .name "array_load" _, [a, i] => given c.hasArrays do
      let (a, s) ← checkExpr c none a
      let (i, t) ← checkExpr c none i
      equal c t .int (.expr i)
      match s with
      | .list u => finish (.call f [a, i] n, u)
      | s => refuse (.unusable "array_load: unexpected " s)
    | .name "array_store" _, [a, i, v] => given c.hasArrays do
      let (a, s) ← checkExpr c none a
      let (v, u) ← checkExpr c none v
      let (i, t) ← checkExpr c none i
      equal c t .int (.expr i)
      match s with
      | .list w =>
        equal c w u (.expr (.call f [a, i, v] n))
        finish (.call f [a, i, v] n, .void)
      | .bottom => finish (.call f [a, i, v] n, .void)
      | s => refuse (.unusable "type_check_exp: unexpected " s)
    | .name "arity" _, [a] => given c.hasLambdas do
      let (a, t) ← checkExpr c none a
      if c.hasTags then
        match t with
        | .function _ _ _ | .tuple [.function _ _ _] _ => finish (.call f [a] n, .int)
        | t => refuse (.unusable "type_check_exp arity unexpected " t)
      else
        match t with
        | .function _ _ _ | .tuple _ _ => finish (.call f [a] n, .int)
        | t => refuse (.unusable "type_check_exp: in arity, unexpected " t)
    | .name "any_load" _, [a, i] => given (c.hasTags || c == .casts) do
      let (a, _) ← checkExpr c (some .any) a
      let (i, _) ← checkExpr c (some .int) i
      finish (.call f [a, i] n, .any)
    | .name "any_load_unsafe" _, [a, i] => given c.hasTags do
      let (a, _) ← checkExpr c (some .any) a
      let (i, _) ← checkExpr c (some .int) i
      finish (.call f [a, i] n, .any)
    | .name "any_store" _, [a, i, v] => given (c.hasTags || c == .casts) do
      if c.hasProxies then
        let (a, s) ← checkExpr c none a
        equal c s .any (.expr a)
        let (v, u) ← checkExpr c none v
        equal c u .any (.expr v)
        let (i, t) ← checkExpr c none i
        equal c t .int (.expr i)
        finish (.call f [a, i, v] n, .void)
      else
        let (a, _) ← checkExpr c (some .any) a
        let (v, _) ← checkExpr c none v
        let (i, _) ← checkExpr c (some .int) i
        finish (.call f [a, i, v] n, .void)
    | .name "any_store_unsafe" _, [a, i, v] => given c.hasTags do
      let (a, _) ← checkExpr c (some .any) a
      let (v, _) ← checkExpr c none v
      let (i, _) ← checkExpr c (some .int) i
      finish (.call f [a, i, v] n, .void)
    | .name "any_len" _, [a] => given (c.hasTags || c == .casts) do
      let (a, _) ← checkExpr c (some .any) a
      finish (.call f [a] n, .int)
    | .name "make_any" _, [v, t] => given c.hasTags do
      let (v, _) ← checkExpr c none v
      let (t, _) ← checkExpr c (some .int) t
      finish (.call f [v, t] n, .any)
    | .name "exit" _, [] => given c.hasTags (finish (e, .bottom))
    | .name "is_tuple_proxy" _, [a] => given c.hasProxies do
      let (a, t) ← checkExpr c none a
      match t with
      | .proxyOrTuple _ _ => finish (.call f [a] n, .bool)
      | t => tell fun h => do
        let type ← t.dump
        let call ← Expr.dump h baseIndent (.call f [a] n)
        .ok ("type_check error: expected ProxyOrTupleType, not " ++ type ++ " in " ++ call)
    | .name "is_array_proxy" _, [a] => given c.hasProxies do
      let (a, t) ← checkExpr c none a
      match t with
      | .proxyOrList _ => finish (.call f [a] n, .bool)
      | t => refuse (.unusable "type_check error: expected ProxyOrListType, not " t)
    | .name "proxy_tuple_load" _, [a, .const k m] => given c.hasProxies do
      let (a, t) ← checkExpr c none a
      match t with
      | .proxyOrTuple ts _ => finish (.call f [a, .const k m] n, ← typeAtValue ts k)
      | t => refuse (.unusable "type_check error: expected ProxyOrTupleType, not " t)
    | .name "project_tuple" _, [a] => given c.hasProxies do
      let (a, t) ← checkExpr c none a
      match t with
      | .proxyOrTuple ts b => finish (.call f [a] n, .tuple ts b)
      | t => refuse (.unusable "type_check error: expected ProxyOrTupleType, not " t)
    | .name "proxy_tuple_len" _, [a] => given c.hasProxies do
      let (a, t) ← checkExpr c none a
      match t with
      | .proxyOrTuple _ _ => finish (.call f [a] n, .int)
      | t => refuse (.unusable "type_check error: expected ProxyOrListType, not " t)
    | .name "project_array" _, [a] => given c.hasProxies do
      let (a, t) ← checkExpr c none a
      match t with
      | .proxyOrList u => finish (.call f [a] n, .list u)
      | t => refuse (.unusable "type_check error: expected ProxyOrListType, not " t)
    | .name "proxy_array_len" _, [a] => given c.hasProxies do
      let (a, t) ← checkExpr c none a
      match t with
      | .proxyOrList _ => finish (.call f [a] n, .int)
      | t => refuse (.unusable "type_check error: expected ProxyOrListType, not " t)
    | .name "proxy_array_load" _, [a, i] => given c.hasProxies do
      let (a, s) ← checkExpr c none a
      let (i, t) ← checkExpr c none i
      equal c t .int (.expr i)
      match s with
      | .proxyOrList u => finish (.call f [a, i] n, u)
      | s => refuse (.unusable "proxy_array_load expected a proxy-or-list, not " s)
    | .name "proxy_array_store" _, [a, i, v] => given c.hasProxies do
      let (a, s) ← checkExpr c none a
      let (v, u) ← checkExpr c none v
      let (i, t) ← checkExpr c none i
      equal c t .int (.expr i)
      match s with
      | .proxyOrList w =>
        equal c w u (.expr (.call f [a, i, v] n))
        finish (.call f [a, i, v] n, .void)
      | .bottom => finish (.call f [a, i, v] n, .void)
      | s => refuse (.unusable "type_check_exp: in proxy_array_store unexpected " s)
    | .name g _, _ => given (c.hasFunctions && !builtins.contains g) general
    | _, _ => given c.hasFunctions general
  | .other t => refuseTree c "type_check_exp: unexpected " t
  | _ => unexpected

/-- Expressions, from left to right. -/
def checkExprs (c : TypeSystem) : List Expr → Check (List Expr × List Ty)
  | [] => pure ([], [])
  | e :: es => do
    let (e, t) ← checkExpr c none e
    let (es, ts) ← checkExprs c es
    pure (e :: es, t :: ts)

/-- Arguments against the types of parameters, as far as both go. -/
def checkArgs (c : TypeSystem) : List Ty → List Expr → Check (List Expr)
  | t :: ts, e :: es => do
    let (e, _) ← checkExpr c (some t) e
    pure (e :: (← checkArgs c ts es))
  | _, es => pure es

/-- Check statements, for what they return or against what they have to return. Once a statement
is met that has no rule for the latter, it and the following ones are checked for what they
return. -/
def checkStmts (c : TypeSystem) (want : Option Ty) : List Stmt → Check (List Stmt × Ty)
  | [] => pure ([], if want.isSome then .absent else c.emptyType)
  | s :: rest => do
    let unexpected : Check (List Stmt × Ty) :=
      refuse (.unexpected "type_check_stmts: unexpected " (.stmts (s :: rest)))
    let given (b : Bool) (rule : Check (List Stmt × Ty)) : Check (List Stmt × Ty) :=
      if b then rule else unexpected
    if c == .generics then writable s
    match s with
    | .importFrom _ => given (c == .generics) do
      let (rest, t) ← checkStmts c want rest
      pure (s :: rest, t)
    | .pass _ => given c.hasLambdas do
      let (rest, t) ← checkStmts c none rest
      pure (s :: rest, t)
    | .assign [.name x m] e n =>
      if c == .generics && declaresTypeVariable e then do
        let (rest, t) ← checkStmts c want rest
        pure (s :: rest, t)
      else do
        let (e, t) ← match want with
          | some _ => do
            match ← find? x with
            | some t => do
              let (e, _) ← checkExpr c (some t) e
              pure (e, ← lookup x)
            | none => do
              let (e, t) ← checkExpr c none e
              bind x t
              pure (e, t)
          | none => do
            let (e, t) ← checkExpr c none e
            match ← find? x with
            | some u => do
              equal c u t (.expr e)
              pure (e, u)
            | none => do
              bind x t
              pure (e, t)
        let (rest, r) ← checkStmts c want rest
        let x := Expr.name x (if c.hasLambdas then { m with type := some t } else m)
        pure (.assign [x] e n :: rest, r)
    | .assign [.subscript b i .store m] e n =>
      match want, i with
      | some _, .const k _ => do
        let (b, s) ← checkExpr c none b
        let e ← match s with
          | .tuple ts _ => do
            let t ← typeAtValue ts k
            let (e, _) ← checkExpr c (some t) e
            pure e
          | .bottom => pure e
          | s => refuse (.unusable "check_stmts: expected a tuple, not " s)
        let (rest, r) ← checkStmts c want rest
        pure (.assign [.subscript b i .store m] e n :: rest, r)
      | _, _ =>
        if c.hasArrays then do
          let (b, s) ← checkExpr c none b
          let b := b.withType s
          let (e, u) ← checkExpr c none e
          let (i, t) ← checkExpr c none i
          equal c t .int (.expr i)
          let stored := Stmt.assign [.subscript b i .store m] e n
          match s with
          | .tuple ts _ => match i with
            | .const (.int k _) _ =>
              if 0 ≤ k ∧ k < ts.length then do
                equal c (← typeAt ts k) u (.stmt stored)
              else notInRange k s stored
            | .const _ _ => stop .wrongKind
            | _ => tell fun _ => .ok "subscript required constant integer index"
          | .list t => equal c t u (.stmt stored)
          | .bottom => pure ()
          | s => refuse (.unusable "type_check_stmts: expected a list or tuple, not " s)
          let (rest, r) ← checkStmts c none rest
          pure (stored :: rest, r)
        else match i with
        | .const k _ => given c.hasTuples do
          let (b, s) ← checkExpr c none b
          let b := b.withType s
          let (e, u) ← checkExpr c none e
          let stored := Stmt.assign [.subscript b i .store m] e n
          match s with
          | .tuple ts _ => do
            equal c (← typeAtValue ts k) u (.stmt stored)
          | .bottom => pure ()
          | s => refuse (.unusable "type_check_stmts: expected a tuple, not " s)
          let (rest, r) ← checkStmts c none rest
          pure (stored :: rest, r)
        | _ => unexpected
    | .annAssign (.name x m) hint e k n =>
      match want with
      | none => unexpected
      | some _ => do
        let t ← liftM (hint.resolve c)
        match ← find? x with
        | some _ => stop .wrongKind
        | none => bind x t
        let (e, _) ← checkExpr c (some t) e
        let (rest, r) ← checkStmts c want rest
        pure (.annAssign (.name x { m with type := some t }) t e k n :: rest, r)
    | .expr e n => do
      let whole : Check Expr := Prod.fst <$> checkExpr c none e
      let checked : Check Expr := match e with
        | .call (.name f k) [a] m =>
          if f == "print" then do
            let (a, t) ← checkExpr c none a
            equal c t .int (.expr a)
            pure (.call (.name f k) [a] m)
          else whole
        | _ => whole
      let e ← checked
      let (rest, r) ← checkStmts c none rest
      pure (.expr e n :: rest, r)
    | .ite test yes no n => given c.hasConditionals do
      let (test, t) ← checkExpr c none test
      equal c .bool t (.expr test)
      let (yes, a) ← checkStmts c none yes
      let (no, b) ← checkStmts c none no
      equal c a b (.stmt (.ite test yes no n))
      match rest with
      | [] => pure ([.ite test yes no n], a)
      | rest => do
        let (rest, r) ← checkStmts c none rest
        pure (.ite test yes no n :: rest, r)
    | .loop test body [] n => given c.hasLoops do
      let (test, t) ← checkExpr c none test
      equal c .bool t (.expr test)
      let (body, _) ← checkStmts c none body
      let (rest, r) ← checkStmts c none rest
      pure (.loop test body [] n :: rest, r)
    | .collect _ _ => given c.hasTuples do
      let (rest, r) ← checkStmts c none rest
      pure (s :: rest, r)
    | .fundef f ps body ds result k n => given c.hasFunctions do
      let (params, t, ps) ← liftM (resolveHeader c ps result)
      let table ← ofExcept (scope params)
      if want.isNone && hasRepeats (params.map (·.1)) then
        tell fun _ => .ok ("type_check: duplicate parameter name in function " ++ Text.quote f)
      else
        let (body, r) ← match body with
          | .stmts ss => do
            let (ss, r) ← inScope table (checkStmts c (want.map fun _ => t) ss)
            pure (Body.stmts ss, r)
          | body => do
            foreignBody "type_check_stmts: unexpected " body
            pure (body, if want.isSome then .absent else c.emptyType)
        let defined := Stmt.fundef f ps body ds t k n
        if want.isNone then equal c t r (.stmt defined)
        let (rest, r) ← checkStmts c want rest
        pure (defined :: rest, r)
    | .ret e n => given c.hasFunctions do
      let (e, t) ← checkExpr c want e
      pure (.ret e n :: rest, if want.isSome then .absent else t)
    | _ => unexpected

end

/-- The types that the functions of a program are declared with. -/
def declare (c : TypeSystem) (env : TypeTable) : List Stmt → Except CheckError TypeTable
  | [] => .ok env
  | .fundef f ps _ _ result _ _ :: ss => do
    let ts := (← resolveParams c ps).map (·.2)
    if c == .functions then
      if Bindings.has env f then
        .error (.told fun _ => .ok ("type_check: duplicate function name " ++ f))
      else
        declare c (Bindings.put env f (.function ts (← result.resolve c))) ss
    else
      let r ← if ps.areDeclared then result.resolve c else pure result
      let t := Ty.function ts r
      if c == .generics then
        let xs ← Ty.genericVariablesOf ts
        declare c (Bindings.put env f (if xs.isEmpty then t else .all xs t)) ss
      else declare c (Bindings.put env f t) ss
  | _ :: ss => declare c env ss

/-- Check a program and record the types found in it. Systems without functions take anything
else than a list of statements as it is. -/
def checkModule (c : TypeSystem) (p : Program) : Except CheckError Program :=
  match p with
  | .module ss n => do
    let env ← if c.hasFunctions then declare c [] ss else pure []
    let want := if c.hasLambdas then some Ty.int else none
    let ((ss, _), _) ← (checkStmts c want ss).run env
    pure (.module ss n)
  | .other (.node .module [b] m) => do
    if c.hasFunctions then
      let _ ← CheckError.ofExcept b.items
    let _ ← (foreignBody "type_check_stmts: unexpected " (.other b)).run []
    pure (.other (.node .module [b] m))
  | p =>
    if c.hasFunctions then .error (.unexpected "type_check: unexpected " (.program p)) else .ok p

end CompilerKit
