import CompilerKit.Eval.Reader

/-!
# Evaluation

The rules by which programs of every language of the family are run. A rule that a language does
not have is an error at the place where the program needs it. Evaluation is bounded by fuel, which
goes down by one with every rule; a run that ends with some fuel ends the same way with more.

Statements are run with the statements that follow them, so that a conditional or a loop puts its
body in front of what follows. What a function returns is the value of its statements.
-/

namespace CompilerKit

open Run

def Run.convert {α : Type} (m : Reading α) : Run α := modifyGet m.run

/-! ## Tags -/

def tagValue (v : Value) : Run Value :=
  match v with
  | .bool _ => newTagged v (sharedText "bool")
  | .int _ _ => newTagged v (sharedText "int")
  | .function _ _ _ _ _ => newTagged v (sharedText "function")
  | .none => newTagged v (sharedText "none")
  | .seq pos => do
    let isList ← withHeap fun h => (h[pos]?.map Sequence.isList).getD false
    if isList then newTagged v (sharedText "tuple") else throw (.untaggable v)
  | _ => throw (.untaggable v)

def untag (expected : String) (v : Value) : Run Value :=
  match v with
  | .tagged payload tag _ => do
    if ← withHeap fun h => tag.equal h (sharedText expected) then pure payload
    else throw (.wrongTag expected v)
  | _ => throw (.missingTag expected v)

/-- The tag of the values of a type. The lowered language only has tags for proxied tuples. -/
def typeTag (l : Language) (t : Ty) : Run Value :=
  if l.isBlocks then
    match t.head? with
    | some .proxyOrTupleType => pure (sharedText "tuple")
    | _ => stop .missingPart
  else match t, t.head? with
  | .host .int, _ | _, some .intType => pure (sharedText "int")
  | .host .bool, _ | _, some .boolType => pure (sharedText "bool")
  | _, some .functionType => pure (sharedText "function")
  | _, some .tupleType | _, some .listType => pure (sharedText "tuple")
  | _, some .proxyOrTupleType | _, some .proxyOrListType =>
    if l.hasProxies then pure (sharedText "tuple") else throw (.noTag t)
  | _, _ => throw (.noTag t)

/-! ## Operations without recursion -/

def compareValues (l : Language) (op : CmpOp) (a b : Value) : Run Bool := do
  match op with
  | .eq => withHeap fun h => a.equal h b
  | .notEq => withHeap fun h => !a.equal h b
  | .lt | .le | .gt | .ge => ofExcept (← withHeap fun h => a.ordered h op b)
  | .same => if l.hasTuples then withHeap fun h => a.same h b else stop .wrongKind
  | .notSame | .mem | .notMem => stop .wrongKind

def arithValues (l : Language) (op : ArithOp) (a b : Value) : Run Value := do
  match op with
  | .add => number (← ofExcept (a.addWord b))
  | .sub => number (← ofExcept (a.subWord b))
  | _ =>
    if l.isBlocks then made (← ofExcept (← withHeap fun h => a.product h b))
    else number (← ofExcept (a.mulWord b))

/-- A binary operation on two tagged numbers, without wrapping. -/
def arithTagged (op : ArithOp) (a b : Value) : Run Value := do
  let x ← untag "int" a
  let y ← untag "int" b
  let f : Int → Int → Int := match op with
    | .add => (· + ·)
    | .sub => (· - ·)
    | _ => (· * ·)
  tagValue (← number (← ofExcept (Value.onInts f x y)))

def compareTagged (a b : Value) (compare : Value → Value → Run Bool) : Run Value := do
  match a, b with
  | .tagged p s _, .tagged q t _ =>
    if ← withHeap fun h => s.equal h t then tagValue (.bool (← compare p q))
    else throw (.incomparable a b)
  | _, _ => stop .missingPart

/-- The values of the parameters of a function that is applied to arguments. What a function binds
apart from names cannot be read. -/
def bindKeys : List Term → List Value → Except Fault Env
  | .str x :: ks, v :: vs => do
    .ok ((x, v) :: (← bindKeys ks vs))
  | k :: ks, _ :: vs => if k.hashable then bindKeys ks vs else .error .wrongKind
  | _, _ => .ok []

def enter (captured : Nat) (ps : Params) (args : List Value) : Run Nat := do
  let env ← envAt .missingPart captured
  let bound ← match ps with
    | .names xs => pure (xs.zip args)
    | ps => ofExcept do bindKeys (← ps.keys) args
  newEnv (Bindings.putAll env bound)

def valueArity (l : Language) (v : Value) : Run Value :=
  match v with
  | .function _ ps _ _ _ => do number (← ofExcept ps.count)
  | .closure _ arity _ => pure arity
  | _ => throw (.noArity l v)

def arityValue : Term → Run Value
  | .scalar c => pure (.ofLiteral c sharedId)
  | t => convert (Value.ofTerm t)

/-- A list of empty cells; a negative length gives none. -/
def emptyCells (length : Term) : Run Value :=
  match length with
  | .scalar c => match c.asInt? with
    | some n => do newList (List.replicate (← ofExcept (Value.repeatCount n)).toNat .none)
    | none => stop .wrongKind
  | _ => stop .wrongKind

def hasArith (l : Language) : ArithOp → Bool
  | .add | .sub => true
  | .mult => l.hasArrays
  | _ => false

def bindTerm (env : Nat) (x : Term) (v : Value) : Run Unit :=
  match x with
  | .str x => assign env x v
  | t => if t.hashable then pure () else stop .wrongKind

def unboundTerm {α : Type} (x : Term) : Run α :=
  if x.hashable then
    match x.dump baseIndent with
    | .ok s => stop (.missingKey s)
    | .error m => stop m.fault
  else stop .wrongKind

def nameOf? : Expr → Option Term
  | .name x _ => some (.str x)
  | .other t => t.field? "id"
  | _ => none

/-- What running something gives that is no list of statements: nothing, except that the language
with generic functions looks at the first of its parts. -/
def idle (l : Language) (b : Body) : Run Value :=
  if l == .generics then
    match b with
    | .stmts _ | .blocks [] | .other (.dict []) | .other (.str _) => pure .none
    | .blocks _ | .other (.dict _) => stop (.missingKey "0")
    | .other _ => stop .wrongKind
  else pure .none

def blockAt (b : Body) (label : Term) : Run Body :=
  match b with
  | .blocks bs => match label with
    | .str x => match findBlock? bs x with
      | some code => pure (.stmts code)
      | none => stop (.missingKey (Text.quote x))
    | t => unboundTerm t
  | .other (.dict es) =>
    if label.hashable then
      match Term.get? es label with
      | some t => do
        let (code, _) ← convert (Body.ofTerm t)
        pure code
      | none => unboundTerm label
    else stop .wrongKind
  | _ => stop .wrongKind

def target? : Stmt → Option Term
  | .goto x _ => some (.str x)
  | .other (.node (.record .goto) [x] _) => some x
  | _ => none

/-! ## Casts -/

def projectValue (l : Language) (v : Value) (t : Ty) : Run Value :=
  match v with
  | .tagged payload tag _ => do
    let expected ← typeTag l t
    if ← withHeap fun h => expected.equal h tag then pure payload else throw (.badProjection v)
  | _ => throw (.badProjection v)

def injectValue (l : Language) (v : Value) (t : Ty) : Run Value := do
  newTagged v (← typeTag l t)

def castFunction (x : String) (source target : Ty) : Run Value := do
  let env ← newEnv []
  newFunction "cast" (.names [x]) (.stmts [.ret (.cast (.name x {}) source target {}) {}]) env

/-- A function that casts its arguments, calls the given one and casts the result. -/
def wrapFunction (v : Value) (ps : List Ty) (r : Ty) (qs : List Ty) (s : Ty) : Run Value := do
  let xs ← qs.mapM fun _ => fresh "x"
  let args := (xs.zip (ps.zip qs)).map fun (x, p, q) => Expr.cast (.name x {}) q p {}
  let env ← newEnv []
  newFunction "cast" (.names xs)
    (.stmts [.ret (.cast (.call (.embedded v {}) args {}) r s {}) {}]) env

/-- A tuple whose items are cast when they are read. -/
def wrapTuple (v : Value) (ps qs : List Ty) : Run Value := do
  let x ← fresh "x"
  let reads ← (ps.zip qs).mapM fun (p, q) => castFunction x p q
  newProxiedTuple v (← newList reads)

/-- A list whose items are cast when they are read and when they are written. -/
def wrapList (v : Value) (p q : Ty) : Run Value := do
  let x ← fresh "x"
  newProxiedList v (← castFunction x p q) (← castFunction x q p)

def castValue (l : Language) (v : Value) (source target : Ty) : Run Value := do
  match source, target with
  | .any, .function qs s _ =>
    let anys := qs.map fun _ => Ty.any
    wrapFunction (← projectValue l v (.function anys .any)) anys .any qs s
  | .any, .tuple qs _ =>
    let anys := qs.map fun _ => Ty.any
    wrapTuple (← projectValue l v (.tuple anys)) anys qs
  | .any, .list _ => stop .unsetName
  | .any, .any => pure v
  | .any, t => projectValue l v t
  | .function ps r _, .any =>
    let anys := ps.map fun _ => Ty.any
    injectValue l (← wrapFunction v ps r anys .any) (.function anys .any)
  | .tuple ps _, .any =>
    let anys := ps.map fun _ => Ty.any
    injectValue l (← wrapTuple v ps anys) (.tuple anys)
  | .list p, .any =>
    injectValue l (← wrapList v p .any) (.list .any)
  | s, .any => injectValue l v s
  | .function ps r _, .function qs s _ => wrapFunction v ps r qs s
  | .tuple ps _, .tuple qs _ => wrapTuple v ps qs
  | .list p, .list q => wrapList v p q
  | s, t => if s == t then pure v else throw (.badCast s t)

/-! ## Evaluation -/

mutual

def evalExpr (l : Language) : (fuel env : Nat) → Expr → Run Value
  | 0, _, _ => stop .outOfFuel
  | fuel + 1, env, e =>
    let eval := evalExpr l fuel env
    let foreign : Run Value := throw (.foreignExpr e)
    let given (b : Bool) (rule : Run Value) : Run Value := if b then rule else foreign
    let source := !l.isBlocks
    match e with
    | .name x _ => given l.hasVariables (lookup env x)
    | .const c _ => if l.isDynamic then tagValue c else pure c
    | .arith a op b _ => given (hasArith l op) do
      let x ← eval a
      let y ← eval b
      if l.isDynamic then arithTagged op x y else arithValues l op x y
    | .unary .neg a _ => do
      let x ← eval a
      if l.isDynamic then
        match (← untag "int" x).asInt? with
        | some i => tagValue (← number (-i))
        | none => stop .wrongKind
      else number (← ofExcept x.negWord)
    | .unary .not a _ => given l.hasConditionals do
      let x ← eval a
      if l.isDynamic then
        let p ← untag "bool" x
        tagValue (.bool (← withHeap fun h => !p.truthy h))
      else pure (.bool (← withHeap fun h => !x.truthy h))
    | .unary _ _ _ => foreign
    | .logic op (a :: b :: _) _ => given l.hasConditionals (evalLogic l fuel env op a b)
    | .logic _ _ _ => given l.hasConditionals (stop .outOfRange)
    | .cond test yes no _ => given l.hasConditionals do
      let t ← eval test
      let p ← if l.isDynamic then untag "bool" t else pure t
      match p with
      | .bool true => eval yes
      | .bool false => eval no
      | _ => pure .none
    | .compare a [op] [b] _ => given l.hasConditionals do
      let x ← eval a
      let y ← eval b
      if l.isDynamic then compareTagged x y (compareValues l op)
      else pure (.bool (← compareValues l op x y))
    | .compare _ _ _ _ => foreign
    | .block ss r _ => given l.hasConditionals do
      let _ ← evalStmts l fuel env ss
      eval r
    | .tuple es .load _ => given l.hasTuples do
      let vs ← es.mapM eval
      if l.isBlocks then newTuple vs
      else
        let t ← newList vs
        if l.isDynamic then tagValue t else pure t
    | .list es .load _ => given l.hasArrays do
      let t ← newList (← es.mapM eval)
      if l.isDynamic then tagValue t else pure t
    | .tuple _ _ _ | .list _ _ _ => foreign
    | .subscript b i .load _ => given l.hasTuples do
      let t ← eval b
      let n ← eval i
      if l.isDynamic then
        plainItem (← untag "tuple" t) (← untag "int" n)
      else if l.isBlocks || l.hasTags then getItem l fuel t n
      else if l.hasArrays then
        checkIndex t n
        plainItem t n
      else plainItem t n
    | .subscript _ _ _ _ => foreign
    | .call (.name f _) args _ => evalCall l fuel env e f args
    | .call f args _ => given l.hasFunctions do
      applyValue l fuel (← eval f) (← args.mapM eval)
    | .lambda ps body _ => given (l.hasLambdas && source) do
      let f ← newFunction "lambda" ps (.stmts [.ret body {}]) env
      if l.isDynamic then tagValue f else pure f
    | .annLambda ps _ body _ => given (l.hasTags && source) do
      newFunction "lambda" (← ofExcept ps.firsts) (.stmts [.ret body {}]) env
    | .uninitialized _ _ => given l.hasLambdas (pure .none)
    | .allocate n _ _ => given l.hasTuples (emptyCells n)
    | .allocateArray n _ _ => given l.hasArrays (emptyCells n)
    | .allocateClosure n _ a _ => given l.hasLambdas do
      newClosure (← emptyCells n) (← arityValue a)
    | .uncheckedCast b _ _ => given l.hasLambdas (eval b)
    | .closure a es _ => given (l.hasLambdas && source) do
      let vs ← es.mapM eval
      newClosure (← newList vs) (← arityValue a)
    | .global _ _ => given l.hasTuples (number 0)
    | .funRef x _ _ => given l.hasFunctions (lookup env x)
    | .inject b t _ => given (l.hasTags && source) do
      injectValue l (← eval b) t
    | .project b t _ => given (l.hasTags && source) do
      let v ← eval b
      match v with
      | .tagged payload tag _ =>
        let expected ← typeTag l t
        if ← withHeap fun h => expected.equal h tag then pure payload
        else throw (.projectMismatch v t e)
      | _ => throw (.projectMismatch v t e)
    | .tagOf b _ => given l.hasTags do
      match ← eval b with
      | .tagged _ tag _ => pure tag
      | v => throw (.untaggedUse .tagOf v)
    | .valueOf b _ _ => given l.hasTags do
      match ← eval b with
      | .tagged payload _ _ => pure payload
      | v => throw (.untaggedUse .valueOf v)
    | .cast b s t _ => given l.hasCasts do
      castValue l (← eval b) s t
    | .embedded v _ => given l.hasCasts (pure v)
    | .rawTuple es _ => given (l.hasProxies && source) do newList (← es.mapM eval)
    | .tupleProxy b reads _ _ _ => given l.hasProxies do
      let rs ← eval reads
      let t ← eval b
      if l.isBlocks then stop .unboundName else newProxiedTuple t rs
    | .listProxy b read write _ _ _ => given l.hasProxies do
      let r ← eval read
      let w ← eval write
      newProxiedList (← eval b) r w
    | .injectTuple b _ => given l.hasProxies (eval b)
    | .injectList b _ => given l.hasProxies (eval b)
    | .injectTupleProxy b _ _ => given l.hasProxies do
      let p ← eval b
      newProxiedTuple (← plainItem p (.int 0 0)) (← plainItem p (.int 1 0))
    | .injectListProxy b _ _ => given l.hasProxies do
      let p ← eval b
      let t ← plainItem p (.int 0 0)
      newProxiedList t (← plainItem p (.int 1 0)) (← plainItem p (.int 2 0))
    | .inst g _ _ => given (l == .generics) (eval g)
    | .other t => evalTree l fuel env t
termination_by structural fuel => fuel

/-- Two operands of a logical operator; the second is evaluated if the first does not decide. -/
def evalLogic (l : Language) : (fuel env : Nat) → LogicOp → Expr → Expr → Run Value
  | 0, _, _, _, _ => stop .outOfFuel
  | fuel + 1, env, op, a, b => do
    let x ← evalExpr l fuel env a
    let p ← if l.isDynamic then untag "bool" x else pure x
    match op, p with
    | .and, .bool true => evalExpr l fuel env b
    | .and, .bool false => if l.isDynamic then tagValue (.bool false) else pure (.bool false)
    | .or, .bool true => pure (.bool true)
    | .or, .bool false => evalExpr l fuel env b
    | _, _ => pure .none
termination_by structural fuel => fuel

/-- The value of a tree that is no expression. Its parts are evaluated as far as the rule for its
kind goes before it needs what is not there. -/
def evalTree (l : Language) : (fuel env : Nat) → Term → Run Value
  | 0, _, _ => stop .outOfFuel
  | fuel + 1, env, t =>
    let evalTerm (t : Term) : Run Value := do
      evalExpr l fuel env (← convert (Expr.ofTerm t))
    let foreign : Run Value := throw (.foreignExpr (.other t))
    let given (b : Bool) (rule : Run Value) : Run Value := if b then rule else foreign
    let source := !l.isBlocks
    let evalParts (t : Term) : Run (List Value) := do (← ofExcept t.items).mapM evalTerm
    match t with
    | .node .name [x] _ => given l.hasVariables (unboundTerm x)
    | .node (.record .funRef) (x :: _) _ => given l.hasFunctions (unboundTerm x)
    | .node .compare [a, ops, rs] _ => match ops.fields?, rs.fields? with
      | some [_], some [b] => given l.hasConditionals do
        let x ← evalTerm a
        let y ← evalTerm b
        if l.isDynamic then compareTagged x y fun _ _ => stop .wrongKind else stop .wrongKind
      | _, _ => foreign
    | .node .boolOp [.node (.logic op) _ _, es] _ => given l.hasConditionals do
      let a ← ofExcept (es.item 0)
      let b ← ofExcept (es.item 1)
      evalLogic l fuel env op (← convert (Expr.ofTerm a)) (← convert (Expr.ofTerm b))
    | .node .call [.node .name [.str f] _, es] _ =>
      given (l.hasFunctions && !builtins.contains f) do
        applyValue l fuel (← lookup env f) (← evalParts es)
    | .node .call [f, es] _ => given l.hasFunctions do
      applyValue l fuel (← evalTerm f) (← evalParts es)
    | .node .tuple [es, .node (.access .load) _ _] _ => given l.hasTuples do
      let vs ← evalParts es
      if l.isBlocks then newTuple vs
      else
        let t ← newList vs
        if l.isDynamic then tagValue t else pure t
    | .node .list [es, .node (.access .load) _ _] _ => given l.hasArrays do
      let t ← newList (← evalParts es)
      if l.isDynamic then tagValue t else pure t
    | .node (.record .inst) [g, _] _ => given (l == .generics) (evalTerm g)
    | .node (.record .block) [ss, r] _ => given l.hasConditionals do
      let _ ← idle l (.other ss)
      evalTerm r
    | .node (.record .closure) [a, es] _ => given (l.hasLambdas && source) do
      let vs ← evalParts es
      newClosure (← newList vs) (← arityValue a)
    | .node (.record .rawTuple) [es] _ => given (l.hasProxies && source) do
      newList (← evalParts es)
    | _ => foreign
termination_by structural fuel => fuel

/-- A call of a name: a built-in operation that the language has, or a function. -/
def evalCall (l : Language) : (fuel env : Nat) → Expr → String → List Expr → Run Value
  | 0, _, _, _, _ => stop .outOfFuel
  | fuel + 1, env, e, f, args =>
    let eval := evalExpr l fuel env
    let general : Run Value :=
      if l.hasFunctions && !builtins.contains f then do
        applyValue l fuel (← evalExpr l fuel env (.name f {})) (← args.mapM eval)
      else throw (.foreignExpr e)
    let given (b : Bool) (rule : Run Value) : Run Value := if b then rule else general
    match f, args with
    | "input_int", [] => do
      let v ← readInt
      if l.isDynamic then tagValue v else pure v
    | "len", [b] => given l.hasTuples do
      let t ← eval b
      if l.isDynamic then
        let t ← untag "tuple" t
        tagValue (← number (← plainLen t))
      else number (← plainLen t)
    | "array_len", [b] => given l.hasArrays do
      let t ← eval b
      if l.hasCasts then number (← lenOf l fuel t) else number (← plainLen t)
    | "array_load", [b, i] => given l.hasArrays do
      let t ← eval b
      let n ← eval i
      if l.hasCasts then getItem l fuel t n
      else
        checkIndex t n
        plainItem t n
    | "array_store", [b, i, v] => given l.hasArrays do
      let t ← eval b
      let n ← eval i
      if l.hasCasts then
        setItem l fuel t n (← eval v)
      else
        checkIndex t n
        plainSetItem t n (← eval v)
      pure .none
    | "arity", [g] => given l.hasLambdas do
      valueArity l (← eval g)
    | "any_load", [b, i] | "any_load_unsafe", [b, i] => given l.hasTags do
      let t ← eval b
      let n ← eval i
      match t with
      | .tagged payload _ _ => getItem l fuel payload n
      | _ => throw (.untaggedUse .load t)
    | "any_store", [b, i, v] | "any_store_unsafe", [b, i, v] => given l.hasTags do
      let t ← eval b
      let n ← eval i
      let x ← eval v
      match t with
      | .tagged payload _ _ =>
        setItem l fuel payload n x
        pure .none
      | _ => throw (.untaggedUse .store t)
    | "any_len", [b] => given l.hasTags do
      let t ← eval b
      match t with
      | .tagged payload _ _ => number (← lenOf l fuel payload)
      | _ => throw (.untaggedUse .len t)
    | "make_any", [b, t] => given l.hasTags do
      let v ← eval b
      let tag ← eval t
      match v with
      | .tagged _ _ _ =>
        if l.isBlocks then newTagged v tag else throw .alreadyTagged
      | _ => newTagged v tag
    | "exit", [] => given l.hasTags (stop (.exit 0))
    | "is_tuple_proxy", [b] => given l.hasProxies do
      match ← eval b with
      | .proxiedTuple _ _ _ => pure (.bool true)
      | _ => pure (.bool false)
    | "is_array_proxy", [b] => given l.hasProxies do
      match ← eval b with
      | .proxiedList _ _ _ _ => pure (.bool true)
      | _ => pure (.bool false)
    | "proxy_tuple_load", [b, i] | "proxy_array_load", [b, i] => given l.hasProxies do
      getItem l fuel (← eval b) (← eval i)
    | "proxy_array_get", [b, i] => given (l.hasProxies && l.isBlocks) do
      getItem l fuel (← eval b) (← eval i)
    | "proxy_tuple_len", [b] | "proxy_array_len", [b] => given l.hasProxies do
      let t ← eval b
      number (← lenOf l fuel t)
    | "proxy_array_store", [b, i, v] => given l.hasProxies do
      setItem l fuel (← eval b) (← eval i) (← eval v)
      pure .none
    | "project_array", [b] | "project_tuple", [b] => given l.hasProxies (eval b)
    | _, _ => general
termination_by structural fuel => fuel

def applyValue (l : Language) : (fuel : Nat) → Value → List Value → Run Value
  | 0, _, _ => stop .outOfFuel
  | fuel + 1, f, args => do
    let g ← if l.isDynamic then untag "function" f else pure f
    match g with
    | .closure cells _ _ =>
      if l.hasProxies then
        applyValue l fuel (← plainItem cells (.int 0 0)) (cells :: args)
      else throw (.notApplicable g)
    | .function name ps body captured _ =>
      if l.isBlocks then
        let outer := (← get).blocks
        if outer.isNone then stop .missingPart
        else
          modify fun σ => { σ with blocks := some body }
          let env ← enter captured ps args
          let result ← match ← blockAt body (.str (name ++ "_start")) with
            | .stmts code => evalStmts l fuel env code
            | _ => pure .none
          modify fun σ => { σ with blocks := outer }
          pure result
      else
        let env ← enter captured ps args
        match body with
        | .stmts ss => evalStmts l fuel env ss
        | b => idle l b
    | _ => throw (.notApplicable g)
termination_by structural fuel => fuel

/-- The item of an aggregate, through its proxies where the language has them. -/
def getItem (l : Language) : (fuel : Nat) → Value → Value → Run Value
  | 0, _, _ => stop .outOfFuel
  | fuel + 1, base, index =>
    match l.seesProxies, base with
    | true, .proxiedTuple b reads _ => do
      applyValue l fuel (← plainItem reads index) [← getItem l fuel b index]
    | true, .proxiedList b read _ _ => do
      applyValue l fuel read [← getItem l fuel b index]
    | _, _ => plainItem base index
termination_by structural fuel => fuel

/-- Write the item of an aggregate, through its proxies where the language has them. -/
def setItem (l : Language) : (fuel : Nat) → Value → Value → Value → Run Unit
  | 0, _, _, _ => stop .outOfFuel
  | fuel + 1, base, index, v =>
    match l.seesProxies, base with
    | true, .proxiedList b _ write _ => do
      setItem l fuel b index (← applyValue l fuel write [v])
    | true, .tagged payload _ _ => setItem l fuel payload index v
    | _, _ => plainSetItem base index v
termination_by structural fuel => fuel

/-- The length of an aggregate, through its proxies where the language has them. -/
def lenOf (l : Language) : (fuel : Nat) → Value → Run Nat
  | 0, _ => stop .outOfFuel
  | fuel + 1, base =>
    match l.seesProxies, base with
    | true, .proxiedTuple b _ _ => lenOf l fuel b
    | true, .proxiedList b _ _ _ => lenOf l fuel b
    | _, _ => plainLen base
termination_by structural fuel => fuel

def evalStmt (l : Language) : (fuel env : Nat) → Stmt → List Stmt → Run Value
  | 0, _, _, _ => stop .outOfFuel
  | fuel + 1, env, s, rest =>
    let eval := evalExpr l fuel env
    let next := evalStmts l fuel env
    let foreign : Run Value := throw (.foreignStmt s)
    let given (b : Bool) (rule : Run Value) : Run Value := if b then rule else foreign
    let source := !l.isBlocks
    match s with
    | .expr (.call (.name "print" _) [e] _) _ => do
      print (← eval e)
      next rest
    | .expr e _ => do
      let _ ← eval e
      next rest
    | .assign [.name x _] e _ => given l.hasVariables do
      assign env x (← eval e)
      next rest
    | .assign [.subscript b i _ _] e _ => given l.hasTuples do
      let t ← eval b
      let n ← eval i
      if l.isDynamic then
        plainSetItem (← untag "tuple" t) (← untag "int" n) (← eval e)
      else if l.hasArrays && source then
        checkIndex t n
        plainSetItem t n (← eval e)
      else
        plainSetItem t n (← eval e)
      next rest
    | .assign [.call (.name "any_load" _) [b, i] _] e _ => given (l.hasProxies && source) do
      setItem l fuel (← eval b) (← eval i) (← eval e)
      next rest
    | .assign [.other (.node .name [x] _)] e _ => given l.hasVariables do
      bindTerm env x (← eval e)
      next rest
    | .assign _ _ _ => foreign
    | .annAssign target _ e _ _ => given (l.hasLambdas && source) do
      let v ← eval e
      match nameOf? target with
      | some x => bindTerm env x v
      | none => stop .missingPart
      next rest
    | .pass _ => given (l.hasLambdas && source) (next rest)
    | .collect _ _ => given l.hasTuples (next rest)
    | .ite test yes no n => given l.hasConditionals do
      let t ← eval test
      let p ← if l.isDynamic then untag "bool" t else pure t
      match p with
      | .bool true => if n.tuples.contains 1 then stop .wrongKind else next (yes ++ rest)
      | .bool false => if n.tuples.contains 2 then stop .wrongKind else next (no ++ rest)
      | _ => pure .none
    | .loop test body [] n => given l.hasLoops do
      let t ← eval test
      let p ← if l.isDynamic then untag "bool" t else pure t
      if ← withHeap fun h => p.truthy h then
        if n.tuples.contains 1 then stop .wrongKind
        else
          let _ ← next (body ++ s :: rest)
          pure .none
      else next rest
    | .ret e _ => given (l.hasFunctions && source) (eval e)
    | .fundef f ps body _ _ _ _ => given (l.hasFunctions && source) do
      let v ← newFunction f (← ofExcept ps.declared) body env
      let v ← if l.isDynamic then tagValue v else pure v
      assign env f v
      next rest
    | .other t => evalStmtTree l fuel env t rest
    | _ => foreign
termination_by structural fuel => fuel

/-- Run a tree that is no statement, as far as the rule for its kind goes. -/
def evalStmtTree (l : Language) : (fuel env : Nat) → Term → List Stmt → Run Value
  | 0, _, _, _ => stop .outOfFuel
  | fuel + 1, env, t, rest =>
    let evalTerm (t : Term) : Run Value := do
      evalExpr l fuel env (← convert (Expr.ofTerm t))
    let foreign : Run Value := throw (.foreignStmt (.other t))
    let given (b : Bool) (rule : Run Value) : Run Value := if b then rule else foreign
    let follow (t : Term) : Run Value := match t with
      | .list ts => do
        evalStmts l fuel env ((← convert (Stmt.ofTerms ts)) ++ rest)
      | _ => stop .wrongKind
    match t with
    | .node .ifStmt [test, yes, no] _ => given l.hasConditionals do
      let v ← evalTerm test
      let p ← if l.isDynamic then untag "bool" v else pure v
      match p with
      | .bool true => follow yes
      | .bool false => follow no
      | _ => pure .none
    | .node .whileStmt [test, _, no] _ => match no.fields? with
      | some [] => given l.hasLoops do
        let v ← evalTerm test
        let p ← if l.isDynamic then untag "bool" v else pure v
        if ← withHeap fun h => p.truthy h then stop .wrongKind
        else evalStmts l fuel env rest
      | _ => foreign
    | .node .functionDef [f, ps, _, _, _, _] _ => given (l.hasFunctions && !l.isBlocks) do
      let _ ← ofExcept (Params.declared (.ofTerm ps))
      bindTerm env f .none
      evalStmts l fuel env rest
    | _ => foreign
termination_by structural fuel => fuel

def evalStmts (l : Language) : (fuel env : Nat) → List Stmt → Run Value
  | 0, _, _ => stop .outOfFuel
  | fuel + 1, env, ss =>
    if l.isBlocks then
      match ss with
      | [] => pure .none
      | [t] => evalTail l fuel env t
      | s :: rest => do
        let _ ← evalStmt l fuel env s []
        evalStmts l fuel env rest
    else
      match ss with
      | [] => if l == .generics then pure .none else pure (.int 0 sharedId)
      | s :: rest =>
        if l == .generics then
          match s with
          | .importFrom _ | .pass _ => evalStmts l fuel env rest
          | .assign [.name _ _] (.call (.name "TypeVar" _) _ _) _ => evalStmts l fuel env rest
          | _ => evalStmt l fuel env s rest
        else evalStmt l fuel env s rest
termination_by structural fuel => fuel

def evalTail (l : Language) : (fuel env : Nat) → Stmt → Run Value
  | 0, _, _ => stop .outOfFuel
  | fuel + 1, env, s =>
    let jump (label : Term) : Run Value := do
      match (← get).blocks with
      | none => stop .missingPart
      | some b => match ← blockAt b label with
        | .stmts code => evalStmts l fuel env code
        | _ => pure .none
    match s with
    | .ret e _ => evalExpr l fuel env e
    | .ite test [yes] [no] _ => match target? yes, target? no with
      | some yes, some no => do
        match ← evalExpr l fuel env test with
        | .bool true => jump yes
        | .bool false => jump no
        | _ => pure .none
      | _, _ => throw (.foreignTail s)
    | .tailCall f args _ =>
      if l.hasFunctions then evalExpr l fuel env (.call f args {}) else throw (.foreignTail s)
    | .other (.node (.record .tailCall) [f, args] _) =>
      if l.hasFunctions then evalTree l fuel env (.leaf .call [f, args])
      else throw (.foreignTail s)
    | s => match target? s with
      | some label => jump label
      | none => throw (.foreignTail s)
termination_by structural fuel => fuel

end

/-! ## Running programs -/

open Run

def defaultFuel : Nat := 50000

def foreignProgram (lead : String) (p : Program) : Run Unit := do
  stop (failureOf (← withHeap fun h => do .ok (lead ++ (← p.dump h baseIndent))))

def bindDefinitions (env : Nat) : List Stmt → Run Unit
  | [] => pure ()
  | .fundef f ps body _ _ _ _ :: ds => do
    let xs ← ofExcept ps.firsts
    assign env f (← newFunction f xs body env)
    bindDefinitions env ds
  | .other (.node .functionDef [f, ps, _, _, _, _] _) :: ds => do
    let _ ← ofExcept (Params.firsts (.ofTerm ps))
    bindTerm env f .none
    bindDefinitions env ds
  | _ :: ds => bindDefinitions env ds

def applyMain (l : Language) (fuel env : Nat) : Run Unit := do
  match Bindings.get? (← envAt .wrongKind env) "main" with
  | some f => let _ ← applyValue l fuel f []
  | none => pure ()

def runBlocks (l : Language) (fuel : Nat) (b : Body) : Run Unit := do
  let env ← newEnv []
  modify fun σ => { σ with blocks := some b }
  match ← blockAt b (.str "start") with
  | .stmts code => let _ ← evalStmts l fuel env code
  | _ => pure ()

def runDefinitions (l : Language) (fuel : Nat) (ds : List Stmt) : Run Unit := do
  let env ← newEnv []
  bindDefinitions env ds
  modify fun σ => { σ with blocks := some (.blocks []) }
  let _ ← applyValue l fuel (← lookup env "main") []

def runProgram (l : Language) (fuel : Nat) (p : Program) : Run Unit := do
  if !l.isBlocks then
    match p with
    | .module ss _ =>
      let env ← newEnv []
      let _ ← evalStmts l fuel env ss
      if l.hasFunctions then applyMain l fuel env
    | .other (.node .module [b] _) =>
      let _ ← idle l (.other b)
    | p =>
      if l.hasVariables then foreignProgram "interp: unexpected " p
      else foreignProgram "error in interp, unexpected " p
  else if l.hasFunctions then
    match p with
    | .defs ds _ => runDefinitions l fuel ds
    | .other (.node (.record .defs) [ds] _) =>
      runDefinitions l fuel ((← ofExcept ds.items).map .other)
    | p => foreignProgram "interp: unexpected " p
  else
    match p with
    | .blocks bs _ => runBlocks l fuel (.blocks bs)
    | .other (.node (.record .blocks) [b] _) => runBlocks l fuel (.other b)
    | _ => pure ()

namespace Lines

/-- Run a statement of the language of integers; an output ends its line. -/
def runStmt (fuel : Nat) : Stmt → Run Unit
  | .expr (.call (.name "print" _) [e] _) _ => do
    print (← evalExpr .integers fuel 0 e)
    modify fun σ => { σ with console := σ.console.write "\n" }
  | .expr e _ => do
    let _ ← evalExpr .integers fuel 0 e
  | s => throw (.foreignStmt s)

def runProgram (fuel : Nat) : Program → Run Unit
  | .module ss _ => ss.forM (runStmt fuel)
  | .other (.node .module [b] _) => do
    (← ofExcept b.items).forM fun t => runStmt fuel (.other t)
  | p => foreignProgram "error in interp, unexpected " p

end Lines

end CompilerKit
