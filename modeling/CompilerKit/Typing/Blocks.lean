import CompilerKit.Typing.Source

/-!
# Checking programs of blocks

The rules of the type systems of the block languages. Blocks are checked in the order in which they
are written, and jumps come before and after the assignments that they depend on; so the blocks are
checked again until the types of the variables no longer change. A variable that nothing is known
about has the type of what never yields a value.
-/

namespace CompilerKit

open Check

/-- The first type if it is known, and the second one otherwise. -/
def combineTypes (s t : Ty) : Ty :=
  match s, t with
  | .bottom, t => t
  | s, _ => s

/-- The type of a variable, which becomes known if it was not. -/
def variableType (x : String) : Check Ty := do
  let t := (← find? x).getD .bottom
  bind x t
  pure t

/-- The type of an atomic operand. -/
def blockAtom (c : TypeSystem) : Expr → Check Ty
  | .name x _ => variableType x
  | .const (.bool _) _ => pure .bool
  | .const (.int _ _) _ => pure .int
  | .global x n =>
    if c.hasTuples then pure .int
    else refuse (.unexpected "error in type_check_atm, unexpected " (.expr (.global x n)))
  | .other (.node .name [x] _) => if x.hashable then pure .bottom else stop .wrongKind
  | e => refuse (.unexpected "error in type_check_atm, unexpected " (.expr e))

/-- The names of built-in operations that calls are checked for by their own rules. -/
def blockBuiltins : List String := ["array_len", "array_store", "array_load"]

mutual

/-- The type of an expression, as far as it is known. -/
def blockExpr (c : TypeSystem) (e : Expr) : Check Ty := do
  let unexpected : Check Ty := refuse (.unexpected "error in type_check_exp, unexpected " (.expr e))
  let given (b : Bool) (rule : Check Ty) : Check Ty := if b then rule else unexpected
  match e with
  | .const .none n => if c.hasFunctions then pure .void else blockAtom c (.const .none n)
  | .name _ _ => blockAtom c e
  | .const _ _ => blockAtom c e
  | .arith l .mult r _ => given c.hasArrays do
    equal c (← blockExpr c l) .int (.expr l)
    equal c (← blockExpr c r) .int (.expr r)
    pure .int
  | .arith l op r _ => given (op == .add || op == .sub) do
    equal c (← blockAtom c l) .int (.expr e)
    equal c (← blockAtom c r) .int (.expr e)
    pure .int
  | .unary .neg a _ => do
    equal c (← blockAtom c a) .int (.expr e)
    pure .int
  | .unary .not a _ => do
    equal c (← blockExpr c a) .bool (.expr e)
    pure .bool
  | .compare l [op] [r] _ =>
    if op == .same && c.hasTuples then do
      equal c (← blockExpr c l) (← blockExpr c r) (.expr e)
      pure .bool
    else if op == .eq || op == .notEq then do
      equal c (← blockAtom c l) (← blockAtom c r) (.expr e)
      pure .bool
    else do
      equal c (← blockAtom c l) .int (.expr l)
      equal c (← blockAtom c r) .int (.expr r)
      pure .bool
  | .block ss r _ => do
    blockStmts c ss
    blockExpr c r
  | .allocate _ t _ => given c.hasTuples (pure t)
  | .allocateArray _ t _ => given c.hasArrays (pure t)
  | .allocateClosure _ t _ _ => given c.hasLambdas (pure t)
  | .uninitialized t _ => given c.hasLambdas (pure t)
  | .uncheckedCast b t _ => given c.hasLambdas do
    let _ ← blockExpr c b
    pure t
  | .funRef x _ _ => given c.hasFunctions (lookup x)
  | .subscript b i .load _ =>
    if c.hasArrays then do
      let s ← blockExpr c b
      let t ← blockExpr c i
      equal c t .int (.expr i)
      match s with
      | .tuple ts _ => match i with
        | .const k _ => typeAtValue ts k
        | _ => tell fun _ => .ok "subscript required constant integer index"
      | .list t => pure t
      | .bottom => pure .bottom
      | s => refuse (.unusable "subscript expected a tuple, not " s)
    else match i with
    | .const k _ => given c.hasTuples do
      let s ← blockAtom c b
      match s with
      | .tuple ts _ => typeAtValue ts k
      | .bottom => pure .bottom
      | s => refuse (.unusable "error, expected a tuple, not " s)
    | _ => unexpected
  | .valueOf b t _ => given c.hasTags do
    let _ ← blockExpr c b
    pure t
  | .tagOf b _ => given c.hasTags do
    equal c (← blockExpr c b) .any (.expr e)
    pure .int
  | .injectTuple b _ => given c.hasProxies do
    match ← blockExpr c b with
    | .tuple ts b => pure (.proxyOrTuple ts b)
    | _ => refuse (.unexpected "type_check error " (.expr e))
  | .injectTupleProxy b t _ => given c.hasProxies do
    let _ ← blockExpr c b
    match t with
    | .tuple ts b => pure (.proxyOrTuple ts b)
    | _ => refuse (.unexpected "type_check error " (.expr e))
  | .injectList b _ => given c.hasProxies do
    match ← blockExpr c b with
    | .list t => pure (.proxyOrList t)
    | _ => refuse (.unexpected "type_check error " (.expr e))
  | .injectListProxy b t _ => given c.hasProxies do
    let _ ← blockExpr c b
    match t with
    | .list u => pure (.proxyOrList u)
    | _ => refuse (.unexpected "type_check error " (.expr e))
  | .call f args _ =>
    let general : Check Ty := do
      let s ← blockExpr c f
      let ts ← blockExprs c args
      match s with
      | .function ps r _ =>
        (ts.zip ps).forM fun (t, p) => equal c p t (.expr e)
        pure r
      | .bottom => pure .bottom
      | s => refuse (.unusable "type_check_exp: in call, unexpected " s)
    let orGeneral (b : Bool) (rule : Check Ty) : Check Ty :=
      if b then rule else given c.hasFunctions general
    match f, args with
    | .name "input_int" _, [] => pure .int
    | .name "len" _, [a] => given c.hasTuples do
      match ← blockAtom c a with
      | .tuple _ _ => pure .int
      | .bottom => pure .bottom
      | t => refuse (.unusable "error, expected a tuple, not " t)
    | .name "array_len" _, [a] => given c.hasArrays do
      match ← blockAtom c a with
      | .list _ => pure .int
      | .bottom => pure .bottom
      | t => refuse (.unusable "error, expected a list, not " t)
    | .name "array_load" _, [a, i] => given c.hasArrays do
      let s ← blockExpr c a
      equal c (← blockExpr c i) .int (.expr i)
      match s with
      | .list u => pure u
      | .bottom => pure .bottom
      | s => refuse (.unusable "array_load: unexpected " s)
    | .name "array_store" _, [a, i, v] => given c.hasArrays do
      let s ← blockExpr c a
      let u ← blockExpr c v
      equal c (← blockExpr c i) .int (.expr i)
      match s with
      | .list w =>
        equal c w u (.expr e)
        pure .void
      | .bottom => pure .void
      | s => refuse (.unusable "type_check_exp: expected a list, not " s)
    | .name "any_load" _, [a, _] => orGeneral c.hasTags do
      equal c (← blockExpr c a) .any (.expr e)
      pure .any
    | .name "any_len" _, [a] => orGeneral c.hasTags do
      equal c (← blockExpr c a) .any (.expr e)
      pure .int
    | .name "make_any" _, [v, t] => orGeneral c.hasTags do
      let _ ← blockExpr c v
      equal c (← blockExpr c t) .int (.expr e)
      pure .any
    | .name "exit" _, [] => orGeneral c.hasTags (pure .bottom)
    | .name "arity" _, [a] => orGeneral c.hasTags do
      match ← blockExpr c a with
      | .function _ _ _ | .tuple [.function _ _ _] _ | .bottom => pure .int
      | t => refuse (.unusable "type_check_exp arity unexpected " t)
    | .name g _, _ => given (c.hasFunctions && !blockBuiltins.contains g) general
    | _, _ => given c.hasFunctions general
  | .other (.node .name [x] m) => blockAtom c (.other (.node .name [x] m))
  | .other (.node (.record .funRef) (x :: _) _) => given c.hasFunctions (unbound x)
  | _ => unexpected

def blockExprs (c : TypeSystem) : List Expr → Check (List Ty)
  | [] => pure []
  | e :: es => do
    pure ((← blockExpr c e) :: (← blockExprs c es))

/-- Add what a statement says about its variables. -/
def blockStmt (c : TypeSystem) (s : Stmt) : Check Unit :=
  let unexpected : Check Unit :=
    refuse (.unexpected "error in type_check_stmt, unexpected " (.stmt s))
  match s with
  | .assign [.subscript b i .store _] e _ =>
    if c.hasArrays then do
      let t ← blockAtom c b
      let u ← blockAtom c e
      let k ← blockExpr c i
      equal c k .int (.expr i)
      match t with
      | .tuple ts _ => match i with
        | .const k _ => do
          equal c (← typeAtValue ts k) u (.stmt s)
        | _ => tell fun _ => .ok "subscript required constant integer index"
      | .list t => equal c t u (.stmt s)
      | .bottom => pure ()
      | t => refuse (.unusable "type_check_stmt: expected a tuple, not " t)
    else match c.hasTuples, i with
    | true, .const k _ => do
      let t ← blockExpr c b
      let u ← blockAtom c e
      match t with
      | .tuple ts _ => do
        equal c (← typeAtValue ts k) u (.stmt s)
      | .bottom => pure ()
      | t => refuse (.unusable "type_check_stmt: expected a tuple, not " t)
    | _, _ => do
      let _ ← blockExpr c e
      stop .missingPart
  | .assign [.call (.name "proxy_array_load" _) [b, i] _] e _ =>
    if c.hasProxies then do
      let t ← blockExpr c b
      let u ← blockExpr c e
      equal c (← blockExpr c i) .int (.expr i)
      match t with
      | .proxyOrList t => equal c t u (.stmt s)
      | .bottom => pure ()
      | t => refuse (.unusable "type_check_stmts: expected a proxy-or-list, not " t)
    else do
      let _ ← blockExpr c e
      stop .missingPart
  | .assign [.name x _] e _ => do
    let t ← blockExpr c e
    let u := (← find? x).getD .bottom
    equal c u t (.stmt s)
    bind x (combineTypes t u)
  | .assign [target] e _ => do
    let _ ← blockExpr c e
    match target with
    | .other t => match t.field? "id" with
      | some x => if x.hashable then pure () else stop .wrongKind
      | none => stop .missingPart
    | _ => stop .missingPart
  | .expr (.call (.name "print" _) [a] _) _ => do
    equal c (← blockExpr c a) .int (.stmt s)
  | .expr e _ => do
    let _ ← blockExpr c e
  | .collect _ _ => if c.hasTuples then pure () else unexpected
  | _ => unexpected

def blockStmts (c : TypeSystem) : List Stmt → Check Unit
  | [] => pure ()
  | s :: ss => do
    blockStmt c s
    blockStmts c ss

end

def isJump : Stmt → Bool
  | .goto _ _ | .other (.node (.record .goto) [_] _) => true
  | _ => false

/-- The type of what a block ends with. -/
def blockTail (c : TypeSystem) (s : Stmt) : Check Ty := do
  let unexpected : Check Ty := refuse (.unexpected "error in type_check_tail, unexpected" (.stmt s))
  match s with
  | .ite (.compare l [_] [r] _) [yes] [no] _ =>
    if isJump yes && isJump no then do
      equal c (← blockAtom c l) (← blockAtom c r) (.stmt s)
      pure .absent
    else unexpected
  | .ret e _ => do
    let t ← blockExpr c e
    pure (if c.hasFunctions then t else .absent)
  | .tailCall f args _ =>
    if c.hasFunctions then blockExpr c (.call f args {}) else unexpected
  | s => if isJump s then pure .absent else unexpected

/-- One pass over the blocks of a program. Only the last block has its last statement looked at. -/
def blocksPass (c : TypeSystem) : List Block → Check Unit
  | [] => stop .unsetName
  | [.mk _ code] => do
    blockStmts c code.dropLast
    match code.getLast? with
    | some s => let _ ← blockTail c s
    | none => stop .outOfRange
  | .mk _ code :: rest => do
    blockStmts c code.dropLast
    blocksPass c rest

/-- One pass over the blocks of a function. -/
def bodyPass (c : TypeSystem) (result : Ty) : List Block → Check Unit
  | [] => pure ()
  | .mk _ code :: rest => do
    blockStmts c code.dropLast
    match code.getLast? with
    | some s => match ← blockTail c s with
      | .absent => pure ()
      | t => equal c result t (.stmt s)
    | none => pure ()
    bodyPass c result rest

/-- Repeat a pass until the types of the variables no longer change. There is no result if they
never stop changing. -/
def settle (pass : Check Unit) (env : TypeTable) : Option (Except CheckError TypeTable) :=
  match pass.run env with
  | .error e => some (.error e)
  | .ok (_, after) =>
    if Bindings.same after env then some (.ok after)
    else by
      -- another pass, from the table that this one has made
      apply settle
      · exact pass
      · exact after
partial_fixpoint

/-- A check that may refuse a program and that may go on forever. -/
abbrev Settling := ExceptT CheckError Option

def checkDefinition (c : TypeSystem) (env : TypeTable) (s : Stmt) : Settling Stmt :=
  match s with
  | .fundef f ps body ds result k n => do
    let table ← CheckError.ofExcept (scope (← CheckError.ofExcept ps.pairs))
    match body with
    | .blocks bs =>
      let types ← ExceptT.mk (settle (bodyPass c result bs) (Bindings.putAll env table))
      pure (.fundef f ps body ds result k { n with types := some types.toTerm })
    | _ => throw (.fault .missingPart)
  | s => throw (.unexpected "type_check_def: unexpected " (.stmt s))

/-- The types that functions are declared with. -/
def declareDefinitions (env : TypeTable) : List Stmt → Except CheckError TypeTable
  | [] => .ok env
  | .fundef f ps _ _ result _ _ :: ds => do
    let params ← CheckError.ofExcept ps.pairs
    declareDefinitions (Bindings.put env f (.function (params.map (·.2)) result)) ds
  | _ :: ds => declareDefinitions env ds

/-- Check a program of blocks: passes go over its functions until no type changes. -/
def checkBlocks (c : TypeSystem) (p : Program) : Settling Program :=
  if c.hasFunctions then
    match p with
    | .defs ds n => do
      let env ← declareDefinitions [] ds
      pure (.defs (← ds.mapM (checkDefinition c env)) n)
    | .other (.node (.record .defs) _ _) => throw (.fault .wrongKind)
    | p => throw (.unexpected "type_check: unexpected " (.program p))
  else
    match p with
    | .blocks bs n => do
      let types ← ExceptT.mk (settle (blocksPass c bs) [])
      pure (.blocks bs { n with types := some types.toTerm })
    | .other (.node (.record .blocks) _ _) => throw (.fault .missingPart)
    | p => throw (.unexpected "error in type_check, unexpected " (.program p))

end CompilerKit
