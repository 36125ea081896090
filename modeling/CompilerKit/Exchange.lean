import CompilerKit.Typing.Blocks
import CompilerKit.Typing.Gradual
import CompilerKit.Typing.Host
import CompilerKit.Compile
import CompilerKit.Eval.Rules
import CompilerKit.Build.Workspace
import CompilerKit.Queue

/-!
# The toolbox

Small operations that are asked for one after the other, on arguments that are trees. They share an
input, a counter of names, a journal and an indentation.
-/

namespace CompilerKit

/-! ## Checking of parts that are given as trees -/

inductive Checker where
  | source (c : TypeSystem)
  | gradual
  | host (c : HostSystem)
  | blocks (c : TypeSystem)

inductive CheckCall where
  | program | expr | atom | stmts | stmt | tail
  | exprAgainst | stmtsAgainst
  | equal | mustBeConsistent | consistent | join | combine | closure
  | genericVariables | substitute | matching | hint
  deriving BEq

def Checker.system : Checker → TypeSystem
  | source c | blocks c => c
  | gradual => .gradual
  | host _ => .vars

/-- Check a whole program: the program with what was recorded. A check of blocks that goes on
forever is never answered. -/
def checkProgram (k : Checker) (p : Program) : Except CheckError Program :=
  match k with
  | .source c => checkModule c p
  | .gradual => gradualModule p
  | .host c => do
    hostModule c p
    pure p
  | .blocks c => (checkBlocks c p).run.getD (.error (.fault .outOfFuel))

def splitTable : Term → TypeTable × List (Term × Term)
  | .dict es => es.foldr (fun (k, v) (table, rest) => match k with
    | .str x => ((x, .ofTerm v) :: table, rest)
    | k => (table, (k, v) :: rest)) ([], [])
  | _ => ([], [])

def joinTable (given : Term) (table : TypeTable) : Term :=
  match given with
  | .dict _ => .dict ((table.map fun (x, t) => (.str x, t.toTerm)) ++ (splitTable given).2)
  | t => t

def checkSequence (k : Checker) (want : Option Ty) (xs : List Stmt) : Check (List Stmt × Ty) :=
  match k with
  | .source c => checkStmts c want xs
  | .gradual => do return (← gradualStmts (want.getD .absent) xs, .absent)
  | .host c => do
    hostStmts c xs
    pure (xs, .absent)
  | .blocks c => do
    blockStmts c xs
    pure (xs, .absent)

def checkForeign (k : Checker) (t : Term) : Check Ty :=
  match k with
  | .source c => do
    foreignBody "type_check_stmts: unexpected " (.other t)
    pure c.emptyType
  | .host _ => do
    foreignBody "" (.other t)
    pure .absent
  | .gradual => do
    foreignStmts (.other t)
    pure .absent
  | .blocks _ => do
    match ← Check.ofExcept t.items with
    | [] => pure .absent
    | x :: _ => Check.refuse (.unexpected "error in type_check_stmt, unexpected " (.term x))

def checkField (k : Checker) (want : Option Ty) (ss : Term) :
    Reading (Check (Term × Ty)) := do
  match ← Stmt.ofField ss with
  | some (xs, isTuple) =>
    let h := (← get).heap
    pure do
      let (xs, t) ← checkSequence k want xs
      let ts := xs.map (Stmt.toTerm h)
      pure (if isTuple then .tuple ts else .list ts, t)
  | none => pure do
    pure (ss, ← checkForeign k ss)

def CheckCall.run (k : Checker) (call : CheckCall) (args : List Term) :
    Reading (Except CheckError (Term × List Term)) := do
  let c := k.system
  match call, args with
  | .expr, [e, env] | .atom, [e, env] =>
    let x ← Expr.ofTerm e
    let h := (← get).heap
    let m : Check (Expr × Ty) := match k with
      | .source c => checkExpr c none x
      | .gradual => gradualExpr none x
      | .host c => do return (x, ← hostExpr c x)
      | .blocks c => do return (x, ← if call == .expr then blockExpr c x else blockAtom c x)
    pure do
      let ((x, t), table) ← m.run (splitTable env).1
      pure (t.toTerm, [x.toTerm h, joinTable env table])
  | .stmts, ss :: env :: rest =>
    let want := match k with
      | .gradual => some (Ty.ofTerm (rest.headD .null))
      | _ => none
    let m ← checkField k want ss
    pure do
      let ((ss, t), table) ← m.run (splitTable env).1
      pure (t.toTerm, [ss, joinTable env table])
  | .stmt, s :: env :: rest =>
    let x ← Stmt.ofTerm s
    let h := (← get).heap
    let m : Check Stmt := match k with
      | .gradual => gradualStmt (.ofTerm (rest.headD .null)) x
      | k => do
        blockStmt k.system x
        pure x
    pure do
      let (x, table) ← m.run (splitTable env).1
      pure (.null, [x.toTerm h, joinTable env table])
  | .tail, [s, env] =>
    let x ← Stmt.ofTerm s
    let h := (← get).heap
    pure do
      let (t, table) ← (blockTail c x).run (splitTable env).1
      pure (t.toTerm, [x.toTerm h, joinTable env table])
  | .exprAgainst, [e, t, env] =>
    let x ← Expr.ofTerm e
    let h := (← get).heap
    let m := match k with
      | .gradual => gradualExpr (some (.ofTerm t)) x
      | k => checkExpr k.system (some (.ofTerm t)) x
    pure do
      let ((x, _), table) ← m.run (splitTable env).1
      pure (.null, [x.toTerm h, t, joinTable env table])
  | .stmtsAgainst, [ss, t, env] =>
    let m ← checkField k (some (.ofTerm t)) ss
    pure do
      let ((ss, _), table) ← m.run (splitTable env).1
      pure (.null, [ss, t, joinTable env table])
  | .equal, [s, t, e] =>
    pure do
      Ty.equate c (.term e) (.ofTerm s) (.ofTerm t)
      pure (.null, args)
  | .mustBeConsistent, [s, t, e] =>
    pure do
      let _ ← (requireConsistent (.ofTerm s) (.ofTerm t) (.term e)).run []
      pure (.null, args)
  | .consistent, [s, t] => pure (.ok (.bool ((Ty.ofTerm s).consistent (.ofTerm t)), args))
  | .join, [s, t] => pure (.ok (((Ty.ofTerm s).join (.ofTerm t)).toTerm, args))
  | .combine, [s, t] => pure (.ok ((combineTypes (.ofTerm s) (.ofTerm t)).toTerm, args))
  | .closure, [t] => pure do return ((← closureType (.ofTerm t)).toTerm, args)
  | .genericVariables, [t] =>
    pure do
      pure (.set (((← (Ty.ofTerm t).genericVariables).mergeSort fun x y => x ≤ y).map .str), args)
  | .substitute, [t, m] =>
    pure do return ((← (Ty.ofTerm t).substitute (splitTable m).1).toTerm, args)
  | .matching, [s, t, m, e] =>
    pure do
      let table ← Ty.matchTypes (.term e) (splitTable m).1 (.ofTerm s) (.ofTerm t)
      pure (.null, [s, t, joinTable m table, e])
  | .hint, [t] => pure do return ((← t.resolve c).toTerm, args)
  | .program, [p] =>
    let x ← Program.ofTerm p
    let h := (← get).heap
    pure do
      pure (.null, [(← checkProgram k x).toTerm h])
  | _, _ => pure (.error (.fault .wrongKind))

/-! ## Compilation of parts that are given as trees -/

inductive CompileCall where
  | pass (p : Pass)
  | atomExpr | atomStmt | operand | instrsOfStmt
  | homeOperand | homeInstr | homeInstrs | patchInstr | patchInstrs
  | nothing

def Artifact.ofTerm (t : Term) : Reading Artifact :=
  match t with
  | .node (.record .assembly) [code] _ => pure (.assembly { code := .ofTerm code })
  | t => do pure (.program (← Program.ofTerm t))

def X86.Homes.ofTerm : Term → Except Fault X86.Homes
  | .dict es => .ok (es.map fun (k, v) => (.ofTerm k, .ofTerm v))
  | _ => .error .wrongKind

def X86.Homes.toTerm (hs : X86.Homes) : Term :=
  .dict (hs.map fun (a, b) => (a.toTerm, b.toTerm))

def instrsTerm (is : List X86.Instr) : Term := .list (is.map X86.Instr.toTerm)

def readApart {α : Type} (m : Reading α) : α × Heap :=
  let (a, σ) := m.run {}
  (a, σ.heap)

def CompileCall.run (b : Backend) (call : CompileCall) (args : List Term) :
    Compile (Term × List Term) := do
  let result (x : Term) : Compile (Term × List Term) := pure (x, args)
  /- Only a variable needs a table of places. -/
  let withHomes (home : Term) (f : X86.Homes → Term × X86.Homes) :
      Compile (Term × List Term) := do
    match X86.Homes.ofTerm home with
    | .ok hs =>
      let (x, after) := f hs
      pure (x, args.take 1 ++ [after.toTerm])
    | .error e =>
      let (x, after) := f []
      if after.isEmpty then pure (x, args) else throw e
  match call, args with
  | .pass s, [p] =>
    let (a, h) := readApart (Artifact.ofTerm p)
    let q := (← s.run b h a).toTerm h
    pure (q, [if b == .frames && s != .atoms && s != .select then q else p])
  | .atomExpr, [e, atomic] =>
    let (x, h) := readApart (Expr.ofTerm e)
    let (x, ts) ← atomize atomic.truthy x
    result (.tuple [x.toTerm h, .list (ts.map fun (y, e) => .tuple [y.toTerm h, e.toTerm h])])
  | .atomStmt, [s] =>
    let (x, h) := readApart (Stmt.ofTerm s)
    result (.list ((← atomizeStmt x).map (Stmt.toTerm h)))
  | .operand, [e] =>
    let (x, h) := readApart (Expr.ofTerm e)
    result (← liftM (selectAtom h x)).toTerm
  | .instrsOfStmt, [s] =>
    let (x, h) := readApart (Stmt.ofTerm s)
    match ← liftM (selectStmt? h x) with
    | some is => result (instrsTerm is)
    | none => result .null
  | .homeOperand, [a, home] => withHomes home fun hs =>
    let (place, hs) := X86.homeOf hs (.ofTerm a)
    (place.toTerm, hs)
  | .homeInstr, [i, home] => withHomes home fun hs =>
    let (j, hs) := X86.homeInstr hs (.ofTerm i)
    (j.toTerm, hs)
  | .homeInstrs, [xs, home] =>
    let is ← liftM xs.items
    withHomes home fun hs =>
      let (js, hs) := X86.homeInstrs hs (is.map X86.Instr.ofTerm)
      (instrsTerm js, hs)
  | .patchInstr, [i] => do result (instrsTerm (← liftM (X86.patchInstr (.ofTerm i))))
  | .patchInstrs, [xs] => do
    let is ← liftM xs.items
    result (instrsTerm (← liftM (X86.patchInstrs (is.map X86.Instr.ofTerm))))
  | .nothing, _ => if b == .registers then result .null else throw .missingPart
  | _, _ => throw .wrongKind

/-! ## Evaluation of parts that are given as trees -/

inductive EvalCall where
  | program | expr | stmts | stmt | tail
  | apply | arity | item | setting | length
  | cast | project | inject
  | tagging | untagging | tagOfType

/-- A call that is ready to run, and what to show of its arguments afterwards. -/
structure Ready where
  run : Run Term
  after : List (Store → Term)

namespace Ready

def still (t : Term) (_ : Store) : Term := t

def valueTerm (v : Value) (σ : Store) : Term := v.toTerm σ.heap

def asTerm (m : Run Value) : Run Term := do
  let v ← m
  Run.withHeap fun h => v.toTerm h

def asNull (m : Run Unit) : Run Term := do
  m
  pure .null

def impossible (f : Fault) : Ready := { run := Run.stop f, after := [] }

end Ready

open Ready

/-- The number of an environment that is not there. -/
def noEnv : Nat := 0x100000000

/-- The environment that a tree gives, and how it is shown. Only a table can be one. -/
def readEnvironment : Term → Reading (Nat × (Store → Term))
  | .dict es => do
    let i ← readEnv es
    let rest := es.filter fun (k, _) => match k with
      | .str _ => false
      | _ => true
    pure (i, fun σ =>
      .dict (((σ.envs.getD i []).map fun (x, v) => (.str x, v.toTerm σ.heap)) ++ rest))
  | t => pure (noEnv, still t)

def sequenceTerm (isTuple : Bool) (ts : List Term) : Term := if isTuple then .tuple ts else .list ts

def Stmt.cutOff : Stmt → Stmt
  | .ite t y o n => .ite t y o { n with tuples := [1, 2] }
  | .loop t b o n => .loop t b o { n with tuples := [1, 2] }
  | s => s

/-- The payload of a value whose tag is the expected one, which may be no text. -/
def untagAs (expected : Term) (v : Value) : Run Value :=
  match expected, v with
  | .str s, v => untag s v
  | t, .tagged payload tag _ => do
    let w ← Run.convert (Value.ofTerm t)
    if ← Run.withHeap fun h => tag.equal h w then pure payload else Run.stop .wrongKind
  | _, _ => Run.stop .wrongKind

def EvalCall.ready (l : Language) (call : EvalCall) (args : List Term) : Reading Ready := do
  match call, args with
  | .program, [p] =>
    let x ← Program.ofTerm p
    pure { run := asNull (runProgram l defaultFuel x), after := [fun σ => x.toTerm σ.heap] }
  | .expr, [e, env] =>
    let x ← Expr.ofTerm e
    let (env, shown) ← readEnvironment env
    pure { run := asTerm (evalExpr l defaultFuel env x)
           after := [fun σ => x.toTerm σ.heap, shown] }
  | .stmts, [ss, env] =>
    let xs ← Stmt.ofField ss
    let (env, shown) ← readEnvironment env
    match xs with
    | some (xs, b) =>
      pure { run := asTerm (evalStmts l defaultFuel env xs)
             after := [fun σ => sequenceTerm b (xs.map (Stmt.toTerm σ.heap)), shown] }
    | none => pure { run := asTerm (idle l (.other ss)), after := [still ss, shown] }
  | .stmt, [s, env, k] =>
    let x ← Stmt.ofTerm s
    let (env, shown) ← readEnvironment env
    let (y, xs) ← match k with
      | .list ts => do pure (x, ← Stmt.ofTerms ts)
      | .tuple ts => do pure (x.cutOff, ← Stmt.ofTerms ts)
      | _ => pure (x.cutOff, [])
    pure { run := asTerm (evalStmt l defaultFuel env y xs)
           after := [fun σ => x.toTerm σ.heap, shown, still k] }
  | .tail, [s, env] =>
    let x ← Stmt.ofTerm s
    let (env, shown) ← readEnvironment env
    pure { run := asTerm (evalTail l defaultFuel env x)
           after := [fun σ => x.toTerm σ.heap, shown] }
  | .apply, [f, vs, e] =>
    let g ← Value.ofTerm f
    match vs.items? with
    | some ts =>
      let xs ← Value.ofTerms ts
      let shown (σ : Store) : Term := match vs with
        | .list _ => .list (xs.map fun x => x.toTerm σ.heap)
        | .tuple _ => .tuple (xs.map fun x => x.toTerm σ.heap)
        | vs => vs
      pure { run := asTerm (applyValue l defaultFuel g xs), after := [valueTerm g, shown, still e] }
    | none => pure (impossible .wrongKind)
  | .arity, [v] =>
    let x ← Value.ofTerm v
    pure { run := asTerm (valueArity l x), after := [valueTerm x] }
  | .item, [b, i] =>
    let x ← Value.ofTerm b
    let n ← Value.ofTerm i
    pure { run := asTerm (getItem l defaultFuel x n), after := [valueTerm x, valueTerm n] }
  | .setting, [b, i, v] =>
    let x ← Value.ofTerm b
    let n ← Value.ofTerm i
    let w ← Value.ofTerm v
    pure { run := asNull (setItem l defaultFuel x n w)
           after := [valueTerm x, valueTerm n, valueTerm w] }
  | .length, [b] =>
    let x ← Value.ofTerm b
    pure { run := do return .int (← lenOf l defaultFuel x), after := [valueTerm x] }
  | .cast, [v, s, t] =>
    let x ← Value.ofTerm v
    pure { run := asTerm (castValue l x (.ofTerm s) (.ofTerm t))
           after := [valueTerm x, still s, still t] }
  | .project, [v, t] =>
    let x ← Value.ofTerm v
    pure { run := asTerm (projectValue l x (.ofTerm t)), after := [valueTerm x, still t] }
  | .inject, [v, t] =>
    let x ← Value.ofTerm v
    pure { run := asTerm (injectValue l x (.ofTerm t)), after := [valueTerm x, still t] }
  | .tagging, [v] =>
    let x ← Value.ofTerm v
    pure { run := asTerm (tagValue x), after := [valueTerm x] }
  | .untagging, [v, t, e] =>
    let x ← Value.ofTerm v
    pure { run := asTerm (untagAs t x), after := [valueTerm x, still t, still e] }
  | .tagOfType, [t] =>
    pure { run := asTerm (typeTag l (.ofTerm t)), after := [still t] }
  | _, _ => pure (impossible .wrongKind)

mutual

def Term.showable : Term → Bool
  | .scalar c => match c.text with
    | .ok _ => true
    | .error _ => false
  | .list ts | .tuple ts | .set ts => Term.showables ts
  | .dict es => Term.showableEntries es
  | .node _ fs _ => Term.showables fs
  | .cycle _ => true

def Term.showables : List Term → Bool
  | [] => true
  | t :: ts => t.showable && Term.showables ts

def Term.showableEntries : List (Term × Term) → Bool
  | [] => true
  | (k, v) :: es => k.showable && v.showable && Term.showableEntries es

end

def Term.less : Less Term := fun a b =>
  let values : Reading (Value × Value) := do
    pure (← Value.ofTerm a, ← Value.ofTerm b)
  let ((x, y), σ) := values.run {}
  Value.ordered σ.heap .lt x y

inductive Tool where
  | addWords | subWords | mulWords | xorWords | negWord | signed | unsigned | isWord
  | left | right | parent | less | align | truth
  | fresh | label | isSource | assigns | sequence | unzip
  | readInt | startTelling | tell | tellForms | indent | dedent | indentation
  | runProgram | runStmt | evalExpr
  | equalTypes | numberTree | operandTree | instrTree | codeTree
  | nothing

structure Desk where
  store : Store := {}
  journal : Journal := {}
  names : Nat := 0
  indent : Nat := baseIndent

def Term.asInt? : Term → Option Int
  | .scalar c => c.asInt?
  | _ => none

def onNumber (f : Int → Int) : List Term → Except Fault Term
  | [a] => match a.asInt? with
    | some x => .ok (.int (f x))
    | none => .error .wrongKind
  | _ => .error .wrongKind

def onNumbers (f : Int → Int → Int) : List Term → Except Fault Term
  | [a, b] => match a.asInt?, b.asInt? with
    | some x, some y => .ok (.int (f x y))
    | _, _ => .error .wrongKind
  | _ => .error .wrongKind

def onEitherNumber (f : Int → Int) (g : Float → Float) : List Term → Except Fault Term
  | [.scalar (.float d)] => .ok (.scalar (.float (.ofFloat (g d.toFloat))))
  | args => onNumber f args

def floatParent (x : Float) : Float :=
  let y := x - 1.0
  if (Text.Double.ofFloat y).isFinite then (y / 2.0).floor else 0.0 / 0.0

def floatOf : Term → Except Fault Text.Double
  | .scalar c => do .ok (.ofFloat (← (Value.ofLiteral c 0).toFloat))
  | _ => .error .wrongKind

def alignTerms (n a : Term) : Except Fault Term :=
  match n.asInt?, a.asInt? with
  | some x, some y => match Word.align? x y with
    | some z => .ok (if z = x then n else .int z)
    | none => .error .divisionByZero
  | _, _ => do
    let x ← floatOf n
    let y ← floatOf a
    if y.toFloat == 0.0 then .error .divisionByZero
    else
      let r := (x.remainder y).toFloat
      if r == 0.0 then .ok n
      else .ok (.scalar (.float (.ofFloat (x.toFloat + (y.toFloat - r)))))

def assignPairs (t : Term) : Except Fault Term := do
  .ok (.list ((← (← t.items).mapM Term.pair).map fun (x, e) => .leaf .assign [.list [x], e]))

def Term.size (t : Term) : Except Fault Nat := do .ok (← t.items).length

namespace Tool

def apply : Tool → List Term → Except Fault Term
  | addWords, args => onNumbers Word.add args
  | subWords, args => onNumbers Word.sub args
  | mulWords, args => onNumbers Word.mul args
  | xorWords, args => onNumbers Word.xor args
  | negWord, args => onNumber Word.neg args
  | signed, args => onNumber Word.wrap args
  | unsigned, args => onNumber Word.unsigned args
  | isWord, [x] => .ok (.bool (x.asInt?.any Word.inRange))
  | left, args => onEitherNumber TreeIndex.left (fun x => 2.0 * x + 1.0) args
  | right, args => onEitherNumber TreeIndex.right (fun x => 2.0 * (x + 1.0)) args
  | parent, args => onEitherNumber TreeIndex.parent floatParent args
  | less, [a, b] => do .ok (.bool (← Term.less a b))
  | align, [n, a] => alignTerms n a
  | truth, [x] => .ok (.int x.truthy.toNat)
  | label, [x] => .ok x
  | isSource, [x] => match x.str? with
    | some s => .ok (.bool (Path.isSource s))
    | none => .error .wrongKind
  | assigns, [x] => assignPairs x
  | sequence, [x, e] => do
    if (← x.size) = 0 then .ok e else .ok (.ofRecord .block [← assignPairs x, e])
  | unzip, [x] => do
    let ps ← (← x.items).mapM Term.pair
    .ok (.tuple [.list (ps.map (·.1)), .list (ps.map (·.2))])
  | equalTypes, [a, b, e] => match hostEqual (.ofTerm a) (.ofTerm b) (.term e) with
    | .ok _ => .ok .null
    | .error e => .error (e.toFault #[])
  | numberTree, [v] => .ok (X86.numberTree v).toTerm
  | operandTree, [a] => do .ok (← (X86.Operand.ofTerm a).tree).toTerm
  | instrTree, [i] => do .ok (← (X86.Instr.ofTerm i).tree).toTerm
  | codeTree, [p] => do
    match ← X86.codeTree? p with
    | some t => .ok t.toTerm
    | none => .ok .null
  | nothing, _ => .error .missingPart
  | _, _ => .error .wrongKind

def use (d : Desk) (tool : Tool) (args : List Term) : Except Fault Term × Desk :=
  let told (r : Except Fault Unit × Journal) : Except Fault Term × Desk :=
    (r.1.map fun _ => Term.null, { d with journal := r.2 })
  let run (m : Run Term) : Except Fault Term × Desk := match m.run d.store with
    | .ok t σ => (.ok t, { d with store := σ })
    | .error e σ => (.error (e.toFault σ.heap), { d with store := σ })
  let named (x : String) : Except Fault Term × Desk :=
    (.ok (.str (freshName x d.names)), { d with names := d.names + 1 })
  match tool, args with
  | fresh, [] => named "tmp"
  | fresh, [x] => match x.str? with
    | some s => named s
    | none => (.error .missingPart, d)
  | readInt, [] =>
    let (r, console) := d.store.console.readInt
    (r.map Term.int, { d with store := { d.store with console } })
  | startTelling, [] => (.ok .null, { d with journal := { d.journal with enabled := true } })
  | tell, [x] => told (d.journal.noteText d.indent x)
  | tellForms, [x] => told (d.journal.noteForms d.indent x)
  | indent, [] => (.ok .null, { d with indent := d.indent + 2 })
  | dedent, [] => (.ok .null, { d with indent := d.indent - 2 })
  | indentation, [] => (.ok (.str (blanks d.indent)), d)
  | runProgram, [p] => run do
    Lines.runProgram defaultFuel (← Run.convert (Program.ofTerm p))
    pure .null
  | runStmt, [s] => run do
    Lines.runStmt defaultFuel (← Run.convert (Stmt.ofTerm s))
    pure .null
  | evalExpr, [e] => run do
    let v ← CompilerKit.evalExpr .integers defaultFuel 0 (← Run.convert (Expr.ofTerm e))
    Run.withHeap fun h => v.toTerm h
  | tool, args => (tool.apply args, d)

end Tool

end CompilerKit
