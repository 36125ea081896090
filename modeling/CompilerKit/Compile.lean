import CompilerKit.Console
import CompilerKit.Syntax.Tree
import CompilerKit.X86.Tree

/-!
# The passes of the compiler

* `Pass`: the passes, in the order in which they are run.
* `Pass.run`: run a pass on a program. The backend with register allocation has only its first
  passes; the others yield nothing.
-/

namespace CompilerKit

/-!
## Atomic operands

The first pass of the compiler of the language of variables: every operand becomes a name or a
constant, and what it was is computed into a temporary before.
-/

abbrev Temporary := Expr × Expr

/-- A pass of the compiler: it draws fresh names from a counter and may fail. -/
abbrev Compile := StateT Nat (Except Fault)

namespace Compile

def fresh (base : String) : Compile String := modifyGet fun n => (freshName base n, n + 1)

def temporary (before : List Temporary) (e : Expr) : Compile (Expr × List Temporary) := do
  let x := Expr.name (← fresh "tmp") {}
  pure (x, before ++ [(x, e)])

end Compile

open Compile

/-- Make the operands of an expression atomic, and the expression itself if `atomic`. -/
def atomize (atomic : Bool) (e : Expr) : Compile (Expr × List Temporary) :=
  match e with
  | .const _ _ => pure (e, [])
  | .name _ _ => pure (e, [])
  | .other (.node .name _ _) => pure (e, [])
  | .call (.name "input_int" _) [] _ => if atomic then temporary [] e else pure (e, [])
  | .unary .neg a _ => do
    let (a, before) ← atomize true a
    if atomic then temporary before (.unary .neg a {}) else pure (.unary .neg a {}, before)
  | .arith l op r _ => do
    let (l, first) ← atomize true l
    let (r, second) ← atomize true r
    let e := Expr.arith l op r {}
    if atomic then temporary (first ++ second) e else pure (e, first ++ second)
  | _ => throw (.failure "unhandled case")

def assignments (ts : List Temporary) : List Stmt := ts.map fun (x, e) => .assign [x] e {}

def atomizeStmt : Stmt → Compile (List Stmt)
  | .expr (.call (.name "print" _) [e] _) _ => do
    let (e, ts) ← atomize true e
    pure (assignments ts ++ [.expr (.call (.name "print" {}) [e] {}) {}])
  | .expr e _ => do
    let (e, ts) ← atomize false e
    pure (assignments ts ++ [.expr e {}])
  | .assign [.name x _] e _ => do
    let (e, ts) ← atomize false e
    pure (assignments ts ++ [.assign [.name x {}] e {}])
  | _ => throw (.failure "unhandled case")

def atomizeStmts : List Stmt → Compile (List Stmt)
  | [] => pure []
  | s :: ss => do
    pure ((← atomizeStmt s) ++ (← atomizeStmts ss))

/-!
## Instruction selection

Statements with atomic operands become instructions over variables. The heap holds the constants
that are sequences.
-/

open X86 (Instr Operand)

def selectAtom (h : Heap) : Expr → Except Fault Operand
  | .const c _ => .ok (.immediate (c.toTerm h))
  | .name x _ => .ok (.variable x)
  | .other (.node .name [x] _) => .ok (.other (.ofRecord .variable [x]))
  | _ => .error (.failure "invalid input")

/-- The instructions that assign an expression to a variable. An addition whose operand is the
variable itself fails, and so does a subtraction from it. -/
def selectAssign (h : Heap) (x : String) : Expr → Except Fault (List Instr)
  | .const c _ => .ok [.op "movq" [.immediate (c.toTerm h), .variable x]]
  | .name y _ => .ok [.op "movq" [.variable y, .variable x]]
  | .call (.name "input_int" _) [] _ =>
    .ok [.call "read_int" (.int 0), .op "movq" [.reg "rax", .variable x]]
  | .unary .neg a _ => do
    if isVariable a then pure [.op "negq" [.variable x]]
    else
      pure [.op "movq" [← selectAtom h a, .variable x], .op "negq" [.variable x]]
  | .arith l .add r _ => do
    if isVariable l then
      let _ ← selectAtom h r
      throw .wrongKind
    else if isVariable r then
      let _ ← selectAtom h l
      throw .wrongKind
    else
      let second ← selectAtom h r
      pure [.op "movq" [second, .variable x], .op "addq" [← selectAtom h l, .variable x]]
  | .arith l .sub r _ => do
    if isVariable l then
      let _ ← selectAtom h r
      throw .wrongKind
    else
      let first ← selectAtom h l
      pure [.op "movq" [first, .variable x], .op "subq" [← selectAtom h r, .variable x]]
  | _ => .error (.failure "unhandled case")
where
  isVariable : Expr → Bool
    | .name y _ => x == y
    | _ => false

/-- The instructions of a statement; none for a statement without a rule. -/
def selectStmt? (h : Heap) : Stmt → Except Fault (Option (List Instr))
  | .expr (.call (.name "print" _) [e] _) _ => do
    pure (some [.op "movq" [← selectAtom h e, .reg "rdi"], .call "print_int" (.int 1)])
  | .expr (.call (.name "input_int" _) [] _) _ => .ok (some [.call "read_int" (.int 0)])
  | .expr _ _ => .ok (some [])
  | .assign [.name x _] e _ => do pure (some (← selectAssign h x e))
  | _ => .ok none

def selectStmts (h : Heap) : List Stmt → Except Fault (List Instr)
  | [] => .ok []
  | s :: ss => do
    match ← selectStmt? h s with
    | none => throw .wrongKind
    | some is => pure (is ++ (← selectStmts h ss))

end CompilerKit

namespace CompilerKit.X86

/-!
## Homes for variables

Every variable gets a place in the frame, in the order in which the variables first occur.
-/

/-- The places of the variables, in the order in which they were given. -/
abbrev Homes := List (Operand × Operand)

namespace Homes

def get? (homes : Homes) (x : Operand) : Option Operand := homes.lookup x

def next (homes : Homes) : Operand := .deref "rbp" (.int (-(homes.length : Int) * 8 - 8))

def place (homes : Homes) (x : Operand) : Operand × Homes :=
  match homes.get? x with
  | some place => (place, homes)
  | none => (homes.next, homes ++ [(x, homes.next)])

end Homes

/-- The place of an operand, which a variable gets if it has none yet. What is neither a variable
nor a place nor a constant has no place. -/
def homeOf (homes : Homes) : Operand → Operand × Homes
  | .immediate v => (.immediate v, homes)
  | .reg r => (.reg r, homes)
  | .byteReg r => (.byteReg r, homes)
  | .deref r n => (.deref r n, homes)
  | .variable x => homes.place (.variable x)
  | .other t => match t with
    | .node (.record .variable) _ _ => homes.place (.other t)
    | .node (.record .reg) _ _ | .node (.record .byteReg) _ _ | .node (.record .deref) _ _ =>
      (.other t, homes)
    | _ => (.other .null, homes)

def homesOf (homes : Homes) : List Operand → List Operand × Homes
  | [] => ([], homes)
  | a :: as =>
    let (place, homes) := homeOf homes a
    let (places, homes) := homesOf homes as
    (place :: places, homes)

def homeInstr (homes : Homes) : Instr → Instr × Homes
  | .op name args =>
    let (args, homes) := homesOf homes args
    (.op name args, homes)
  | i => (i, homes)

def homeInstrs (homes : Homes) : List Instr → List Instr × Homes
  | [] => ([], homes)
  | i :: is =>
    let (j, homes) := homeInstr homes i
    let (js, homes) := homeInstrs homes is
    (j :: js, homes)

/-- The size of a frame with `n` places, a multiple of sixteen. -/
def frameSize (n : Nat) : Int := if n % 2 = 0 then n * 8 else n * 8 + 8

def assignHomes (p : Assembly) : Except Fault Assembly := do
  let is ← p.code.listed
  let (is, homes) := homeInstrs [] is
  pure { code := .flat is, stackSpace := some (frameSize homes.length) }

/-!
## Encodable instructions and the frame

An instruction has at most one operand in memory, and a large constant does not go to memory
directly; both go through a scratch register.
-/

/-- The constant is too large to be stored directly. Only numbers can be compared. -/
def isLarge : Term → Except Fault Bool
  | .int n => .ok (decide (0x10000 < n))
  | .bool _ => .ok false
  | .scalar (.float d) => .ok (d.compareInt 0x10000 == some .gt)
  | _ => .error .wrongKind

def patchInstr : Instr → Except Fault (List Instr)
  | .op name [.deref r m, .deref s n] =>
    .ok [.op "movq" [.deref r m, .reg "rax"], .op name [.reg "rax", .deref s n]]
  | .op name [.immediate c, .deref s n] => do
    if ← isLarge c then
      pure [.op "movq" [.immediate c, .reg "rax"], .op name [.reg "rax", .deref s n]]
    else pure [.op name [.immediate c, .deref s n]]
  | i => .ok [i]

def patchInstrs : List Instr → Except Fault (List Instr)
  | [] => .ok []
  | i :: is => do
    pure ((← patchInstr i) ++ (← patchInstrs is))

def patch (p : Assembly) : Except Fault Assembly := do
  let is ← patchInstrs (← p.code.listed)
  pure { p with code := .flat is }

/-- Put the code that sets up and takes down the frame around a program. -/
def frame (p : Assembly) : Except Fault Assembly :=
  match p.stackSpace with
  | none => .error .missingPart
  | some n =>
    match p.code with
    | .flat is =>
      let before : List Instr := [.op "pushq" [.reg "rbp"], .op "movq" [.reg "rsp", .reg "rbp"],
        .op "subq" [.immediate (.int n), .reg "rsp"]]
      let after : List Instr := [.op "addq" [.immediate (.int n), .reg "rsp"],
        .op "popq" [.reg "rbp"], .other (.str "    retq\n")]
      .ok { p with code := .flat (before ++ is ++ after) }
    | _ => .error .wrongKind

end CompilerKit.X86

namespace CompilerKit

inductive Pass where
  | atoms
  | select
  | homes
  | patch
  | frame
  deriving BEq

inductive Backend where
  | frames
  | registers
  deriving BEq

/-- What the passes go over: a program, assembly code, or anything else, which may have been given
the size of a frame. -/
inductive Artifact where
  | program (p : Program)
  | assembly (p : X86.Assembly)
  | other (t : Term) (stackSpace : Option Int)

namespace Artifact

def toTerm (h : Heap) : Artifact → Term
  | program p => p.toTerm h
  | assembly p => p.toTerm
  | other t _ => t

def none : Artifact := other .null Option.none

def stackSpace? : Artifact → Option Int
  | program _ => Option.none
  | assembly p => p.stackSpace
  | other _ n => n

def onBody (f : X86.Assembly → Except Fault X86.Assembly) (t : Term) (space : Option Int) :
    Except Fault Artifact :=
  match t.field? "body" with
  | Option.none => .error .missingPart
  | some body => do
    let p ← f { code := .ofTerm body, stackSpace := space }
    .ok (other (t.setField "body" p.code.toTerm) p.stackSpace)

def onAssembly (h : Heap) (f : X86.Assembly → Except Fault X86.Assembly) :
    Artifact → Except Fault Artifact
  | program p => onBody f (p.toTerm h) Option.none
  | assembly p => do .ok (assembly (← f p))
  | other t n => onBody f t n

end Artifact

namespace Pass

def name : Pass → String
  | atoms => "remove_complex_operands"
  | select => "select_instructions"
  | homes => "assign_homes"
  | .patch => "patch_instructions"
  | .frame => "prelude_and_conclusion"

def all : List Pass := [.atoms, .select, .homes, .patch, .frame]

def ofName? (s : String) : Option Pass := all.find? fun p => p.name == s

def run (backend : Backend) (h : Heap) : Pass → Artifact → Compile Artifact
  | atoms, .program (.module ss _) => do pure (.program (.module (← atomizeStmts ss) {}))
  | atoms, .program (.other (.node .module [b] _)) => do
    let ts ← liftM b.items
    pure (.program (.module (← atomizeStmts (ts.map .other)) {}))
  | atoms, _ => throw (.failure "unhandled case")
  | select, .program (.module ss _) => do
    let is ← liftM (selectStmts h ss)
    pure (.assembly { code := .flat is })
  | select, .program (.other (.node .module [b] _)) => do
    let is ← liftM (selectStmts h ((← liftM b.items).map .other))
    pure (.assembly { code := .flat is })
  | select, _ => pure .none
  | homes, p => later (p.onAssembly h X86.assignHomes)
  | .patch, p => later (p.onAssembly h X86.patch)
  | .frame, p => later (p.onAssembly h X86.frame)
where
  later (result : Except Fault Artifact) : Compile Artifact :=
    match backend with
    | .frames => liftM result
    | .registers => pure .none

end Pass

end CompilerKit
