import CompilerKit.Bindings
import CompilerKit.Console
import CompilerKit.Value.Ops
import CompilerKit.X86.Tree

/-!
# The machine

Registers, variables, globals and memory are tables that start empty, except for the two registers
of the stack. Reading an entry that is not there puts an empty one in.
-/

namespace CompilerKit.X86

open Bindings

/-- What a place of the machine holds. -/
inductive Cell where
  | empty
  | word (n : Int)
  | code (label : String)
  | flag (name : String)
  | other (c : Literal)
  deriving BEq, DecidableEq

namespace Cell

def toTerm : Cell → Term
  | empty => .null
  | word n => .int n
  | code l => .ofRecord .funPointer [.str l]
  | flag s => .str s
  | other c => .scalar c

def ofTerm : Term → Cell
  | .int n => word n
  | .str s => flag s
  | .null => empty
  | .scalar c => other c
  | .node (.record .funPointer) [.str l] _ => code l
  | _ => empty

def toValue : Cell → Value
  | empty => .none
  | word n => .int n 0
  | code l => .other (.ofRecord .funPointer [.str l]) 0
  | flag s => .str s 0
  | other c => .ofLiteral c 0

def dump (c : Cell) : String := ParseTree.written (c.toTerm.dump baseIndent)

def text (c : Cell) : String := ParseTree.written (c.toTerm.text baseIndent)

/-- The number that arithmetic takes the cell for. -/
def word? : Cell → Option Int
  | word n => some n
  | other c => c.asInt?
  | _ => none

end Cell

inductive MachineError where
  | fault (f : Fault)
  | invalidImmediate (n : Int)
  | unknownImmediate (t : ParseTree)
  | unreadable (t : ParseTree)
  | unwritable (t : ParseTree)
  | noTarget (label : String)
  | noBlock (label : String)
  | noGlobal (name : String)
  | unknownInstruction (name : String)
  | incomparable (t : ParseTree)

def MachineError.toFault : MachineError → Fault
  | fault f => f
  | invalidImmediate n => .failure ("('eval_imm: invalid immediate:', " ++ toString n ++ ")")
  | unknownImmediate t => .failure ("('eval_imm: unknown immediate:', " ++ t.dump ++ ")")
  | unreadable t => .machine ("Unknown arg in eval_arg: " ++ t.dump)
  | unwritable t => .machine ("Unknown arg in store_arg: " ++ t.dump)
  | noTarget l => .failure ("jump to invalid target " ++ l)
  | noBlock l => .missingKey (Text.quote l)
  | noGlobal x => .missingKey (Text.quote x)
  | unknownInstruction x => .machine ("Unknown instruction: " ++ x)
  | incomparable t => .machine ("failed comparison: " ++ t.dump)

/-- The state of the machine. What has been printed is kept apart from its log. -/
structure Machine where
  registers : List (String × Cell) := [("rbp", .word 1000), ("rsp", .word 1000)]
  memory : List (Cell × Cell) := []
  vars : List (String × Cell) := []
  globals : List (String × Cell) := []
  tokens : List (String × String) := []
  output : List Cell := []
  console : Console := {}
  logging : Bool := false
  deriving Inhabited

abbrev Emulation := EStateM MachineError Machine

namespace Machine

/-! ## Tables -/

def register (m : Machine) (r : String) : Cell := (get? m.registers r).getD .empty

def variableCell (m : Machine) (x : String) : Cell := (get? m.vars x).getD .empty

def cellAt (m : Machine) (a : Cell) : Cell := (get? m.memory a).getD .empty

def setRegister (m : Machine) (r : String) (c : Cell) : Machine :=
  { m with registers := put m.registers r c }

def setVariable (m : Machine) (x : String) (c : Cell) : Machine :=
  { m with vars := put m.vars x c }

def setCell (m : Machine) (a c : Cell) : Machine := { m with memory := put m.memory a c }

def setGlobal (m : Machine) (x : String) (c : Cell) : Machine :=
  { m with globals := put m.globals x c }

/-- Enter an empty register for a name that is read for the first time. -/
def touch (m : Machine) (b : Base) : Machine :=
  if has m.registers b.name then m
  else { m with
    registers := put m.registers b.name .empty
    tokens := match b.kind with
      | some k => put m.tokens b.name k
      | none => m.tokens }

/-- The contents of a machine: all places that are not empty, by tables. -/
def tables (m : Machine) : List (String × List (Term × Term)) :=
  let rows (es : List (Term × Cell)) : List (Term × Term) :=
    (es.filter fun e => e.2 != .empty).map fun (k, c) => (k, c.toTerm)
  let named (es : List (String × Cell)) : List (Term × Term) :=
    rows (es.map fun (x, c) => (.str x, c))
  [("registers", rows (m.registers.map fun (r, c) => (match get? m.tokens r with
      | some k => ParseTree.ofToken { kind := k, text := r }
      | none => .str r, c))),
    ("memory", rows (m.memory.map fun (a, c) => (a.toTerm, c))),
    ("variables", named m.vars), ("globals", named m.globals)]

/-! ## The log -/

/-- The rows of the memory by address. Addresses of different kinds have no order. -/
def memoryRows (m : Machine) : Except MachineError (List (Cell × Cell)) :=
  let isWord (r : Cell × Cell) : Bool := r.1.word?.isSome
  let isFlag (r : Cell × Cell) : Bool := match r.1 with
    | .flag _ => true
    | _ => false
  if m.memory.length ≤ 1 then .ok m.memory
  else if m.memory.all isWord then
    .ok (m.memory.mergeSort fun a b => (a.1.word?.getD 0) ≤ (b.1.word?.getD 0))
  else if m.memory.all isFlag then
    .ok (m.memory.mergeSort fun a b => a.1.text ≤ b.1.text)
  else .error (.fault .wrongKind)

def stateText (m : Machine) : Except MachineError String := do
  let memory ← m.memoryRows
  let rows := memory.map (fun (a, c) => ("mem " ++ a.text, c))
    ++ m.registers.map (fun (r, c) => ("reg " ++ r, c))
    ++ m.vars.map (fun (x, c) => ("var " ++ x, c))
    ++ m.globals
  pure ("Location | Value\n" ++ String.join (rows.map fun (x, c) => x ++ " | " ++ c.text ++ "\n"))

end Machine

namespace Emulation

/-- Write a line to the log, if one is kept. -/
def log (line : String) : Emulation Unit :=
  modify fun m => if m.logging then { m with console := m.console.write (line ++ "\n") } else m

/-- Write the whole state to the log. This fails if addresses have no order. -/
def logState : Emulation Unit := do
  let m ← get
  if m.logging then
    match m.stateText with
    | .ok s => set { m with console := m.console.write s }
    | .error e => throw e

def readRegister (b : Base) : Emulation Cell :=
  modifyGet fun m => (m.register b.name, m.touch b)

def readNamed (r : String) : Emulation Cell := readRegister { name := r }

def readVariable (x : String) : Emulation Cell :=
  modifyGet fun m =>
    (m.variableCell x, if has m.vars x then m else m.setVariable x .empty)

/-- Code is no address. -/
def checkAddress : Cell → Emulation Unit
  | .code _ => throw (.fault .wrongKind)
  | _ => pure ()

def readCell (a : Cell) : Emulation Cell := do
  checkAddress a
  modifyGet fun m => (m.cellAt a, if has m.memory a then m else m.setCell a .empty)

def writeCell (a c : Cell) : Emulation Unit := do
  checkAddress a
  modify fun m => m.setCell a c

def wordOf (c : Cell) : Emulation Int :=
  match c.word? with
  | some n => pure n
  | none => throw (.fault .wrongKind)

end Emulation

open Emulation

/-- The number that a constant is read as. -/
def wholeNumber : Term → Except Fault Int
  | .bool b => .ok (if b then 1 else 0)
  | .int n => .ok n
  | .scalar (.float d) =>
    if d.isFinite then
      let n := if d.scale < 0 then d.significand >>> d.scale.natAbs
        else d.significand <<< d.scale.natAbs
      .ok (if d.isNegative then -(n : Int) else n)
    else if d.isNaN then .error .wrongValue
    else .error .overflow
  | t => match t.str? with
    | some s => match Text.readInt? s with
      | some n => .ok n
      | none => .error .wrongValue
    | none => .error .wrongKind

/-- The number, if it is a word. -/
def Immediate.value : Immediate → Except MachineError Int
  | number v => match wholeNumber v with
    | .error f => .error (.fault f)
    | .ok n => if Word.inRange n then .ok n else .error (.invalidImmediate n)
  | nested => .error (.fault .wrongKind)
  | unknown t => .error (.unknownImmediate t)

def Immediate.eval (v : Immediate) : Emulation Int :=
  match v.value with
  | .ok n => pure n
  | .error e => throw e

/-- The address at an offset from a register, wrapped into a word. -/
def addressOf (v : Immediate) (b : Base) : Emulation Cell := do
  let start ← readRegister b
  let n ← v.eval
  pure (.word (Word.add (← wordOf start) n))

/-- Globals are relative to the program counter only. -/
def checkGlobalBase (base : String) : Emulation Unit :=
  if base == "rip" then pure () else throw (.fault .broken)

/-- The number that the operand is, or what its place holds. -/
def Argument.read (t : ParseTree) : Argument → Emulation Cell
  | register r => readNamed r
  | .variable x => readVariable x
  | immediate v => do pure (.word (← v.eval))
  | negative v => do pure (.word (Word.neg (← v.eval)))
  | offset v b => do readCell (← addressOf v b)
  | global x base => do
    checkGlobalBase base
    match get? (← get).globals x with
    | some c => pure c
    | none => throw (.noGlobal x)
  | direct _ | other => throw (.unreadable t)

/-- Write to the place of the operand. -/
def Argument.write (t : ParseTree) (c : Cell) : Argument → Emulation Unit
  | register r => modify fun m => m.setRegister r c
  | .variable x => modify fun m => m.setVariable x c
  | offset v b => do writeCell (← addressOf v b) c
  | direct b => do writeCell (← readRegister b) c
  | global x base => do
    checkGlobalBase base
    modify fun m => m.setGlobal x c
  | immediate _ | negative _ | other => throw (.unwritable t)

def readOperand (t : ParseTree) : Emulation Cell := (Argument.ofTree t).read t

def writeOperand (t : ParseTree) (c : Cell) : Emulation Unit := (Argument.ofTree t).write t c

end CompilerKit.X86
