import CompilerKit.Parse.Parser
import CompilerKit.X86.Machine

/-!
# Running code

Code trees are run instruction by instruction. A jump runs the block that it goes to and then leaves
the block that it came from; a call runs a block and comes back.
-/

namespace CompilerKit.X86

/-!
## The grammar of assembly texts

Assembly programs and lists of instructions, as texts.
-/

def instructionRules : String := "
?instr: \"movq\" arg \",\" arg -> movq
      | \"addq\" arg \",\" arg -> addq
      | \"subq\" arg \",\" arg -> subq
      | \"cmpq\" arg \",\" arg -> cmpq
      | \"xorq\" arg \",\" arg -> xorq
      | \"leaq\" arg \",\" arg -> leaq
      | \"negq\" arg -> negq
      | \"jmp\" CNAME -> jmp
      | \"jmp\" \"*\" arg -> indirect_jmp
      | \"je\" CNAME -> je
      | \"jl\" CNAME -> jl
      | \"jle\" CNAME -> jle
      | \"jg\" CNAME -> jg
      | \"jge\" CNAME -> jge
      | \"sete\" arg -> sete
      | \"setl\" arg -> setl
      | \"setle\" arg -> setle
      | \"setg\" arg -> setg
      | \"setge\" arg -> setge
      | \"movzbq\" arg \",\" arg -> movzbq
      | \"xorq\" arg \",\" arg -> xorq
      | \"callq\" CNAME -> callq
      | \"callq\" \"*\" arg -> indirect_callq
      | \"pushq\" arg -> pushq
      | \"popq\" arg -> popq
      | \"retq\" -> retq
"

def operandRules : String := "
?arg: \"$\" atom -> int_a
    | \"%\" reg -> reg_a
    | \"#\" CNAME -> var_a
    | \"(\" \"%\" reg \")\" -> direct_mem_a
    | atom \"(\" \"%\" reg \")\" -> mem_a
    | CNAME \"(\" \"%\" reg \")\" -> global_val_a

?atom: NUMBER -> int_a
     | \"-\" atom  -> neg_a

!?reg: \"rsp\" | \"rbp\" | \"rax\" | \"rbx\" | \"rcx\" | \"rdx\" | \"rsi\" | \"rdi\"
     | \"r8\" | \"r9\" | \"r10\" | \"r11\" | \"r12\" | \"r13\" | \"r14\" | \"r15\"
     | \"al\" | \"rip\"
"

def terminalRules : String := "
%import common.NUMBER
%import common.CNAME

%import common.WS
%ignore WS
"

def programGrammar : String :=
  instructionRules ++ "
block: \".globl\" CNAME
     |  \".align\" NUMBER
     | CNAME \":\" (instr)*
" ++ operandRules ++ "
prog: block*
" ++ terminalRules

def instructionsGrammar : String :=
  instructionRules ++ "
instrs: instr*
" ++ operandRules ++ terminalRules

def makeParser (grammar start : String) : Parsing Parser :=
  Parser.make grammar [("start", .str start), ("parser", .str "lalr")]

def programParser : Parsing Parser := makeParser programGrammar "prog"

def instructionsParser : Parsing Parser := makeParser instructionsGrammar "instrs"

def treeWith (parser : Parsing Parser) (text : String) : Parsing ParseTree := do
  match ← (← parser).parse none text with
  | .tree t => pure t
  | .forest => throw (.fault .broken)

def parseProgram (text : String) : Parsing ParseTree := treeWith programParser text

def parseInstructions (text : String) : Parsing ParseTree := treeWith instructionsParser text

open Emulation

abbrev Blocks := List (String × List ParseTree)

/-- Whether the next instruction of the block is run. -/
inductive Flow where
  | next
  | leave

/-- The register that holds the outcome of the last comparison. -/
def flagsRegister : String := "EFLAGS"

namespace Condition

/-- A jump is made after a comparison with an outcome. Without a comparison no condition holds. -/
def jumps (c : Condition) (flags : Cell) : Bool :=
  match c with
  | always => true
  | equal => flags == .flag "e"
  | notEqual => flags == .flag "g" || flags == .flag "l"
  | less => flags == .flag "l"
  | lessEqual => flags == .flag "l" || flags == .flag "e"
  | greater => flags == .flag "g"
  | greaterEqual => flags == .flag "g" || flags == .flag "e"

/-- The bit that is set after a comparison with an outcome. Without a comparison nothing is
equal. -/
def sets (c : Condition) (flags : Cell) : Bool :=
  match c with
  | notEqual => flags != .flag "e"
  | c => c.jumps flags

/-- Read the outcome of the last comparison, as far as the condition asks for it. -/
def flags (c : Condition) : Emulation Cell :=
  match c with
  | always => pure .empty
  | _ => readNamed flagsRegister

end Condition

/-! ## The runtime -/

/-- Double the space until there is room for so many bytes more. No space at all never grows, so
that there is no result. -/
def grow (current needed space : Int) : Option Int :=
  if space - current < needed then
    if 0 < space then grow current needed (space * 2) else none
  else some space
termination_by (current + needed - space).toNat

def rootsStart : Int := 2000

def heapStart : Int := 100000

/-- Place the stack of roots and the heap, of the sizes in two registers. -/
def setUp : Emulation Unit := do
  let roots ← readNamed "rdi"
  let heap ← readNamed "rsi"
  log ("CALL TO initialize: " ++ roots.text ++ ", " ++ heap.text)
  let rootsEnd := rootsStart + (← wordOf roots)
  let heapEnd := heapStart + (← wordOf heap)
  modify fun m => { m with globals := Bindings.putAll m.globals [
    ("rootstack_begin", .word rootsStart),
    ("rootstack_end", .word rootsEnd),
    ("free_ptr", .word heapStart),
    ("fromspace_begin", .word heapStart),
    ("fromspace_end", .word heapEnd)] }
  logState

def globalCell (x : String) : Emulation Cell := do
  match Bindings.get? (← get).globals x with
  | some c => pure c
  | none => throw (.noGlobal x)

/-- Make the heap larger, until there is room for the bytes in a register. -/
def collect : Emulation Unit := do
  let needed ← readNamed "rsi"
  log ("CALL TO collect: need " ++ needed.text ++ " bytes")
  let start ← globalCell "fromspace_begin"
  let stop ← globalCell "fromspace_end"
  let stop ← wordOf stop
  let start ← wordOf start
  let needed ← wordOf needed
  let current := stop - start
  match grow current needed current with
  | some space =>
    modify fun m => m.setGlobal "fromspace_end" (.word (start + space))
    logState
  | none => throw (.fault .outOfFuel)

/-- Print what is in the first register for arguments. -/
def printInt : Emulation Unit := do
  let c ← readNamed "rdi"
  log ("CALL TO print_int: " ++ c.text)
  modify fun m => { m with output := m.output ++ [c] }
  logState

/-- Read a number into the register for results. -/
def readInt : Emulation Unit := do
  let n ← modifyGet fun m =>
    let (r, console) := m.console.readInt
    (r, { m with console })
  match n with
  | .error f => throw (.fault f)
  | .ok n =>
    modify fun m => m.setRegister "rax" (.word n)
    log ("CALL TO read_int: " ++ toString n)
    logState

/-! ## Instructions -/

/-- The only operand of an instruction; more are not looked at. -/
def firstOf : List ParseTree → Emulation ParseTree
  | t :: _ => pure t
  | [] => throw (.fault .outOfRange)

def pairOf : List ParseTree → Emulation (ParseTree × ParseTree)
  | [a, b] => pure (a, b)
  | _ => throw (.fault .wrongValue)

/-- Compute with two operands. The result goes to the second one. -/
def combine (f : Int → Int → Int) (args : List ParseTree) : Emulation Unit := do
  let (a, b) ← pairOf args
  let x ← readOperand a
  let y ← readOperand b
  writeOperand b (.word (f (← wordOf x) (← wordOf y)))

/-- The flag for where the second operand stands to the first one. -/
def compareCells (args : List ParseTree) (a b : Cell) : Emulation String :=
  match a, b with
  | .word x, .word y => pure (if x = y then "e" else if y < x then "l" else "g")
  | .flag x, .flag y => pure (if x = y then "e" else if y < x then "l" else "g")
  | .empty, .empty => pure "e"
  | .code x, .code y => if x = y then pure "e" else throw (.fault .wrongKind)
  | a, b => match Value.compareNumbers a.toValue b.toValue with
    | some (some .eq) => pure "e"
    | some (some .gt) => pure "l"
    | some (some .lt) => pure "g"
    | some none => throw (.incomparable (.bare "cmpq" args))
    | none => throw (.fault .wrongKind)

def labelOf : Cell → Emulation String
  | .code l => pure l
  | _ => throw (.fault .broken)

namespace Machine

section

variable (blocks : Blocks) (enter : List ParseTree → Emulation Unit)

def callBlock (label : String) : Emulation Unit :=
  match Bindings.get? blocks label with
  | some code => enter code
  | none => throw (.noBlock label)

/-- Jump to a label. The end of the program need not be a block. -/
def jumpTo (label : String) : Emulation Unit :=
  match Bindings.get? blocks label with
  | some code => enter code
  | none => if label == "conclusion" then pure () else throw (.noTarget label)

/-- Call the runtime or a block. -/
def callLabel (label : String) : Emulation Unit :=
  match label with
  | "print_int" => printInt
  | "read_int" => readInt
  | "initialize" => setUp
  | "collect" => collect
  | label => callBlock blocks enter label

/-- Run one instruction. -/
def step (op : Opcode) (args : List ParseTree) : Emulation Flow :=
  match op with
  | .push => do
    let a ← firstOf args
    let top ← wordOf (← readNamed "rsp")
    modify fun m => m.setRegister "rsp" (.word (top - 8))
    let c ← readOperand a
    writeCell (← readNamed "rsp") c
    pure .next
  | .pop => do
    let a ← firstOf args
    let top ← readNamed "rsp"
    let c ← readCell top
    let top ← wordOf top
    modify fun m => m.setRegister "rsp" (.word (top + 8))
    writeOperand a c
    pure .next
  | .move => do
    let (a, b) ← pairOf args
    writeOperand b (← readOperand a)
    pure .next
  | .add => do
    combine Word.add args
    pure .next
  | .sub => do
    combine (fun x y => Word.sub y x) args
    pure .next
  | .xor => do
    combine Word.xor args
    pure .next
  | .neg => do
    let a ← firstOf args
    let c ← readOperand a
    writeOperand a (.word (Word.neg (← wordOf c)))
    pure .next
  | .jump c => do
    let target ← firstOf args
    if c.jumps (← c.flags) then
      jumpTo blocks enter (nameOf target)
      pure .leave
    else pure .next
  | .set c => do
    writeOperand (← firstOf args) (.word (if c.sets (← c.flags) then 1 else 0))
    pure .next
  | .call => do
    callLabel blocks enter (nameOf (← firstOf args))
    pure .next
  | .ret => pure .leave
  | .compare => do
    let (a, b) ← pairOf args
    let outcome ← compareCells args (← readOperand a) (← readOperand b)
    modify fun m => m.setRegister flagsRegister (.flag outcome)
    pure .next
  | .address => do
    let (a, b) ← pairOf args
    let c ← readOperand a
    let _ ← labelOf c
    writeOperand b c
    pure .next
  | .callIndirect => do
    let c ← readOperand (← firstOf args)
    callBlock blocks enter (← labelOf c)
    pure .next
  | .jumpIndirect => do
    let c ← readOperand (← firstOf args)
    callBlock blocks enter (← labelOf c)
    pure .leave
  | .unknown name => throw (.unknownInstruction name)

/-- Run instructions one after the other, with a way to enter blocks. -/
def runWith : List ParseTree → Emulation Unit
  | [] => pure ()
  | .node name args span :: rest => do
    log ("Evaluating instruction: " ++ (ParseTree.node name args span).pretty)
    match ← step blocks enter (.ofName name) args with
    | .leave => pure ()
    | .next => do
      logState
      runWith rest
  | _ :: _ => throw (.fault .missingPart)

end

/-- Run the instructions of a block. The fuel bounds how deep jumps and calls are nested. -/
def run (blocks : Blocks) : Nat → List ParseTree → Emulation Unit
  | 0, _ => throw (.fault .outOfFuel)
  | fuel + 1, code => runWith blocks (run blocks fuel) code

def maxDepth : Nat := 50000

/-! ## Programs -/

/-- Add the blocks of a program. A later block takes the place of an earlier one with its label, and
every label is a global. -/
def addBlocks (blocks : Blocks) : List ParseTree → Emulation Blocks
  | [] => pure blocks
  | .node "block" (label :: code) _ :: rest => do
    let name := nameOf label
    modify fun m => m.setGlobal name (.code name)
    addBlocks (Bindings.put blocks name code) rest
  | _ :: _ => throw (.fault .broken)

/-- Run something between the lines that the log begins and ends with. -/
def logged (body : Emulation Unit) : Emulation Unit := do
  log "========== STARTING EXECUTION =============================="
  body
  log "FINAL STATE:"
  logState
  log ("OUTPUT: " ++ listForm ((← get).output.map Cell.dump))
  log "========== FINISHED EXECUTION =============================="

/-- Run a program from its main block, or from the block `start` if it has none. -/
def runProgram (program : ParseTree) : Emulation Unit :=
  match program with
  | .node "prog" bs _ => do
    modify fun m => { m with output := [] }
    let blocks ← addBlocks [] bs
    logged (match Bindings.get? blocks "main", Bindings.get? blocks "start" with
      | some code, _ => run blocks maxDepth code
      | none, some code => run blocks maxDepth code
      | none, none => pure ())
  | _ => throw (.fault .broken)

def runInstructions (text : String) (code : List ParseTree) : Emulation Unit := do
  modify fun m => { m with output := [] }
  log "Executing instructions:"
  log text
  logged (run [] maxDepth code)

def runText (text : String) (m : Machine) : Parsing (Except Fault Unit × Machine) := do
  match (runInstructions text (← parseInstructions text).children).run m with
  | .ok _ m => pure (.ok (), m)
  | .error e m => pure (.error e.toFault, m)

/-- What a run has changed: where, and the contents before and after. -/
def changes (before after : Machine) : List (String × Cell × Cell) :=
  let differing {κ : Type} [BEq κ] (shown : κ → String) (a b : List (κ × Cell)) :
      List (String × Cell × Cell) :=
    b.filterMap fun (x, c) =>
      let old := (Bindings.get? a x).getD .empty
      if old == c then none else some (shown x, old, c)
  differing (fun a => "mem " ++ a.text) before.memory after.memory
    ++ differing (fun r => "reg " ++ r) before.registers after.registers
    ++ differing (fun x => "var " ++ x) before.vars after.vars

def runTree (t : ParseTree) (m : Machine) : Except Fault Unit × Machine :=
  match (runProgram t).run m with
  | .ok _ m => (.ok (), m)
  | .error e m => (.error e.toFault, m)

def runTerm (t : Term) (m : Machine) : Except Fault Unit × Machine :=
  match codeTree? t with
  | .error f => (.error f, m)
  | .ok none => (.error .missingPart, m)
  | .ok (some t) => runTree t m

/-- Run code, and put what it has printed on the console if it ends without an error. -/
def printed (t : Term) (c : Console) : Except Fault Unit × Console :=
  let (r, m) := runTerm t { console := c }
  match r with
  | .error f => (.error f, m.console)
  | .ok _ => (.ok (), m.console.write (String.join (m.output.map Cell.text)))

end Machine

end CompilerKit.X86
