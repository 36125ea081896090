import CompilerKit.Parse.Tree

/-!
# Code trees

Assembly code as trees: what the parser for assembly texts yields, and what compiled programs are
turned into before they are run. The machine looks at code trees by way of `Opcode` and `Argument`.
-/

namespace CompilerKit.X86

/-!
## Assembly code

Instructions and operands of the target machine, with pseudo-instructions and variables for code
that is still being compiled. Code is written as the tree that it stands for.
-/

inductive Operand where
  | variable (id : String)
  | immediate (value : Term)
  | reg (id : String)
  | byteReg (id : String)
  | deref (reg : String) (offset : Term)
  | other (t : Term)
  deriving BEq

inductive Instr where
  | op (name : String) (args : List Operand)
  | call (label : String) (arity : Term)
  | callIndirect (target : Operand) (arity : Term)
  | jumpIf (cc label : String)
  | jump (label : String)
  | jumpIndirect (target : Operand)
  | tailJump (target : Operand) (arity : Term)
  | other (t : Term)
  deriving Inhabited

/-- Code: a list of instructions, labelled blocks of them, or something else. -/
inductive Code where
  | flat (instrs : List Instr)
  | blocks (bs : List (String × List Instr))
  | other (t : Term)

/-- An assembly program, and the bytes that its frame needs once homes are assigned. -/
structure Assembly where
  code : Code
  stackSpace : Option Int := none

namespace Operand

def toTerm : Operand → Term
  | .variable x => .ofRecord .variable [.str x]
  | immediate v => .ofRecord .immediate [v]
  | reg r => .ofRecord .reg [.str r]
  | byteReg r => .ofRecord .byteReg [.str r]
  | deref r n => .ofRecord .deref [.str r, n]
  | other t => t

def ofTerm : Term → Operand
  | .node (.record .variable) [.str x] _ => .variable x
  | .node (.record .immediate) [v] _ => immediate v
  | .node (.record .reg) [.str r] _ => reg r
  | .node (.record .byteReg) [.str r] _ => byteReg r
  | .node (.record .deref) [.str r, n] _ => deref r n
  | t => other t

end Operand

namespace Instr

def toTerm : Instr → Term
  | op name args => .ofRecord .instr [.str name, .tuple (args.map Operand.toTerm)]
  | call l n => .ofRecord .callq [.str l, n]
  | callIndirect t n => .ofRecord .indirectCallq [t.toTerm, n]
  | jumpIf cc l => .ofRecord .jumpIf [.str cc, .str l]
  | jump l => .ofRecord .jump [.str l]
  | jumpIndirect t => .ofRecord .indirectJump [t.toTerm]
  | tailJump t n => .ofRecord .tailJump [t.toTerm, n]
  | other t => t

def ofTerm : Term → Instr
  | .node (.record .instr) [.str name, .tuple args] _ => op name (args.map Operand.ofTerm)
  | .node (.record .callq) [.str l, n] _ => call l n
  | .node (.record .indirectCallq) [t, n] _ => callIndirect (.ofTerm t) n
  | .node (.record .jumpIf) [.str cc, .str l] _ => jumpIf cc l
  | .node (.record .jump) [.str l] _ => jump l
  | .node (.record .indirectJump) [t] _ => jumpIndirect (.ofTerm t)
  | .node (.record .tailJump) [t, n] _ => tailJump (.ofTerm t) n
  | t => other t

end Instr

namespace Code

def toTerm : Code → Term
  | flat is => .list (is.map Instr.toTerm)
  | blocks bs => .dict (bs.map fun (l, is) => (.str l, .list (is.map Instr.toTerm)))
  | other t => t

def ofEntries? : List (Term × Term) → Option (List (String × List Instr))
  | [] => some []
  | (.str l, .list is) :: rest => (ofEntries? rest).map ((l, is.map Instr.ofTerm) :: ·)
  | _ :: _ => none

def ofTerm : Term → Code
  | .list is => flat (is.map Instr.ofTerm)
  | .dict es => match ofEntries? es with
    | some bs => blocks bs
    | none => other (.dict es)
  | t => other t

/-- The parts of code for a pass that goes through a list of instructions: blocks are only seen by
their labels. -/
def listed : Code → Except Fault (List Instr)
  | flat is => .ok is
  | blocks bs => .ok (bs.map fun (l, _) => .other (.str l))
  | other t => do .ok ((← t.items).map Instr.ofTerm)

end Code

namespace Assembly

def toTerm (p : Assembly) : Term := .ofRecord .assembly [p.code.toTerm]

end Assembly

end CompilerKit.X86

namespace CompilerKit

namespace X86

/-! ## The trees of compiled code -/

def numberTree (v : Term) : ParseTree := .bare "int_a" [.leaf v]

def nameLeaf (s : String) : ParseTree := .leaf (.str s)

def noTree {α : Type} (lead : String) (t : Term) : Except Fault α :=
  .error (failureOf do .ok (lead ++ (← t.dump baseIndent)))

def foreignOperandTree : Term → Except Fault ParseTree
  | .node (.record .reg) [r] _ | .node (.record .byteReg) [r] _ => .ok (.bare "reg_a" [.leaf r])
  | .node (.record .variable) [x] _ => .ok (.bare "var_a" [.leaf x])
  | .node (.record .deref) [r, n] _ => .ok (.bare "mem_a" [numberTree n, .leaf r])
  | .node (.record .globalValue) [x] _ => .ok (.bare "global_val_a" [.leaf x, nameLeaf "rip"])
  | t => noTree "convert_arg: unhandled " t

def Operand.tree : Operand → Except Fault ParseTree
  | .reg r | .byteReg r => .ok (.bare "reg_a" [nameLeaf r])
  | .variable x => .ok (.bare "var_a" [nameLeaf x])
  | .immediate v => .ok (numberTree v)
  | .deref r n => .ok (.bare "mem_a" [numberTree n, nameLeaf r])
  | .other t => foreignOperandTree t

def Operand.trees : List Operand → Except Fault (List ParseTree)
  | [] => .ok []
  | a :: as => do .ok ((← a.tree) :: (← trees as))

def noInstrTree {α : Type} (t : Term) : Except Fault α :=
  noTree "error in convert_instr, unhandled " t

def foreignInstrTree : Term → Except Fault ParseTree
  | .node (.record .instr) [name, .tuple args] _ => do
    .ok (.bare (ParseTree.written (name.text baseIndent))
      (← Operand.trees (args.map Operand.ofTerm)))
  | .node (.record .callq) [l, _] _ => .ok (.bare "callq" [.leaf l])
  | .node (.record .jump) [l] _ => .ok (.bare "jmp" [.leaf l])
  | .node (.record .jumpIf) [.str cc, l] _ => .ok (.bare ("j" ++ cc) [.leaf l])
  | .node (.record .jumpIf) _ _ => .error .wrongKind
  | t => noInstrTree t

def Instr.tree : Instr → Except Fault ParseTree
  | .op name args => do .ok (.bare name (← Operand.trees args))
  | .call l _ => .ok (.bare "callq" [nameLeaf l])
  | .jump l => .ok (.bare "jmp" [nameLeaf l])
  | .jumpIf cc l => .ok (.bare ("j" ++ cc) [nameLeaf l])
  | .callIndirect a n => noInstrTree (Instr.callIndirect a n).toTerm
  | .jumpIndirect a => noInstrTree (Instr.jumpIndirect a).toTerm
  | .tailJump a n => noInstrTree (Instr.tailJump a n).toTerm
  | .other t => foreignInstrTree t

def Instr.trees : List Instr → Except Fault (List ParseTree)
  | [] => .ok []
  | i :: is => do .ok ((← i.tree) :: (← trees is))

def blockTree (label : ParseTree) (is : List Instr) : Except Fault ParseTree := do
  .ok (.bare "block" (label :: (← Instr.trees is)))

def blockTrees : List (String × List Instr) → Except Fault (List ParseTree)
  | [] => .ok []
  | (l, is) :: rest => do .ok ((← blockTree (nameLeaf l) is) :: (← blockTrees rest))

def entryTrees : List (Term × Term) → Except Fault (List ParseTree)
  | [] => .ok []
  | (l, is) :: rest => do
    .ok ((← blockTree (.leaf l) ((← is.items).map Instr.ofTerm)) :: (← entryTrees rest))

/-- The tree of code. A list of instructions is one block. -/
def Code.tree? : Code → Except Fault (Option ParseTree)
  | .flat is => do .ok (some (.bare "prog" [← blockTree (nameLeaf "main") is]))
  | .blocks bs => do .ok (some (.bare "prog" (← blockTrees bs)))
  | .other (.dict es) => do .ok (some (.bare "prog" (← entryTrees es)))
  | .other _ => .ok none

def codeTree? (t : Term) : Except Fault (Option ParseTree) :=
  match t.field? "body" with
  | some body => (Code.ofTerm body).tree?
  | none => .error .missingPart

/-! ## What trees mean -/

inductive Condition where
  | always | equal | notEqual | less | lessEqual | greater | greaterEqual

inductive Opcode where
  | push | pop | move | add | sub | xor | neg
  | jump (c : Condition)
  | set (c : Condition)
  | call | ret | compare | address | callIndirect | jumpIndirect
  | unknown (name : String)

def Opcode.ofName : String → Opcode
  | "pushq" => push
  | "popq" => pop
  | "movq" | "movzbq" => move
  | "addq" => add
  | "subq" => sub
  | "xorq" => xor
  | "negq" => neg
  | "jmp" => jump .always
  | "je" => jump .equal
  | "jne" => jump .notEqual
  | "jl" => jump .less
  | "jle" => jump .lessEqual
  | "jg" => jump .greater
  | "jge" => jump .greaterEqual
  | "sete" => set .equal
  | "setne" => set .notEqual
  | "setl" => set .less
  | "setle" => set .lessEqual
  | "setg" => set .greater
  | "setge" => set .greaterEqual
  | "callq" => call
  | "retq" => ret
  | "cmpq" => compare
  | "leaq" => address
  | "indirect_callq" => callIndirect
  | "indirect_jmp" => jumpIndirect
  | name => unknown name

inductive Immediate where
  | number (v : Term)
  | nested
  | unknown (t : ParseTree)

def Immediate.ofTree : ParseTree → Immediate
  | .node "int_a" (.leaf v :: _) _ => number v
  | .node "int_a" (.token t :: _) _ => number (.str t.text)
  | .node "int_a" _ _ => nested
  | t => unknown t

/-- The register that an address is relative to. Parsed code has a token for it. -/
structure Base where
  name : String
  kind : Option String := none

def nameOf : ParseTree → String
  | .token t => t.text
  | .leaf t => ParseTree.written (t.text baseIndent)
  | t => t.dump

def Base.ofTree : ParseTree → Base
  | .token t => { name := t.text, kind := some t.kind }
  | t => { name := nameOf t }

inductive Argument where
  | register (name : String)
  | variable (name : String)
  | immediate (v : Immediate)
  | negative (v : Immediate)
  | offset (v : Immediate) (base : Base)
  | direct (base : Base)
  | global (name base : String)
  | other

def Argument.ofTree : ParseTree → Argument
  | .node "reg_a" (r :: _) _ => register (nameOf r)
  | .node "var_a" (x :: _) _ => .variable (nameOf x)
  | t@(.node "int_a" _ _) => immediate (.ofTree t)
  | .node "neg_a" (v :: _) _ => negative (.ofTree v)
  | .node "mem_a" [v, r] _ => offset (.ofTree v) (.ofTree r)
  | .node "direct_mem_a" (r :: _) _ => direct (.ofTree r)
  | .node "global_val_a" [x, r] _ => global (nameOf x) (nameOf r)
  | _ => other

end X86

end CompilerKit
