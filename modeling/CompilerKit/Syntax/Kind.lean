/-!
# Kinds of nodes

Every node of a labelled tree has a kind. The kind fixes what the fields of the node are, how the
node is compared with others, and how it is written.
-/

namespace CompilerKit

inductive ArithOp where
  | add | sub | mult | div | floorDiv | mod | bitXor
  deriving BEq

inductive LogicOp where
  | and | or
  deriving BEq

inductive UnaryOp where
  | neg | pos | not | invert
  deriving BEq

inductive CmpOp where
  | eq | notEq | lt | le | gt | ge | same | notSame | mem | notMem
  deriving BEq

/-- Whether an aggregate expression is read, written or removed. -/
inductive Access where
  | load | store | del
  deriving BEq

/-- Kinds of nodes that are nothing but their fields. -/
inductive Record where
  | cast | annLambda | inst | uninitialized | blocks | defs | goto | allocate | allocateArray
  | allocateClosure | uncheckedCast | collect | block | globalValue
  | intType | boolType | voidType | bottom | tupleType | listType | functionType | genericVar
  | allType | anyType | proxyOrTupleType | proxyOrListType
  | funRef | tailCall | closure | inject | project | tagOf | valueOf | tupleProxy | rawTuple
  | listProxy | injectTuple | injectTupleProxy | injectList | injectListProxy | valueExp
  | proxiedTuple | proxiedList | tagged | funPointer
  | assembly | assemblyDefs
  | instr | callq | indirectCallq | jumpIf | jump | indirectJump | tailJump
  | variable | immediate | reg | byteReg | deref | global
  deriving BEq

inductive Kind where
  | module | exprStmt | pass | assign | annAssign | ret | ifStmt | whileStmt | functionDef
  | importFrom | breakStmt | continueStmt | augAssign | forStmt | delete
  | name | constant | binOp | boolOp | unaryOp | call | ifExp | compare | tuple | list | subscript
  | lambda | set | member | starred
  | arguments | arg
  | arith (op : ArithOp)
  | logic (op : LogicOp)
  | unary (op : UnaryOp)
  | cmp (op : CmpOp)
  | access (a : Access)
  | record (r : Record)
  | type
  | function
  | closureTuple
  | tree
  | token
  deriving BEq

namespace ArithOp

def kind : ArithOp → String
  | add => "Add" | sub => "Sub" | mult => "Mult" | div => "Div" | floorDiv => "FloorDiv"
  | mod => "Mod" | bitXor => "BitXor"

end ArithOp

namespace LogicOp

def kind : LogicOp → String
  | and => "And" | or => "Or"

end LogicOp

namespace UnaryOp

def kind : UnaryOp → String
  | neg => "USub" | pos => "UAdd" | not => "Not" | invert => "Invert"

end UnaryOp

namespace CmpOp

def kind : CmpOp → String
  | eq => "Eq" | notEq => "NotEq" | lt => "Lt" | le => "LtE" | gt => "Gt" | ge => "GtE"
  | same => "Is" | notSame => "IsNot" | mem => "In" | notMem => "NotIn"

end CmpOp

namespace Access

def kind : Access → String
  | load => "Load" | store => "Store" | del => "Del"

end Access

namespace Record

def all : List Record :=
  [cast, annLambda, inst, uninitialized, blocks, defs, goto, allocate, allocateArray,
    allocateClosure, uncheckedCast, collect, block, globalValue, intType, boolType, voidType,
    bottom, tupleType, listType, functionType, genericVar, allType, anyType, proxyOrTupleType,
    proxyOrListType, funRef, tailCall, closure, inject, project, tagOf, valueOf, tupleProxy,
    rawTuple, listProxy, injectTuple, injectTupleProxy, injectList, injectListProxy, valueExp,
    proxiedTuple, proxiedList, tagged, funPointer, assembly, assemblyDefs, instr, callq,
    indirectCallq, jumpIf, jump, indirectJump, tailJump, .variable, immediate, reg, byteReg, deref,
    global]

def name : Record → String
  | cast => "Cast"
  | annLambda => "AnnLambda"
  | inst => "Inst"
  | uninitialized => "Uninitialized"
  | blocks => "CProgram"
  | defs => "CProgramDefs"
  | goto => "Goto"
  | allocate => "Allocate"
  | allocateArray => "AllocateArray"
  | allocateClosure => "AllocateClosure"
  | uncheckedCast => "UncheckedCast"
  | collect => "Collect"
  | block => "Begin"
  | globalValue => "GlobalValue"
  | intType => "IntType"
  | boolType => "BoolType"
  | voidType => "VoidType"
  | bottom => "Bottom"
  | tupleType => "TupleType"
  | listType => "ListType"
  | functionType => "FunctionType"
  | genericVar => "GenericVar"
  | allType => "AllType"
  | anyType => "AnyType"
  | proxyOrTupleType => "ProxyOrTupleType"
  | proxyOrListType => "ProxyOrListType"
  | funRef => "FunRef"
  | tailCall => "TailCall"
  | closure => "Closure"
  | inject => "Inject"
  | project => "Project"
  | tagOf => "TagOf"
  | valueOf => "ValueOf"
  | tupleProxy => "TupleProxy"
  | rawTuple => "RawTuple"
  | listProxy => "ListProxy"
  | injectTuple => "InjectTuple"
  | injectTupleProxy => "InjectTupleProxy"
  | injectList => "InjectList"
  | injectListProxy => "InjectListProxy"
  | valueExp => "ValueExp"
  | proxiedTuple => "ProxiedTuple"
  | proxiedList => "ProxiedList"
  | tagged => "Tagged"
  | funPointer => "FunPointer"
  | assembly => "X86Program"
  | assemblyDefs => "X86ProgramDefs"
  | instr => "Instr"
  | callq => "Callq"
  | indirectCallq => "IndirectCallq"
  | jumpIf => "JumpIf"
  | jump => "Jump"
  | indirectJump => "IndirectJump"
  | tailJump => "TailJump"
  | .variable => "Variable"
  | immediate => "Immediate"
  | reg => "Reg"
  | byteReg => "ByteReg"
  | deref => "Deref"
  | global => "Global"

def fieldNames : Record → List String
  | cast => ["body", "source", "target"]
  | annLambda => ["params", "returns", "body"]
  | inst => ["generic", "type_args"]
  | uninitialized => ["ty"]
  | blocks => ["body"]
  | defs | assemblyDefs => ["defs"]
  | goto => ["label"]
  | allocate | allocateArray => ["length", "ty"]
  | allocateClosure => ["length", "ty", "arity"]
  | uncheckedCast => ["exp", "ty"]
  | collect => ["size"]
  | block => ["body", "result"]
  | globalValue | global => ["name"]
  | intType | boolType | voidType | bottom | anyType => []
  | tupleType => ["types"]
  | listType | proxyOrListType => ["elt_type"]
  | functionType => ["param_types", "ret_type"]
  | genericVar => ["id"]
  | allType => ["params", "typ"]
  | proxyOrTupleType => ["elt_types"]
  | funRef => ["name", "arity"]
  | tailCall => ["func", "args"]
  | closure => ["arity", "args"]
  | inject | project | valueOf => ["value", "typ"]
  | tagOf | injectTuple | injectList | valueExp => ["value"]
  | tupleProxy => ["value", "reads", "source", "target"]
  | rawTuple => ["elts"]
  | listProxy => ["value", "read", "write", "source", "target"]
  | injectTupleProxy | injectListProxy => ["value", "typ"]
  | proxiedTuple => ["tup", "reads"]
  | proxiedList => ["tup", "read", "write"]
  | tagged => ["value", "tag"]
  | funPointer => ["fun_name"]
  | assembly => ["body"]
  | instr => ["instr", "args"]
  | callq | indirectCallq => ["func", "num_args"]
  | jumpIf => ["cc", "label"]
  | jump => ["label"]
  | indirectJump => ["target"]
  | tailJump => ["func", "arity"]
  | .variable | reg | byteReg => ["id"]
  | immediate => ["value"]
  | deref => ["reg", "offset"]

/-- The record is an instruction: an object of its own, equal to nothing else. -/
def isInstr : Record → Bool
  | instr | callq | indirectCallq | jumpIf | jump | indirectJump | tailJump => true
  | _ => false

/-- The record is an operand, which can serve as a key when its fields can. -/
def isOperand : Record → Bool
  | .variable | immediate | reg | byteReg | deref | global => true
  | _ => false

end Record

namespace Kind

def plain : List Kind :=
  [module, exprStmt, pass, assign, annAssign, ret, ifStmt, whileStmt, functionDef, importFrom,
    breakStmt, continueStmt, augAssign, forStmt, delete, .name, constant, binOp, boolOp, unaryOp,
    call, ifExp, .compare, tuple, list, subscript, lambda, set, member, starred, arguments, arg,
    type, function, closureTuple, tree, token]

def operators : List Kind :=
  [arith .add, arith .sub, arith .mult, arith .div, arith .floorDiv, arith .mod, arith .bitXor,
    logic .and, logic .or, unary .neg, unary .pos, unary .not, unary .invert, cmp .eq, cmp .notEq,
    cmp .lt, cmp .le, cmp .gt, cmp .ge, cmp .same, cmp .notSame, cmp .mem, cmp .notMem,
    access .load, access .store, access .del]

def label : Kind → String
  | module => "Module"
  | exprStmt => "Expr"
  | pass => "Pass"
  | assign => "Assign"
  | annAssign => "AnnAssign"
  | ret => "Return"
  | ifStmt => "If"
  | whileStmt => "While"
  | functionDef => "FunctionDef"
  | importFrom => "ImportFrom"
  | breakStmt => "Break"
  | continueStmt => "Continue"
  | augAssign => "AugAssign"
  | forStmt => "For"
  | delete => "Delete"
  | .name => "Name"
  | constant => "Constant"
  | binOp => "BinOp"
  | boolOp => "BoolOp"
  | unaryOp => "UnaryOp"
  | call => "Call"
  | ifExp => "IfExp"
  | .compare => "Compare"
  | tuple => "Tuple"
  | list => "List"
  | subscript => "Subscript"
  | lambda => "Lambda"
  | set => "Set"
  | member => "Attribute"
  | starred => "Starred"
  | arguments => "arguments"
  | arg => "arg"
  | arith op => op.kind
  | logic op => op.kind
  | unary op => op.kind
  | cmp op => op.kind
  | access a => a.kind
  | record r => r.name
  | type => "type"
  | function => "Function"
  | closureTuple => "ClosureTuple"
  | tree => "Tree"
  | token => "Token"

def fieldNames : Kind → List String
  | module => ["body"]
  | exprStmt | ret | constant => ["value"]
  | assign => ["targets", "value"]
  | annAssign => ["target", "annotation", "value", "simple"]
  | ifStmt | whileStmt | ifExp => ["test", "body", "orelse"]
  | functionDef => ["name", "args", "body", "decorator_list", "returns", "type_comment"]
  | augAssign => ["target", "op", "value"]
  | forStmt => ["target", "iter", "body", "orelse"]
  | delete => ["targets"]
  | .name => ["id"]
  | binOp => ["left", "op", "right"]
  | boolOp => ["op", "values"]
  | unaryOp => ["op", "operand"]
  | call => ["func", "args"]
  | .compare => ["left", "ops", "comparators"]
  | tuple | list => ["elts", "ctx"]
  | subscript => ["value", "slice", "ctx"]
  | lambda => ["args", "body"]
  | set => ["elts"]
  | member => ["value", "attr", "ctx"]
  | starred => ["value", "ctx"]
  | arguments => ["args"]
  | arg => ["arg", "annotation"]
  | record r => r.fieldNames
  | function => ["name", "params", "body"]
  | closureTuple => ["args", "arity"]
  | tree => ["data", "children"]
  | token => ["type", "value"]
  | pass | importFrom | breakStmt | continueStmt | arith _ | logic _ | unary _ | cmp _ | access _
  | type => []

def ofLabel? (s : String) : Option Kind :=
  (plain ++ operators ++ Record.all.map record).find? fun k => k.label == s

end Kind

end CompilerKit
