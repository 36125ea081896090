import CompilerKit.Syntax.Term

/-!
# Written forms

A tree has a concrete form for readers, with one line per statement and two columns of indentation
per level, and a constructor form for messages. Both can fail: an operator that needs two operands
may have been given fewer, and a name may be something else than a text.
-/

namespace CompilerKit

/-!
## Trees with their written forms

A tree is written from its leaves: a `Form` is a tree together with its two written forms and the
forms of its parts, and the rules for a node only look at the forms of its fields.
-/

/-- Why something cannot be written, and the indentation that was in force there. -/
structure Misprint where
  fault : Fault
  indent : Nat

/-- A written form, or the reason why there is none. -/
abbrev Printed := Except Misprint String

/-- The failure with a text, or the fault that kept the text from being written. -/
def failureOf : Printed → Fault
  | .ok s => .failure s
  | .error m => m.fault

def printedAt {α : Type} (ind : Nat) : Except Fault α → Except Misprint α
  | .ok a => .ok a
  | .error f => .error ⟨f, ind⟩

def baseIndent : Nat := 2

def blanks (n : Nat) : String := String.ofList (List.replicate n ' ')

def plainObject (kind : String) : String := "<ast." ++ kind ++ " object>"

/-! ## Operators -/

namespace ArithOp

def text : ArithOp → String
  | add => "+" | sub => "-" | mult => "*"
  | op => plainObject op.kind

def dump : ArithOp → String
  | add => "Add()" | sub => "Sub()" | mult => "Mult()"
  | op => plainObject op.kind

end ArithOp

namespace LogicOp

def text : LogicOp → String
  | and => "and" | or => "or"

def dump (op : LogicOp) : String := op.kind ++ "()"

end LogicOp

namespace UnaryOp

def text : UnaryOp → String
  | neg => "-" | not => "not"
  | op => plainObject op.kind

def dump : UnaryOp → String
  | neg => "USub()" | not => "Not()"
  | op => plainObject op.kind

end UnaryOp

namespace CmpOp

/-- The text of the operator; "at most" is written like "less". -/
def text : CmpOp → String
  | eq => "==" | notEq => "!=" | lt => "<" | le => "<" | gt => ">" | ge => ">=" | same => "is"
  | op => plainObject op.kind

def dump (op : CmpOp) : String :=
  match op with
  | notSame | mem | notMem => plainObject op.kind
  | op => op.kind ++ "()"

end CmpOp

namespace Access

def dump (a : Access) : String := plainObject a.kind

end Access

/-! ## Joining -/

def listForm (items : List String) : String := "[" ++ ", ".intercalate items ++ "]"

def tupleForm : List String → String
  | [x] => "(" ++ x ++ ",)"
  | xs => "(" ++ ", ".intercalate xs ++ ")"

def setForm : List String → String
  | [] => "set()"
  | xs => "\x7b" ++ ", ".intercalate xs ++ "\x7d"

def recordForm (kind : String) (fields : List (String × String)) : String :=
  kind ++ "(" ++ ", ".intercalate (fields.map fun (k, v) => k ++ "=" ++ v) ++ ")"

def dictForm (items : List (String × String)) : String :=
  "\x7b" ++ ", ".intercalate (items.map fun (k, v) => k ++ ": " ++ v) ++ "\x7d"

def Kind.form (k : Kind) (fields : Except Misprint (List String)) : Printed :=
  match k with
  | .record r => do .ok (recordForm r.name (r.fieldNames.zip (← fields)))
  | .closureTuple | .tree | .token => do
    .ok (k.label ++ "(" ++ ", ".intercalate (← fields) ++ ")")
  | .arith op => .ok op.dump
  | .logic op => .ok op.dump
  | .unary op => .ok op.dump
  | .cmp op => .ok op.dump
  | k => .ok (plainObject k.label)

/-! ## Forms -/

/-- A tree with its concrete form and its constructor form at every indentation. Its parts are the
fields of a node, the items of a sequence or the keys of a table; a table also has values. -/
inductive Form where
  | mk (term : Term) (text dump : Nat → Printed) (parts values : List Form)

namespace Form

def term : Form → Term
  | mk t _ _ _ _ => t

def text : Form → Nat → Printed
  | mk _ t _ _ _ => t

def dump : Form → Nat → Printed
  | mk _ _ d _ _ => d

def parts : Form → List Form
  | mk _ _ _ ps _ => ps

def values : Form → List Form
  | mk _ _ _ _ vs => vs

def ofLiteral (c : Literal) : Form :=
  mk (.scalar c) (fun ind => printedAt ind c.text) (fun ind => printedAt ind c.dump) [] []

def raw (ind : Nat) (f : Form) : Printed :=
  match f.term.str? with
  | some s => .ok s
  | none => .error ⟨.wrongKind, ind⟩

def items (ind : Nat) (f : Form) : Except Misprint (List Form) :=
  match f.term with
  | .list _ | .tuple _ | .set _ | .dict _ => .ok f.parts
  | t => match t.str? with
    | some s => .ok (s.toList.map fun c => ofLiteral (.str (String.singleton c)))
    | none => .error ⟨.wrongKind, ind⟩

def entries (f : Form) : List (Form × Form) := f.parts.zip f.values

def part (ind : Nat) (i : Nat) (f : Form) : Except Misprint Form :=
  match f.term with
  | .dict _ => match f.entries.find? fun e => e.1.term.equal (.int i) with
    | some e => .ok e.2
    | none => .error ⟨.missingKey (toString i), ind⟩
  | .set _ => .error ⟨.wrongKind, ind⟩
  | _ => do
    match (← f.items ind)[i]? with
    | some g => .ok g
    | none => .error ⟨.outOfRange, ind⟩

def pair (ind : Nat) (f : Form) : Except Misprint (Form × Form) := do
  match ← f.items ind with
  | [a, b] => .ok (a, b)
  | _ => .error ⟨.wrongValue, ind⟩

def texts (ind : Nat) : List Form → Except Misprint (List String)
  | [] => .ok []
  | f :: fs => do
    .ok ((← f.text ind) :: (← texts ind fs))

def dumps (ind : Nat) : List Form → Except Misprint (List String)
  | [] => .ok []
  | f :: fs => do
    .ok ((← f.dump ind) :: (← dumps ind fs))

def raws (ind : Nat) : List Form → Except Misprint (List String)
  | [] => .ok []
  | f :: fs => do
    .ok ((← f.raw ind) :: (← raws ind fs))

def itemTexts (ind : Nat) (f : Form) : Except Misprint (List String) := do
  texts ind (← f.items ind)

def lines (ind : Nat) (f : Form) : Printed := do
  .ok (String.join (← f.itemTexts ind))

/-! ## Parameters and blocks -/

def pairTexts (ind : Nat) (sep : String) : List Form → Except Misprint (List String)
  | [] => .ok []
  | p :: ps => do
    let (x, t) ← p.pair ind
    .ok (((← x.raw ind) ++ sep ++ (← t.text ind)) :: (← pairTexts ind sep ps))

def paramHints (ind : Nat) : List Form → Except Misprint (List String)
  | [] => .ok []
  | p :: ps => match p.term, p.parts with
    | .node .arg _ _, [x, a] => do
      .ok (((← x.raw ind) ++ " : " ++ (← a.text ind)) :: (← paramHints ind ps))
    | _, _ => .error ⟨.missingPart, ind⟩

def paramNames (ind : Nat) : List Form → Except Misprint (List Form)
  | [] => .ok []
  | p :: ps => match p.term, p.parts with
    | .node .arg _ _, x :: _ => do .ok (x :: (← paramNames ind ps))
    | _, _ => .error ⟨.missingPart, ind⟩

def paramTexts (ind : Nat) (f : Form) : Except Misprint (List String) :=
  match f.term, f.parts with
  | .node .arguments _ _, [ps] => do paramHints ind (← ps.items ind)
  | _, _ => do pairTexts ind " : " (← f.items ind)

def lambdaNames (ind : Nat) (f : Form) : Except Misprint (List String) :=
  match f.term, f.parts with
  | .node .arguments _ _, [ps] => do
    raws ind (← paramNames ind (← ps.items ind))
  | _, _ => do raws ind (← f.items ind)

/-- The lines of labelled blocks, each between its lead and its end. Labels are not indented. -/
def blockTexts (ind : Nat) (lead : String → String) (close : String) :
    List (Form × Form) → Except Misprint (List String)
  | [] => .ok []
  | (l, code) :: rest => do
    let label ← l.raw ind
    let body ← code.lines (ind + 2)
    .ok ((lead label ++ label ++ ":\n" ++ body ++ close) :: (← blockTexts ind lead close rest))

def bodyText (ind : Nat) (f : Form) : Printed :=
  match f.term with
  | .list _ => f.lines ind
  | .dict _ => do .ok (String.join (← blockTexts ind (fun _ => "") "" f.entries))
  | _ => .ok ""

/-- The lines of the blocks of a program, each followed by an empty line. -/
def blocksText (ind : Nat) (f : Form) : Printed :=
  match f.term with
  | .dict _ => do .ok (String.join (← blockTexts ind (fun _ => "") "\n" f.entries))
  | _ => .error ⟨.missingPart, ind⟩

def assemblyText (ind : Nat) (f : Form) : Printed :=
  match f.term with
  | .dict _ => do
    let lead (label : String) : String :=
      (if label == "main" then "\t.globl main\n" else "") ++ "\t.align 16\n"
    .ok (String.join (← blockTexts ind lead "\n" f.entries) ++ "\n")
  | _ => do .ok ("\t.globl main\nmain:\n" ++ (← f.lines (ind + 2)) ++ "\n")

end Form

/-! ## Rules -/

/-- A piece of a written form: words, or a part of the tree. -/
inductive Piece where
  | words (s : String)
  | text (f : Form)
  | raw (f : Form)
  | part (i : Nat) (f : Form)
  /-- Items with words between them. -/
  | items (sep : String) (f : Form)
  /-- Statements, each on a line of its own that is further in. -/
  | body (f : Form)

namespace Piece

instance : Coe String Piece := ⟨words⟩

instance : Coe Form Piece := ⟨text⟩

def write (ind : Nat) : Piece → Printed
  | words s => .ok s
  | text f => f.text ind
  | raw f => f.raw ind
  | part i f => do (← f.part ind i).text ind
  | items sep f => do .ok (sep.intercalate (← f.itemTexts ind))
  | body f => f.lines (ind + 2)

end Piece

/-- Pieces, one after the other. -/
def weave (ind : Nat) : List Piece → Printed
  | [] => .ok ""
  | p :: ps => do .ok ((← p.write ind) ++ (← weave ind ps))

theorem weave_cons_ok {ind p ps w} : weave ind (p :: ps) = .ok w ↔
    ∃ u, p.write ind = .ok u ∧ ∃ v, weave ind ps = .ok v ∧ u ++ v = w := by
  rw [weave]
  cases p.write ind <;> cases weave ind ps <;> simp [bind, Except.bind]

namespace Record

/-- The pieces of the concrete form of a record; none if it is only written by its fields. -/
def pieces (ind : Nat) : Record → List Form → List Piece
  | cast, [b, s, t] => ["(", b, " : ", s, " => ", t, ")"]
  | inst, [g, ts] => [g, ts]
  | uninitialized, [t] => ["uninit[", t, "]"]
  | defs, [ds] => [.items "\n" ds, "\n"]
  | goto, [l] => [blanks ind, "goto ", .raw l, "\n"]
  | allocate, [l, t] => ["allocate(", l, ",", t, ")"]
  | allocateArray, [l, t] => ["allocate_array(", l, ",", t, ")"]
  | allocateClosure, [l, t, a] => ["alloc_clos(", l, ",", t, ",", a, ")"]
  | collect, [n] => [blanks ind, "collect(", n, ")\n"]
  | globalValue, [x] => [x]
  | funRef, [x, _] => ["\x7b", .raw x, "\x7d"]
  | tailCall, [f, as] => [blanks ind, "tail ", f, "(", .items ", " as, ")\n"]
  | inject, [b, t] => ["inject(", b, ", ", t, ")"]
  | project, [b, t] => ["project(", b, ", ", t, ")"]
  | tagOf, [b] => ["tagof(", b, ")"]
  | valueOf, [b, t] => ["valueof(", b, ", ", t, ")"]
  | tupleProxy, [b, _, s, t] => ["tuple_proxy(", b, ", ", s, ", ", t, ")"]
  | rawTuple, [es] => ["[[", .items "," es, "]]"]
  | listProxy, [b, _, _, s, t] => ["array_proxy(", b, ", ", s, ", ", t, ")"]
  | injectTuple, [b] => ["inject_tuple[", b, "]"]
  | injectTupleProxy, [b, t] => ["inject_tuple_proxy[", b, " from ", t, "]"]
  | injectList, [b] => ["inject_array[", b, "]"]
  | injectListProxy, [b, t] => ["inject_array_proxy[", b, " from ", t, "]"]
  | intType, _ => ["int"]
  | boolType, _ => ["bool"]
  | voidType, _ => ["void"]
  | bottom, _ => ["bottom"]
  | anyType, _ => ["Any"]
  | tupleType, [ts] => ["tuple[", .items "," ts, "]"]
  | listType, [t] => ["list[", t, "]"]
  | functionType, [ps, r] => ["Callable[[", .items "," ps, "], ", r, "]"]
  | genericVar, [x] => [x]
  | allType, [xs, t] => ["∀ ", .items "," xs, "(", t, ")"]
  | proxyOrTupleType, [ts] => ["POrTuple[", .items "," ts, "]"]
  | proxyOrListType, [t] => ["POrList[", t, "]"]
  | tagged, [v, _] => [v]
  | assemblyDefs, [ds] => [.items "\n" ds]
  | instr, [x, as] => [blanks ind, .raw x, " ", .items ", " as, "\n"]
  | callq, [l, _] => [blanks ind, "callq ", .raw l, "\n"]
  | indirectCallq, [t, _] => [blanks ind, "callq *", t, "\n"]
  | jumpIf, [c, l] => [blanks ind, "j", .raw c, " ", .raw l, "\n"]
  | jump, [l] => [blanks ind, "jmp ", .raw l, "\n"]
  | indirectJump, [t] => [blanks ind, "jmp *", t, "\n"]
  | tailJump, [t, _] => [blanks ind, "tailjmp ", t, "\n"]
  | .variable, [x] => [.raw x]
  | immediate, [v] => ["$", v]
  | reg, [x] => ["%", .raw x]
  | byteReg, [x] => ["%", .raw x]
  | deref, [r, n] => [n, "(%", .raw r, ")"]
  | global, [x] => [.raw x, "(%rip)"]
  | _, _ => []

/-- The concrete form of a record; none if it is only written by its fields. -/
def text? (r : Record) (fs : List Form) (type : Option Form) (ind : Nat) : Option Printed :=
  match r, fs with
  | annLambda, [ps, r, b] => some do
    let params ← Form.pairTexts ind ":" (← ps.items ind)
    weave ind ["lambda [", ", ".intercalate params, "] -> ", r, ": ", b]
  | blocks, [b] => some (b.blocksText ind)
  | block, [ss, e] => some do
    let body ← ss.lines (ind + 2)
    weave (ind + 2) ["\x7b\n", body, blanks (ind + 2), "produce ", e, "\x7d"]
  | closure, [a, es] => some do
    let suffix ← match type with
      | some t => weave ind [":", t]
      | none => .ok ""
    weave ind ["closure\x7b", ← a.dump ind, "\x7d(", .items ", " es, ")", suffix]
  | proxiedTuple, _ | proxiedList, _ => some (.error ⟨.missingPart, ind⟩)
  | assembly, [b] => some (b.assemblyText ind)
  | r, fs => match r.pieces ind fs with
    | [] => none
    | ps => some (weave ind ps)

end Record

namespace Kind

def dump (k : Kind) (fs : List Form) (ind : Nat) : Printed :=
  let made (fs : List Form) : Printed := do
    .ok (k.label ++ "(" ++ ", ".intercalate (← Form.dumps ind fs) ++ ")")
  match k, fs with
  | module, [_] | .name, [_] | constant, [_] | unaryOp, [_, _] | call, [_, _] | ifStmt, [_, _, _]
  | whileStmt, [_, _, _] | binOp, [_, _, _] | ifExp, [_, _, _] | .compare, [_, _, _]
  | subscript, [_, _, _] => made fs
  | tuple, [es, _] | list, [es, _] => made [es]
  | exprStmt, [_] | assign, [_, _] | ret, [_] => do .ok (blanks ind ++ (← made fs))
  | annAssign, [t, a, e, _] => do .ok (blanks ind ++ (← made [t, a, e]))
  | pass, _ => .ok (blanks ind ++ "Pass()")
  | functionDef, [f, ps, b, _, _, _] => do
    .ok ("FunctionDef(" ++ (← f.raw ind) ++ "," ++ (← ps.dump ind) ++ "," ++ (← b.dump ind) ++ ")")
  | importFrom, _ => .ok "ImportFrom()"
  | boolOp, [op, vs] => do
    let left ← (← vs.part ind 0).dump ind
    .ok (left ++ " " ++ (← op.dump ind) ++ " " ++ (← (← vs.part ind 1).dump ind))
  | lambda, [ps, b] => do .ok ("Lambda(" ++ (← ps.dump ind) ++ "," ++ (← b.dump ind) ++ ")")
  | type, [x] => weave ind ["<class '", .raw x, "'>"]
  | function, x :: _ => weave ind ["Function(", .raw x, ", ...)"]
  | k, fs => k.form (Form.dumps ind fs)

def text (k : Kind) (fs : List Form) (type : Option Form) (ind : Nat) : Printed :=
  match k, fs with
  | module, [b] => b.lines (ind + 2)
  | exprStmt, [e] => weave ind [blanks ind, e, "\n"]
  | pass, _ => .ok (blanks ind ++ "pass\n")
  | assign, [ts, e] => weave ind [blanks ind, .part 0 ts, " = ", e, "\n"]
  | annAssign, [t, a, e, _] => weave ind [blanks ind, t, " : ", a, " = ", e, "\n"]
  | ret, [e] => weave ind [blanks ind, "return ", e, "\n"]
  | ifStmt, [t, y, n] =>
    weave ind [blanks ind, "if ", t, ":\n", .body y, blanks ind, "else:\n", .body n]
  | whileStmt, [t, b, _] => weave ind [blanks ind, "while ", t, ":\n", .body b]
  | functionDef, [f, ps, b, _, r, _] => do
    let params ← ps.paramTexts ind
    let body ← b.bodyText (ind + 2)
    weave ind [blanks ind, "def ", .raw f, "(", ", ".intercalate params, ") -> ", r, ":\n",
      body, "\n"]
  | importFrom, _ => .ok (blanks ind ++ "from X import Y\n")
  | .name, [x] => match type with
    | some t => weave ind [.raw x, ":", t]
    | none => x.raw ind
  | constant, [v] => v.text ind
  | binOp, [l, op, r] => weave ind ["(", l, " ", op, " ", r, ")"]
  | boolOp, [op, vs] => weave ind ["(", .part 0 vs, " ", op, " ", .part 1 vs, ")"]
  | unaryOp, [op, e] => weave ind [op, "(", e, ")"]
  | call, [f, as] => weave ind [f, "(", .items ", " as, ")"]
  | ifExp, [t, y, n] => weave ind ["(", y, " if ", t, " else ", n, ")"]
  | .compare, [l, ops, rs] => weave ind [l, " ", .part 0 ops, " ", .part 0 rs]
  | tuple, [es, _] => weave ind ["(", .items ", " es, ",)"]
  | list, [es, _] => weave ind ["[", .items ", " es, "]"]
  | subscript, [b, i, _] => weave ind [b, "[", i, "]"]
  | lambda, [ps, b] => do
    weave ind ["(lambda ", ", ".intercalate (← ps.lambdaNames ind), ": ", b, ")"]
  | arith op, _ => .ok op.text
  | logic op, _ => .ok op.text
  | unary op, _ => .ok op.text
  | cmp op, _ => .ok op.text
  | token, [_, x] => x.raw ind
  | record r, fs => (r.text? fs type ind).getD (dump (record r) fs ind)
  | k, fs => dump k fs ind

end Kind

namespace Term

mutual

def form : Term → Form
  | scalar c => .ofLiteral c
  | list xs =>
    let fs := forms xs
    let shown (ind : Nat) : Printed := do .ok (listForm (← Form.dumps ind fs))
    .mk (list xs) shown shown fs []
  | tuple xs =>
    let fs := forms xs
    let shown (ind : Nat) : Printed := do .ok (tupleForm (← Form.dumps ind fs))
    .mk (tuple xs) shown shown fs []
  | set xs =>
    let fs := forms xs
    let shown (ind : Nat) : Printed := do .ok (setForm (← Form.dumps ind fs))
    .mk (set xs) shown shown fs []
  | dict es =>
    let ks := keyForms es
    let vs := valueForms es
    let shown (ind : Nat) : Printed := do
      let entries ← (ks.zip vs).mapM fun (k, v) => do
        .ok (← k.dump ind, ← v.dump ind)
      .ok (dictForm entries)
    .mk (dict es) shown shown ks vs
  | node k fs ⟨t, e, ts, n⟩ =>
    let gs := forms fs
    let type := optionForm t
    .mk (node k fs ⟨t, e, ts, n⟩) (k.text gs type) (k.dump gs) gs []
  | cycle s => .mk (cycle s) (fun _ => .ok s) (fun _ => .ok s) [] []

def forms : List Term → List Form
  | [] => []
  | t :: ts => form t :: forms ts

def keyForms : List (Term × Term) → List Form
  | [] => []
  | (k, _) :: rest => form k :: keyForms rest

def valueForms : List (Term × Term) → List Form
  | [] => []
  | (_, v) :: rest => form v :: valueForms rest

def optionForm : Option Term → Option Form
  | none => none
  | some t => some (form t)

end

def text (ind : Nat) (t : Term) : Printed := t.form.text ind

def dump (ind : Nat) (t : Term) : Printed := t.form.dump ind

end Term

end CompilerKit
