import CompilerKit.Syntax.Basic

/-!
# Programs as trees

The labelled trees of programs and values, and by them their written forms. A sequence that
contains itself is cut off where it comes back.
-/

namespace CompilerKit

mutual

def Expr.toTermWith (ofValue : Value → Term) : Expr → Term
  | .name x n => .node .name [.str x] n.marks
  | .const v n => .node .constant [ofValue v] n.marks
  | .arith l op r n =>
    .node .binOp [l.toTermWith ofValue, .leaf (.arith op) [], r.toTermWith ofValue] n.marks
  | .logic op es n =>
    .node .boolOp [.leaf (.logic op) [], n.sequence 1 (Expr.toTermsWith ofValue es)] n.marks
  | .unary op e n => .node .unaryOp [.leaf (.unary op) [], e.toTermWith ofValue] n.marks
  | .call f es n =>
    .node .call [f.toTermWith ofValue, n.sequence 1 (Expr.toTermsWith ofValue es)] n.marks
  | .cond t y o n =>
    .node .ifExp [t.toTermWith ofValue, y.toTermWith ofValue, o.toTermWith ofValue] n.marks
  | .compare l ops rs n =>
    .node .compare [l.toTermWith ofValue, n.sequence 1 (ops.map fun op => .leaf (.cmp op) []),
      n.sequence 2 (Expr.toTermsWith ofValue rs)] n.marks
  | .tuple es a n =>
    .node .tuple [n.sequence 0 (Expr.toTermsWith ofValue es), .leaf (.access a) []] n.marks
  | .list es a n =>
    .node .list [n.sequence 0 (Expr.toTermsWith ofValue es), .leaf (.access a) []] n.marks
  | .subscript b i a n =>
    .node .subscript [b.toTermWith ofValue, i.toTermWith ofValue, .leaf (.access a) []] n.marks
  | .lambda ps b n => .node .lambda [ps.toTerm, b.toTermWith ofValue] n.marks
  | .cast b s t n => .node (.record .cast) [b.toTermWith ofValue, s.toTerm, t.toTerm] n.marks
  | .annLambda ps r b n =>
    .node (.record .annLambda) [ps.toTerm, r.toTerm, b.toTermWith ofValue] n.marks
  | .inst g ts n => .node (.record .inst) [g.toTermWith ofValue, TypeTable.toTerm ts] n.marks
  | .uninitialized t n => .node (.record .uninitialized) [t.toTerm] n.marks
  | .allocate l t n => .node (.record .allocate) [l, t.toTerm] n.marks
  | .allocateArray l t n => .node (.record .allocateArray) [l, t.toTerm] n.marks
  | .allocateClosure l t a n => .node (.record .allocateClosure) [l, t.toTerm, a] n.marks
  | .uncheckedCast b t n =>
    .node (.record .uncheckedCast) [b.toTermWith ofValue, t.toTerm] n.marks
  | .block ss e n =>
    .node (.record .block) [n.sequence 0 (Stmt.toTermsWith ofValue ss), e.toTermWith ofValue]
      n.marks
  | .global x n => .node (.record .globalValue) [x] n.marks
  | .funRef x a n => .node (.record .funRef) [.str x, a] n.marks
  | .closure a es n =>
    .node (.record .closure) [a, n.sequence 1 (Expr.toTermsWith ofValue es)] n.marks
  | .inject b t n => .node (.record .inject) [b.toTermWith ofValue, t.toTerm] n.marks
  | .project b t n => .node (.record .project) [b.toTermWith ofValue, t.toTerm] n.marks
  | .tagOf b n => .node (.record .tagOf) [b.toTermWith ofValue] n.marks
  | .valueOf b t n => .node (.record .valueOf) [b.toTermWith ofValue, t.toTerm] n.marks
  | .tupleProxy b r s t n =>
    .node (.record .tupleProxy)
      [b.toTermWith ofValue, r.toTermWith ofValue, s.toTerm, t.toTerm] n.marks
  | .rawTuple es n =>
    .node (.record .rawTuple) [n.sequence 0 (Expr.toTermsWith ofValue es)] n.marks
  | .listProxy b r w s t n =>
    .node (.record .listProxy) [b.toTermWith ofValue, r.toTermWith ofValue, w.toTermWith ofValue,
      s.toTerm, t.toTerm] n.marks
  | .injectTuple b n => .node (.record .injectTuple) [b.toTermWith ofValue] n.marks
  | .injectTupleProxy b t n =>
    .node (.record .injectTupleProxy) [b.toTermWith ofValue, t.toTerm] n.marks
  | .injectList b n => .node (.record .injectList) [b.toTermWith ofValue] n.marks
  | .injectListProxy b t n =>
    .node (.record .injectListProxy) [b.toTermWith ofValue, t.toTerm] n.marks
  | .embedded v n => .node (.record .valueExp) [ofValue v] n.marks
  | .other t => t

def Expr.toTermsWith (ofValue : Value → Term) : List Expr → List Term
  | [] => []
  | e :: es => e.toTermWith ofValue :: Expr.toTermsWith ofValue es

def Stmt.toTermWith (ofValue : Value → Term) : Stmt → Term
  | .expr e n => .node .exprStmt [e.toTermWith ofValue] n.marks
  | .pass n => .node .pass [] n.marks
  | .assign ts e n =>
    .node .assign [n.sequence 0 (Expr.toTermsWith ofValue ts), e.toTermWith ofValue] n.marks
  | .annAssign t a e s n =>
    .node .annAssign [t.toTermWith ofValue, a.toTerm, e.toTermWith ofValue, s] n.marks
  | .ret e n => .node .ret [e.toTermWith ofValue] n.marks
  | .ite t y o n =>
    .node .ifStmt [t.toTermWith ofValue, n.sequence 1 (Stmt.toTermsWith ofValue y),
      n.sequence 2 (Stmt.toTermsWith ofValue o)] n.marks
  | .loop t b o n =>
    .node .whileStmt [t.toTermWith ofValue, n.sequence 1 (Stmt.toTermsWith ofValue b),
      n.sequence 2 (Stmt.toTermsWith ofValue o)] n.marks
  | .fundef f ps b ds r c n =>
    .node .functionDef [.str f, ps.toTerm, b.toTermWith ofValue (n.tuples.contains 2), ds,
      r.toTerm, c] n.marks
  | .importFrom n => .node .importFrom [] n.marks
  | .goto l n => .node (.record .goto) [.str l] n.marks
  | .collect s n => .node (.record .collect) [s] n.marks
  | .tailCall f es n =>
    .node (.record .tailCall)
      [f.toTermWith ofValue, n.sequence 1 (Expr.toTermsWith ofValue es)] n.marks
  | .other t => t

def Stmt.toTermsWith (ofValue : Value → Term) : List Stmt → List Term
  | [] => []
  | s :: ss => s.toTermWith ofValue :: Stmt.toTermsWith ofValue ss

def Body.toTermWith (ofValue : Value → Term) (isTuple : Bool) : Body → Term
  | .stmts ss =>
    let items := Stmt.toTermsWith ofValue ss
    if isTuple then .tuple items else .list items
  | .blocks bs => .dict (Block.entriesWith ofValue bs)
  | .other t => t

def Block.entriesWith (ofValue : Value → Term) : List Block → List (Term × Term)
  | [] => []
  | .mk l c :: bs =>
    (.str l, .list (Stmt.toTermsWith ofValue c)) :: Block.entriesWith ofValue bs

end

namespace Value

def toTermWith (inner : Nat → Term) : Value → Term
  | none => .null
  | bool b => .bool b
  | int i _ => .int i
  | float d _ => .scalar (.float d)
  | str s _ => .str s
  | seq pos => inner pos
  | function name ps _ _ id => .node .function [.str name, ps.toTerm] { id }
  | closure cells arity id =>
    .node .closureTuple [toTermWith inner cells, toTermWith inner arity] { id }
  | tagged v t id => .node (.record .tagged) [toTermWith inner v, toTermWith inner t] { id }
  | proxiedTuple b r id =>
    .node (.record .proxiedTuple) [toTermWith inner b, toTermWith inner r] { id }
  | proxiedList b r w id =>
    .node (.record .proxiedList)
      [toTermWith inner b, toTermWith inner r, toTermWith inner w] { id }
  | other t _ => t

/-- The tree of the sequence at a position, where those in `outer` are being written further
out. -/
def seqTerm (h : Heap) : (fuel : Nat) → (outer : List Nat) → (pos : Nat) → Term
  | 0, _, _ => .cycle "..."
  | fuel + 1, outer, pos =>
    match h[pos]? with
    | Option.none => .cycle "..."
    | some s =>
      if outer.contains pos then .cycle (if s.isList then "[...]" else "(...)")
      else
        let items := s.cells.toList.map (toTermWith (seqTerm h fuel (pos :: outer)))
        if s.isList then .list items else .tuple items

def toTerm (h : Heap) (v : Value) : Term := toTermWith (seqTerm h (h.size + 1) []) v

def text (h : Heap) (v : Value) : Printed := (v.toTerm h).text baseIndent

def dump (h : Heap) (v : Value) : Printed := (v.toTerm h).dump baseIndent

end Value

namespace Expr

def toTerm (h : Heap) (e : Expr) : Term := e.toTermWith (Value.toTerm h)

def text (h : Heap) (ind : Nat) (e : Expr) : Printed := (e.toTerm h).text ind

def dump (h : Heap) (ind : Nat) (e : Expr) : Printed := (e.toTerm h).dump ind

end Expr

namespace Stmt

def toTerm (h : Heap) (s : Stmt) : Term := s.toTermWith (Value.toTerm h)

def text (h : Heap) (ind : Nat) (s : Stmt) : Printed := (s.toTerm h).text ind

def dump (h : Heap) (ind : Nat) (s : Stmt) : Printed := (s.toTerm h).dump ind

end Stmt

namespace Program

def toTerm (h : Heap) : Program → Term
  | module ss n => .node .module [n.sequence 0 (ss.map (Stmt.toTerm h))] n.marks
  | blocks bs n => .node (.record .blocks) [.dict (Block.entriesWith (Value.toTerm h) bs)] n.marks
  | defs ds n => .node (.record .defs) [n.sequence 0 (ds.map (Stmt.toTerm h))] n.marks
  | other t => t

def text (h : Heap) (ind : Nat) (p : Program) : Printed := (p.toTerm h).text ind

def dump (h : Heap) (ind : Nat) (p : Program) : Printed := (p.toTerm h).dump ind

end Program

end CompilerKit
