import CompilerKit.Typing.Source

/-!
# Checking with built-in types

A small family of type systems in which types are the built-in types themselves. They only accept
or refuse and record nothing. From conditionals on, a form without a rule of its own ends in an
unbound name.
-/

namespace CompilerKit

open Check

inductive HostSystem where
  | vars
  | conditionals
  | loops
  deriving BEq

def hostEqual (s t : Ty) (place : Culprit) : Except CheckError Unit :=
  if s == t then .ok () else .error (.mismatch s t place)

def hostExpr (c : HostSystem) (e : Expr) : Check Ty := do
  let number := Ty.host .int
  let truth := Ty.host .bool
  if c == .vars then
    match e with
    | .arith l .add r _ => do
      liftM (hostEqual (← hostExpr c l) number (.expr l))
      liftM (hostEqual (← hostExpr c r) number (.expr r))
      pure number
    | .unary .neg a _ => do
      liftM (hostEqual (← hostExpr c a) number (.expr a))
      pure number
    | .name x _ => lookup x
    | .const (.int _ _) _ => pure number
    | .const (.bool _) _ => pure number
    | .call (.name "input_int" _) [] _ => pure number
    | .other t => refuseTree .vars "error in TypeCheckPvar.type_check_exp, unhandled " t
    | e => refuse (.unexpected "error in TypeCheckPvar.type_check_exp, unhandled " (.expr e))
  else
    match e with
    | .const (.bool _) _ => pure truth
    | .cond test yes no n => do
      liftM (hostEqual truth (← hostExpr c test) (.expr test))
      let t ← hostExpr c yes
      liftM (hostEqual t (← hostExpr c no) (.expr (.cond test yes no n)))
      pure t
    | .arith l .sub r _ => do
      liftM (hostEqual (← hostExpr c l) number (.expr l))
      liftM (hostEqual (← hostExpr c r) number (.expr r))
      pure number
    | .unary .not a _ => do
      liftM (hostEqual (← hostExpr c a) truth (.expr a))
      pure truth
    | .logic _ (a :: b :: _) _ => do
      liftM (hostEqual (← hostExpr c a) truth (.expr a))
      liftM (hostEqual (← hostExpr c b) truth (.expr b))
      pure truth
    | .logic _ _ _ => stop .outOfRange
    | .other (.node .boolOp [_, es] _) => do
      let _ ← ofExcept (es.item 0)
      let _ ← ofExcept (es.item 1)
      stop .unboundName
    | .compare l [op] [r] n => do
      let s ← hostExpr c l
      if op == .eq || op == .notEq then
        liftM (hostEqual s (← hostExpr c r) (.expr (.compare l [op] [r] n)))
        pure truth
      else
        liftM (hostEqual s number (.expr l))
        liftM (hostEqual (← hostExpr c r) number (.expr r))
        pure truth
    | _ => stop .unboundName

def hostAssign (target e : Expr) (t : Ty) : Check Unit := do
  let name? : Option Term := match target with
    | .name x _ => some (.str x)
    | .other t => t.field? "id"
    | _ => none
  match name? with
  | some (.str x) => match ← find? x with
    | some u => liftM (hostEqual u t (.expr e))
    | none => bind x t
  | some k => if k.hashable then pure () else stop .wrongKind
  | none => stop .missingPart

mutual

def hostStmt (c : HostSystem) : Stmt → Check Unit
  | .ite test yes no _ =>
    if c == .vars then stop .unboundName
    else do
      liftM (hostEqual (.host .bool) (← hostExpr c test) (.expr test))
      hostStmts c yes
      hostStmts c no
  | .loop test body [] _ =>
    if c == .loops then do
      liftM (hostEqual (.host .bool) (← hostExpr c test) (.expr test))
      hostStmts c body
    else stop .unboundName
  | .assign [target] e _ => do
    hostAssign target e (← hostExpr c e)
  | .expr (.call (.name "print" _) [a] _) _ => do
    liftM (hostEqual (← hostExpr c a) (.host .int) (.expr a))
  | .expr e _ => do
    let _ ← hostExpr c e
  | _ => stop .unboundName

def hostStmts (c : HostSystem) : List Stmt → Check Unit
  | [] => pure ()
  | s :: rest => do
    hostStmt c s
    hostStmts c rest

end

/-- Check a program. Anything but a list of statements is taken as it is. -/
def hostModule (c : HostSystem) : Program → Except CheckError Unit
  | .module ss _ => do
    let _ ← (hostStmts c ss).run []
    pure ()
  | .other (.node .module [b] _) => do
    let _ ← (foreignBody "" (.other b)).run []
    pure ()
  | _ => .ok ()

end CompilerKit
