import CompilerKit.Value.Ops
import CompilerKit.Bindings
import CompilerKit.Console
import CompilerKit.Eval.Language

/-!
# The state of a run

A run has a heap of sequences, the environments that functions capture, the blocks that jumps go
to, a console, a counter for fresh names and a counter for new objects. A run that stops keeps the
state it stopped in.
-/

namespace CompilerKit

abbrev Env := List (String × Value)

/-- The identity of objects that are not made anew when a value is computed. -/
def sharedId : Nat := 1

/-- What a run works on: sequences, environments, blocks and the console. -/
structure Store where
  heap : Heap := #[]
  envs : Array Env := #[]
  /-- The blocks that jumps go to, once a program or a function has been entered. -/
  blocks : Option Body := none
  console : Console := {}
  fresh : Nat := 0
  next : Nat := sharedId + 1

inductive TagUse where
  | load | store | len | tagOf | valueOf

/-- Why a run stops. -/
inductive RunError where
  | fault (f : Fault)
  | foreignExpr (e : Expr)
  | foreignStmt (s : Stmt)
  | foreignTail (s : Stmt)
  | notApplicable (v : Value)
  | noArity (l : Language) (v : Value)
  | noTag (t : Ty)
  | projectMismatch (v : Value) (t : Ty) (e : Expr)
  | untaggedUse (use : TagUse) (v : Value)
  | alreadyTagged
  | badProjection (v : Value)
  | badCast (source target : Ty)
  | untaggable (v : Value)
  | wrongTag (expected : String) (v : Value)
  | missingTag (expected : String) (v : Value)
  | incomparable (a b : Value)
  | indexOutOfBounds

abbrev Run := EStateM RunError Store

abbrev Run.Result := EStateM.Result RunError Store

namespace TagUse

def text : TagUse → String
  | load => "any_load"
  | store => "any_store"
  | len => "any_len"
  | tagOf => "TagOf"
  | valueOf => "ValueOf"

end TagUse

namespace RunError

def arityName (l : Language) : String :=
  if l.isBlocks then "Cany" else if l.hasTags then "Lany" else "Llambda"

def toFault (h : Heap) : RunError → Fault
  | fault f => f
  | foreignExpr e =>
    failureOf do .ok ("error in interp_exp, unexpected " ++ (← e.dump h baseIndent))
  | foreignStmt s =>
    failureOf do .ok ("error in interp_stmt, unexpected " ++ (← s.dump h baseIndent))
  | foreignTail s => failureOf do .ok ("interp_tail: unexpected " ++ (← s.dump h baseIndent))
  | notApplicable v => failureOf do .ok ("apply_fun: unexpected: " ++ (← v.dump h))
  | noArity l v => failureOf do .ok (arityName l ++ " arity unexpected " ++ (← v.dump h))
  | noTag t => failureOf do .ok ("type_to_tag unexpected " ++ (← t.dump))
  | projectMismatch v t e => failureOf do
    .ok ("interp project to " ++ (← t.dump) ++ "  unexpected " ++ (← v.dump h) ++ "\nin\n" ++
      (← e.text h baseIndent))
  | untaggedUse use v =>
    failureOf do .ok ("interp " ++ use.text ++ " unexpected " ++ (← v.dump h))
  | alreadyTagged => .failure "cannot inject a value that is already tagged"
  | badProjection v => failureOf do .ok ("apply_project, unexpected " ++ (← v.dump h))
  | badCast s t => failureOf do
    .ok ("apply_cast unexpected " ++ (← s.dump) ++ " " ++ (← t.dump))
  | untaggable v => failureOf do .ok ("tag: unexpected " ++ (← v.dump h))
  | wrongTag tag v => match v.dump h with
    | .ok s => .trapped ("expected tag " ++ tag ++ ", not  " ++ s)
    | .error m => m.fault
  | missingTag tag v =>
    failureOf do .ok ("expected Tagged value with " ++ tag ++ ", not  " ++ (← v.dump h))
  | incomparable a b => failureOf do
    .ok ("interp Compare unexpected " ++ (← a.dump h) ++ " " ++ (← b.dump h))
  | indexOutOfBounds => .trapped "array index out of bounds"

end RunError

namespace Run

def stop {α : Type} (f : Fault) : Run α := throw (.fault f)

def ofExcept {α : Type} : Except Fault α → Run α
  | .ok a => pure a
  | .error f => stop f

/-- Something that depends on the sequences only. -/
def withHeap {α : Type} (f : Heap → α) : Run α := do
  pure (f (← get).heap)

/-! ## New objects -/

/-- An identity that nothing has had before. -/
def newId : Run Nat := modifyGet fun σ => (σ.next, { σ with next := σ.next + 1 })

/-- A number as a new object. -/
def number (i : Int) : Run Value := do pure (.int i (← newId))

def allocate (s : Sequence) : Run Value := do
  let σ ← get
  set { σ with heap := σ.heap.push s }
  pure (.seq σ.heap.size)

def newList (vs : List Value) : Run Value := allocate ⟨true, vs.toArray⟩

def newTuple (vs : List Value) : Run Value := allocate ⟨false, vs.toArray⟩

def newTagged (payload tag : Value) : Run Value := do pure (.tagged payload tag (← newId))

def newFunction (name : String) (params : Params) (body : Body) (env : Nat) : Run Value := do
  pure (.function name params body env (← newId))

def newClosure (cells arity : Value) : Run Value := do pure (.closure cells arity (← newId))

def newProxiedTuple (base reads : Value) : Run Value := do
  pure (.proxiedTuple base reads (← newId))

def newProxiedList (base read write : Value) : Run Value := do
  pure (.proxiedList base read write (← newId))

def made : Value.Made → Run Value
  | .number i => number i
  | .float d => do pure (.float d (← newId))
  | .text s => do pure (.str s (← newId))
  | .sequence s => allocate s
  | .present v => pure v

/-- A text that is one object wherever it comes from. -/
def sharedText (s : String) : Value := .str s sharedId

/-! ## Environments -/

/-- The number of a new environment. -/
def newEnv (env : Env) : Run Nat := do
  let σ ← get
  set { σ with envs := σ.envs.push env }
  pure σ.envs.size

/-- The bindings of an environment; `f` is the fault of there being no such environment. -/
def envAt (f : Fault) (i : Nat) : Run Env := do
  match (← get).envs[i]? with
  | some env => pure env
  | none => stop f

def lookup (i : Nat) (x : String) : Run Value := do
  match Bindings.get? (← envAt .wrongKind i) x with
  | some v => pure v
  | none => stop (.missingKey (Text.quote x))

def assign (i : Nat) (x : String) (v : Value) : Run Unit := do
  let env ← envAt .wrongKind i
  modify fun σ => { σ with envs := σ.envs.set! i (Bindings.put env x v) }

/-- A name that has not been made before. -/
def fresh (base : String) : Run String := do
  let σ ← get
  set { σ with fresh := σ.fresh + 1 }
  pure (freshName base σ.fresh)

/-! ## Input and output -/

/-- Write the text of a value, with nothing after it. -/
def print (v : Value) : Run Unit := do
  match ← withHeap fun h => v.text h with
  | .ok s => modify fun σ => { σ with console := σ.console.write s }
  | .error m => stop m.fault

/-- Read a number. The least and the greatest word are the same objects every time. -/
def readInt : Run Value := do
  let σ ← get
  let (result, console) := σ.console.readInt
  set { σ with console }
  match result with
  | .ok n =>
    if n = Word.least || n = Word.greatest then pure (.int n sharedId) else number n
  | .error f => stop f

/-! ## Aggregates -/

/-- An item by its position, where nothing is looked through. -/
def plainItem (base index : Value) : Run Value := do
  ofExcept (← withHeap fun h => base.item h index)

def plainSetItem (base index v : Value) : Run Unit := do
  let h ← ofExcept (← withHeap fun h => base.setItem h index v)
  modify fun σ => { σ with heap := h }

def plainLen (base : Value) : Run Nat := do
  ofExcept (← withHeap fun h => base.len h)

/-- Check an index against the length of an aggregate; only the upper end is checked. -/
def checkIndex (base index : Value) : Run Unit := do
  let n ← plainLen base
  let below ← ofExcept (← withHeap fun h => index.ordered h .lt (.int n 0))
  if below then pure () else throw .indexOutOfBounds

end Run

end CompilerKit
