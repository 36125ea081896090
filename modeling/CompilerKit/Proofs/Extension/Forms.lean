import CompilerKit.Proofs.Vars.Meaning

/-!
# The forms of a language

Each language of the chain from variables to values of unknown type has the forms of the one below
it and some of its own. A run of a program in the forms of a language only meets the values that
these forms make, and its sequences keep their lengths.
-/

namespace CompilerKit

open Run Bindings Array

namespace Extension

/-- The next language of the chain. -/
inductive Next : Language → Language → Prop where
  | conditionals : Next .vars .conditionals
  | loops : Next .conditionals .loops
  | tuples : Next .loops .tuples
  | arrays : Next .tuples .arrays
  | functions : Next .arrays .functions
  | lambdas : Next .functions .lambdas
  | anys : Next .lambdas .anys

namespace Next

variable {l : Language}

variable (h : Next l l')
include h

/-- The flags of the features that no language of the chain has. -/
theorem plain_left : l.isBlocks = false ∧ l.isDynamic = false ∧
    (l == .generics) = false ∧ l.hasTags = false ∧ l.hasCasts = false ∧ l.hasProxies = false := by
  cases h <;> decide

theorem plain_right : l'.isBlocks = false ∧ l'.isDynamic = false ∧
    (l' == .generics) = false ∧ l'.hasCasts = false ∧ l'.hasProxies = false ∧
    l'.seesProxies = false := by
  cases h <;> decide

theorem level_le : l.level ≤ l'.level := by
  cases h <;> decide

/-- A feature that comes with a level is there from that level on. -/
theorem has (hk : decide (k ≤ l.level)) : decide (k ≤ l'.level) :=
  decide_eq_true (Nat.le_trans (of_decide_eq_true hk) h.level_le)

theorem hasLoops (hl : l.hasLoops) : l'.hasLoops := by
  cases h <;> first | rfl | cases hl

end Next

end Extension

namespace Language

/-! ## Forms -/

def hasUnary (l : Language) : UnaryOp → Bool
  | .neg => true
  | .not => l.hasConditionals
  | _ => false

/-- Identity of objects comes with tuples. -/
def hasCompare (l : Language) : CmpOp → Bool
  | .eq | .notEq | .lt | .le | .gt | .ge => true
  | .same => l.hasTuples
  | _ => false

/-- A name may be called with a number of arguments: as an operation of the language with that
number of operands, or as a function. -/
def hasCall (l : Language) (f : String) (n : Nat) : Bool :=
  match f, n with
  | "print", 1 | "input_int", 0 => true
  | "len", 1 => l.hasTuples
  | "array_len", 1 | "array_load", 2 | "array_store", 3 => l.hasArrays
  | "arity", 1 => l.hasLambdas
  | f, _ => l.hasFunctions && !builtins.contains f

def hasCallee (l : Language) (f : Expr) (n : Nat) : Bool :=
  match f with
  | .name x _ => l.hasCall x n
  | _ => l.hasFunctions

end Language

namespace Extension

/-- Numbers, truth values and nothing. -/
def isConstant : Value → Bool
  | .none | .bool _ | .int _ _ => true
  | _ => false

/-- The number of parameters as it is written in a closure. -/
def isCount : Term → Bool
  | .scalar (.int _) => true
  | _ => false

def isName : Expr → Bool
  | .name _ _ => true
  | _ => false

/-- What a value can be assigned to. -/
def isTarget : Expr → Bool
  | .name _ _ | .subscript _ _ _ _ => true
  | _ => false

end Extension

variable {l : Language} {p : Nat} {v : Value} {env : Env}

namespace Language

open Extension

mutual

/-- The expression is in the forms of the language. -/
def hasExpr (l : Language) : Expr → Bool
  | .name _ _ => l.hasVariables
  | .const c _ => isConstant c
  | .arith a op b _ => hasArith l op && l.hasExpr a && l.hasExpr b
  | .unary op a _ => l.hasUnary op && l.hasExpr a
  | .logic _ es _ => l.hasConditionals && l.hasExprs es
  | .cond test yes no _ => l.hasConditionals && l.hasExpr test && l.hasExpr yes && l.hasExpr no
  | .compare a ops bs _ =>
    l.hasConditionals && ops.all l.hasCompare && l.hasExpr a && l.hasExprs bs
  | .block ss r _ => l.hasConditionals && l.hasStmts ss && l.hasExpr r
  | .tuple es _ _ => l.hasTuples && l.hasExprs es
  | .subscript b i _ _ => l.hasTuples && l.hasExpr b && l.hasExpr i
  | .allocate _ _ _ | .global _ _ => l.hasTuples
  | .list es _ _ => l.hasArrays && l.hasExprs es
  | .allocateArray _ _ _ => l.hasArrays
  | .call f args _ => l.hasCallee f args.length && l.hasExpr f && l.hasExprs args
  | .funRef _ _ _ => l.hasFunctions
  | .lambda _ body _ => l.hasLambdas && l.hasExpr body
  | .uninitialized _ _ => l.hasLambdas
  | .allocateClosure _ _ a _ => l.hasLambdas && isCount a
  | .uncheckedCast b _ _ => l.hasLambdas && l.hasExpr b
  | .closure a es _ => l.hasLambdas && isCount a && l.hasExprs es
  | _ => false

def hasExprs (l : Language) : List Expr → Bool
  | [] => true
  | e :: es => l.hasExpr e && l.hasExprs es

/-- The statement is in the forms of the language. -/
def hasStmt (l : Language) : Stmt → Bool
  | .expr e _ => l.hasExpr e
  | .assign ts e _ => ts.all isTarget && l.hasExprs ts && l.hasExpr e
  | .ite test yes no _ => l.hasConditionals && l.hasExpr test && l.hasStmts yes && l.hasStmts no
  | .loop test body _ _ => l.hasLoops && l.hasExpr test && l.hasStmts body
  | .collect _ _ => l.hasTuples
  | .ret e _ => l.hasFunctions && l.hasExpr e
  | .fundef _ _ body _ _ _ _ => l.hasFunctions && l.hasBody body
  | .annAssign x _ e _ _ => l.hasLambdas && isName x && l.hasExpr e
  | .pass _ => l.hasLambdas
  | _ => false

def hasStmts (l : Language) : List Stmt → Bool
  | [] => true
  | s :: ss => l.hasStmt s && l.hasStmts ss

def hasBody (l : Language) : Body → Bool
  | .stmts ss => l.hasStmts ss
  | _ => false

end

@[simp] theorem hasExprs_cons (l : Language) (e es) :
    l.hasExprs (e :: es) = (l.hasExpr e && l.hasExprs es) := rfl

@[simp] theorem hasStmts_cons (l : Language) (s ss) :
    l.hasStmts (s :: ss) = (l.hasStmt s && l.hasStmts ss) := rfl

theorem hasFunctions_of_hasLambdas (hl : l.hasLambdas) : l.hasFunctions :=
  decide_eq_true (Nat.le_of_succ_le (of_decide_eq_true hl))

theorem hasVariables_of_hasFunctions (hl : l.hasFunctions) : l.hasVariables :=
  decide_eq_true (Nat.le_trans (by decide) (of_decide_eq_true hl))

theorem hasStmts_append (hss : l.hasStmts ss) (hts : l.hasStmts ts) : l.hasStmts (ss ++ ts) := by
  induction ss with
  | nil => exact hts
  | cons s ss ih =>
    rw [hasStmts_cons, Bool.and_eq_true] at hss
    rw [List.cons_append, hasStmts_cons, hss.1, ih hss.2]
    rfl

end Language

namespace Extension

/-! ## Values and stores -/

/-- The values that the forms of a language make. -/
inductive Plain (l : Language) (σ : Store) : Value → Prop where
  | none : Plain l σ .none
  | bool (b) : Plain l σ (.bool b)
  | int (i id) : Plain l σ (.int i id)
  | seq {p : Nat} (hp : p < σ.heap.size) : Plain l σ (.seq p)
  | function (f ps i id) (hl : l.hasFunctions) (hss : l.hasStmts ss) :
      Plain l σ (.function f ps (.stmts ss) i id)
  | closure (id) (hl : l.hasLambdas) (hcells : Plain l σ cells) (harity : Plain l σ arity) :
      Plain l σ (.closure cells arity id)

/-- A later store: every sequence is still there, with the same length, and so is every environment,
and what has been written stays written. -/
structure Keeps (σ τ : Store) : Prop where
  seqs : ∀ (p : Nat) (s : Sequence), σ.heap[p]? = some s →
    ∃ t : Sequence, τ.heap[p]? = some t ∧ t.cells.size = s.cells.size
  envs : σ.envs.size ≤ τ.envs.size
  output : ∃ more, τ.console.output = σ.console.output ++ more

/-- All cells and variables hold plain values. -/
structure Tidy (l : Language) (σ : Store) : Prop where
  cells : ∀ (p : Nat) (s : Sequence), σ.heap[p]? = some s → ∀ v ∈ s.cells, Plain l σ v
  envs : ∀ (i : Nat) (env : Env), σ.envs[i]? = some env → ∀ x v, get? env x = some v → Plain l σ v

section

variable {σ : Store}

namespace Keeps

theorem of_eq (hheap : τ.heap = σ.heap) (henvs : σ.envs.size ≤ τ.envs.size)
    (houtput : τ.console.output = σ.console.output) : Keeps σ τ where
  seqs p s hs := ⟨s, by rw [hheap]; exact hs, rfl⟩
  envs := henvs
  output := ⟨"", by rw [houtput, String.append_empty]⟩

theorem refl (σ) : Keeps σ σ := of_eq rfl (Nat.le_refl _) rfl

theorem trans (h : Keeps σ τ) (h' : Keeps τ υ) : Keeps σ υ where
  seqs p s hs := by
    obtain ⟨t, ht, hsize⟩ := h.seqs p s hs
    obtain ⟨u, hu, hsize'⟩ := h'.seqs p t ht
    exact ⟨u, hu, hsize'.trans hsize⟩
  envs := Nat.le_trans h.envs h'.envs
  output := by
    obtain ⟨more, hmore⟩ := h.output
    obtain ⟨more', hmore'⟩ := h'.output
    exact ⟨more ++ more', by rw [hmore', hmore, String.append_assoc]⟩

theorem lt (h : Keeps σ τ) (hp : p < σ.heap.size) : p < τ.heap.size := by
  obtain ⟨t, ht, -⟩ := h.seqs p _ (getElem?_eq_getElem hp)
  exact (Array.getElem?_eq_some_iff.mp ht).1

theorem push (σ s) : Keeps σ { σ with heap := σ.heap.push s } where
  seqs p t ht := by
    have hlt := (Array.getElem?_eq_some_iff.mp ht).1
    refine ⟨t, ?_, rfl⟩
    rw [Array.getElem?_push, if_neg (Nat.ne_of_lt hlt)]
    exact ht
  envs := Nat.le_refl _
  output := (refl σ).output

theorem pushEnv (σ env) : Keeps σ { σ with envs := σ.envs.push env } := of_eq rfl (by simp) rfl

theorem setEnv (σ : Store) (i : Nat) (env : Env) :
    Keeps σ { σ with envs := σ.envs.set! i env } :=
  of_eq rfl (by simp) rfl

theorem set (hs : σ.heap[p]? = some s) (ht : t.cells.size = s.cells.size) :
    Keeps σ { σ with heap := σ.heap.set! p t } where
  seqs q u hu := by
    have hlt := (Array.getElem?_eq_some_iff.mp hs).1
    by_cases hpq : p = q
    · subst hpq
      obtain rfl : s = u := Option.some.inj (hs.symm.trans hu)
      exact ⟨t, by simp [hlt], ht⟩
    · exact ⟨u, by simpa [hpq] using hu, rfl⟩
  envs := Nat.le_refl _
  output := (refl σ).output

end Keeps

theorem Plain.mono (h : Plain l σ v) (hτ : Keeps σ τ) : Plain l τ v := by
  induction h with
  | none => exact .none
  | bool b => exact .bool b
  | int i id => exact .int i id
  | seq hp => exact .seq (hτ.lt hp)
  | function f ps i id hl hss => exact .function f ps i id hl hss
  | closure id hl _ _ hcells harity => exact .closure id hl hcells harity

theorem Plain.of_isConstant (h : isConstant c) : Plain l σ c := by
  cases c with
  | none => exact .none
  | bool b => exact .bool b
  | int i id => exact .int i id
  | _ => cases h

variable (henv : ∀ x v, get? env x = some v → Plain l σ v)

namespace Tidy

variable (hσ : Tidy l σ)
include hσ

/-- What is no sequence and no variable does not matter. -/
theorem congr (hkeep : Keeps σ τ) (hheap : τ.heap = σ.heap) (henvs : τ.envs = σ.envs) :
    Tidy l τ where
  cells p s hs v hv := by
    rw [hheap] at hs
    exact (hσ.cells p s hs v hv).mono hkeep
  envs i env henv x v hx := by
    rw [henvs] at henv
    exact (hσ.envs i env henv x v hx).mono hkeep

theorem push (hs : ∀ v ∈ s.cells, Plain l σ v) : Tidy l { σ with heap := σ.heap.push s } := by
  have hkeep := Keeps.push σ s
  refine ⟨fun p t ht v hv => ?_, fun i env henv x v hx => (hσ.envs i env henv x v hx).mono hkeep⟩
  rw [getElem?_push] at ht
  split at ht
  · cases ht
    exact (hs v hv).mono hkeep
  · exact (hσ.cells p t ht v hv).mono hkeep

theorem set (hs : σ.heap[p]? = some s) (hc : Plain l σ c) :
    Tidy l { σ with heap := σ.heap.set! p { s with cells := s.cells.set! q c } } := by
  have hlt := (Array.getElem?_eq_some_iff.mp hs).1
  have hkeep := Keeps.set (t := { s with cells := s.cells.set! q c }) hs (by simp)
  refine ⟨fun j t ht v hv => ?_, fun i env henv x v hx => (hσ.envs i env henv x v hx).mono hkeep⟩
  by_cases hpj : p = j
  · subst hpj
    obtain rfl : { s with cells := s.cells.set! q c } = t := by simpa [hlt] using ht
    rcases Array.mem_or_eq_of_mem_setIfInBounds (by simpa using hv) with hv | rfl
    · exact (hσ.cells p s hs v hv).mono hkeep
    · exact hc.mono hkeep
  · exact (hσ.cells j t (by simpa [hpj] using ht) v hv).mono hkeep

include henv

theorem pushEnv : Tidy l { σ with envs := σ.envs.push env } := by
  have hkeep := Keeps.pushEnv σ env
  refine ⟨fun p s hs v hv => (hσ.cells p s hs v hv).mono hkeep, fun i env' henv' x v hx => ?_⟩
  rw [getElem?_push] at henv'
  split at henv'
  · cases henv'
    exact (henv x v hx).mono hkeep
  · exact (hσ.envs i env' henv' x v hx).mono hkeep

theorem setEnv : Tidy l { σ with envs := σ.envs.set! i env } := by
  have hkeep := Keeps.setEnv σ i env
  refine ⟨fun p s hs v hv => (hσ.cells p s hs v hv).mono hkeep, fun j env' henv' x v hx => ?_⟩
  rw [set!_eq_setIfInBounds, getElem?_setIfInBounds] at henv'
  split at henv'
  · split at henv'
    · cases henv'
      exact (henv x v hx).mono hkeep
    · cases henv'
  · exact (hσ.envs j env' henv' x v hx).mono hkeep

end Tidy

include henv

theorem Plain.put (hv : Plain l σ v) :
    ∀ y w, get? (put env x v) y = some w → Plain l σ w := by
  intro y w hw
  rw [get?_put] at hw
  split at hw
  · cases hw
    exact hv
  · exact henv y w hw

theorem Plain.putAll (hmore : ∀ p ∈ more, Plain l σ p.2) :
    ∀ y w, get? (putAll env more) y = some w → Plain l σ w :=
  List.foldlRecOn (motive := fun env => ∀ y w, get? env y = some w → Plain l σ w) more _ henv
    fun _ henv p hp => Plain.put henv (hmore p hp)

end

end Extension

end CompilerKit
