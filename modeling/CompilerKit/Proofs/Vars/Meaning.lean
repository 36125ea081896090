import CompilerKit.Eval.Rules

/-!
# The language of variables

Programs of this language need no bound on the length of their runs: what they do follows their
text.
-/

namespace CompilerKit.Vars

open Run Bindings EStateM Word

variable {D : String → Prop} {K : Value → Prop}
variable {D' : String → Prop} {P : String → Expr → Prop}

/-! ## Programs of the language -/

/-- The expressions of the language over names in `D` and constants in `K`. -/
inductive Built (D : String → Prop) (K : Value → Prop) : Expr → Prop where
  | name (n) (hx : D x) : Built D K (.name x n)
  | const (n) (hc : K c) : Built D K (.const c n)
  | input (m n) : Built D K (.call (.name "input_int" m) [] n)
  | neg (n) (ha : Built D K a) : Built D K (.unary .neg a n)
  | arith {a b op} (n) (hop : hasArith .vars op) (ha : Built D K a) (hb : Built D K b) :
      Built D K (.arith a op b n)

/-- The statements of the language that read names in `D` and names that they have written before.
What they write satisfies `P`. -/
inductive Scoped (P : String → Expr → Prop) (K : Value → Prop) :
    (String → Prop) → List Stmt → Prop where
  | nil {D : String → Prop} : Scoped P K D []
  | print {D e ss} (m n k) (he : Built D K e) (hss : Scoped P K D ss) :
      Scoped P K D (.expr (.call (.name "print" m) [e] n) k :: ss)
  | expr {D e ss} (n) (he : Built D K e) (hss : Scoped P K D ss) : Scoped P K D (.expr e n :: ss)
  | assign {D x e ss} (m n) (hx : P x e) (he : Built D K e)
      (hss : Scoped P K (fun y => y = x ∨ D y) ss) : Scoped P K D (.assign [.name x m] e n :: ss)

/-- The value is a number, or a truth value that counts as one. -/
def IsNumber (v : Value) : Prop := ∃ i, v.asInt? = some i

/-- What the statements write: variables and what they are computed from. -/
def writes : List Stmt → List (String × Expr)
  | [] => []
  | .assign [.name x _] e _ :: ss => (x, e) :: writes ss
  | _ :: ss => writes ss

/-- The variables of a program. Those that it reads are among those that it writes, if it is
checked. -/
def programVars (ss : List Stmt) : List String := (writes ss).map Prod.fst

/-- The expression is a name or a constant. -/
def isAtom : Expr → Bool
  | .name _ _ | .const _ _ => true
  | _ => false

/-- The operands of the expression are atoms. -/
def isSimple : Expr → Bool
  | .unary _ a _ => isAtom a
  | .arith a _ b _ => isAtom a && isAtom b
  | _ => true

/-- The statement only has simple expressions, and outputs atoms. -/
def isNormal : Stmt → Bool
  | .expr (.call _ [a] _) _ => isAtom a
  | .expr e _ => isSimple e
  | .assign _ e _ => isSimple e
  | _ => false

theorem Built.mono {K' : Value → Prop} (h : Built D K e) (hD : ∀ x, D x → D' x)
    (hK : ∀ c, K c → K' c) : Built D' K' e := by
  induction h with
  | name n hx => exact .name n (hD _ hx)
  | const n hc => exact .const n (hK _ hc)
  | input m n => exact .input m n
  | neg n _ ih => exact .neg n ih
  | arith n hop _ _ iha ihb => exact .arith n hop iha ihb

theorem Scoped.mono (h : Scoped P K D ss) (hD : ∀ x, D x → D' x) : Scoped P K D' ss := by
  induction h generalizing D' with
  | nil => exact .nil
  | print m n k he _ ih => exact .print m n k (he.mono hD fun _ hc => hc) (ih hD)
  | expr n he _ ih => exact .expr n (he.mono hD fun _ hc => hc) (ih hD)
  | assign m n hx he _ ih =>
    exact .assign m n hx (he.mono hD fun _ hc => hc) (ih fun y hy => hy.imp_right (hD y))

/-! ## Meaning -/

/-- The value of an expression of the language. -/
def value (env : Nat) : Expr → Run Value
  | .name x _ => lookup env x
  | .const c _ => pure c
  | .unary _ a _ => do
    let x ← value env a
    number (← ofExcept x.negWord)
  | .arith a op b _ => do
    let x ← value env a
    let y ← value env b
    arithValues .vars op x y
  | _ => readInt

/-- What a statement of the language does. -/
def step (env : Nat) : Stmt → Run Unit
  | .expr (.call _ [e] _) _ => do
    let v ← value env e
    print v
  | .expr e _ => do
    let _ ← value env e
  | .assign (.name x _ :: _) e _ => do
    let v ← value env e
    assign env x v
  | _ => pure ()

/-- What statements of the language do. -/
def exec (env : Nat) : List Stmt → Run Unit
  | [] => pure ()
  | s :: ss => do
    step env s
    exec env ss

theorem exec_append (env ss ts) : exec env (ss ++ ts) = (do exec env ss; exec env ts) := by
  induction ss with
  | nil => rfl
  | cons s ss ih =>
    change (step env s >>= fun _ => exec env (ss ++ ts)) = _
    rw [ih]
    exact (bind_assoc (step env s) (fun _ => exec env ss) fun _ => exec env ts).symm

theorem step_expr (h : Built D K e) (n env) : step env (.expr e n) = (do let _ ← value env e) := by
  cases h <;> rfl

/-! ## Environments -/

/-- The value of a variable in the environment number `i` of a store. -/
def read (i : Nat) (σ : Store) (x : String) : Option Value :=
  σ.envs[i]?.bind fun env => get? env x

theorem run_envAt (h : σ.envs[i]? = some env) (f) : (envAt f i).run σ = .ok env σ := by
  rw [envAt, run_bind, run_get]
  simp only [h]
  rfl

theorem run_lookup (h : read i σ x = some v) : (lookup i x).run σ = .ok v σ := by
  obtain ⟨env, henv, hx⟩ := Option.bind_eq_some_iff.mp h
  rw [lookup, run_bind, run_envAt henv]
  simp only [hx]
  rfl

theorem run_lookup_none (hi : i < σ.envs.size) (h : read i σ x = none) :
    (lookup i x).run σ = .error (.fault (.missingKey (Text.quote x))) σ := by
  have henv : σ.envs[i]? = some σ.envs[i] := Array.getElem?_eq_getElem hi
  have hx : get? σ.envs[i] x = none := by
    rwa [read, henv] at h
  rw [lookup, run_bind, run_envAt henv]
  simp only [hx]
  rfl

theorem run_assign (hi : i < σ.envs.size) (x v) :
    ∃ envs, (assign i x v).run σ = .ok () { σ with envs } ∧ envs.size = σ.envs.size ∧
      ∀ y, read i { σ with envs } y = if y = x then some v else read i σ y := by
  have henv : σ.envs[i]? = some σ.envs[i] := Array.getElem?_eq_getElem hi
  refine ⟨σ.envs.set! i (put σ.envs[i] x v), ?_, ?_, fun y => ?_⟩
  · rw [assign, run_bind, run_envAt henv]
    rfl
  · simp
  · simp [read, hi, get?_put]

theorem run_plainLen (h : σ.heap[p]? = some s) :
    (plainLen (.seq p)).run σ = .ok s.cells.size σ := by
  change (ofExcept (Value.len σ.heap (.seq p))).run σ = _
  rw [Value.len, h]
  rfl

/-! ## Input and output -/

theorem run_readInt (σ) :
    readInt.run σ = match σ.console.readInt with
      | (.ok n, console) =>
        if n = least ∨ n = greatest then .ok (.int n sharedId) { σ with console }
        else .ok (.int n σ.next) { σ with console, next := σ.next + 1 }
      | (.error f, console) => .error (.fault f) { σ with console } := by
  rw [readInt, run_bind, run_get]
  dsimp only
  rcases σ.console.readInt with ⟨f | n, console⟩
  · rfl
  · simp only [Bool.or_eq_true, decide_eq_true_eq]
    split <;> rfl

theorem run_print (v σ) :
    (print v).run σ = match v.text σ.heap with
      | .ok s => .ok () { σ with console := σ.console.write s }
      | .error m => .error (.fault m.fault) σ := by
  rw [print, run_bind]
  change (match v.text σ.heap with
    | .ok s => modify fun σ => { σ with console := σ.console.write s }
    | .error m => stop m.fault : Run Unit).run σ = _
  cases v.text σ.heap <;> rfl

/-- Why a run stops in the language: the input has ended, or a number cannot be read or
written. -/
def IsInputError (err : RunError) : Prop :=
  err = .fault .endOfInput ∨ err = .fault .wrongValue

theorem isInputError_readInt {c c' : Console} (h : c.readInt = (.error f, c')) :
    IsInputError (.fault f) := by
  rw [Console.readInt] at h
  split at h
  · cases h; exact .inl rfl
  · split at h
    · cases h; exact .inr rfl
    · cases h

theorem decimal_error (h : decimal j = .error f) : f = .wrongValue := by
  unfold decimal at h
  split at h
  · cases h
  · dsimp only at h
    split at h
    · cases h
    · exact (Except.error.inj h).symm

theorem isInputError_text (hv : IsNumber v) (hm : v.text h = .error m) :
    IsInputError (.fault m.fault) := by
  obtain ⟨i, hi⟩ := hv
  cases v with
  | int j id =>
    change printedAt baseIndent (decimal j) = _ at hm
    cases hj : decimal j with
    | ok s => rw [hj] at hm; cases hm
    | error f =>
      rw [hj] at hm
      cases hm
      exact .inr (congrArg RunError.fault (decimal_error hj))
  | bool b => cases b <;> cases hm
  | _ => cases hi

/-! ## Fuel -/

/-- With more and more fuel the computations `f` become the computations `g`; with less fuel they do
the same or stop for want of it. -/
structure Limit {ι α : Type} (f : Nat → ι → Run α) (g : ι → Run α) : Prop where
  reached : ∃ N, ∀ fuel, N ≤ fuel → f fuel = g
  cut : ∀ fuel i σ, (f fuel i).run σ = (g i).run σ ∨
    ∃ σ', (f fuel i).run σ = .error (.fault .outOfFuel) σ'

namespace Limit

variable {ι κ α β : Type} {f : Nat → ι → Run α} {g : ι → Run α} {k : Nat → ι → α → Run β}
  {l : ι → α → Run β}

theorem const (g : ι → Run α) : Limit (fun _ => g) g := ⟨⟨0, fun _ _ => rfl⟩, fun _ _ _ => .inl rfl⟩

theorem succ (h0 : ∀ i, f 0 i = throw (.fault .outOfFuel)) (h : Limit (fun n => f (n + 1)) g) :
    Limit f g := by
  constructor
  · obtain ⟨N, hN⟩ := h.reached
    refine ⟨N + 1, fun fuel hfuel => ?_⟩
    obtain ⟨n, rfl⟩ := Nat.exists_eq_add_of_le' (Nat.le_of_add_left_le hfuel)
    exact hN n (by omega)
  · intro fuel i σ
    cases fuel with
    | zero => exact .inr ⟨σ, by rw [h0]; rfl⟩
    | succ n => exact h.cut n i σ

theorem bind (h : Limit f g)
    (h' : Limit (fun n (p : ι × α) => k n p.1 p.2) (fun p => l p.1 p.2)) :
    Limit (fun n i => f n i >>= k n i) (fun i => g i >>= l i) := by
  constructor
  · obtain ⟨N, hN⟩ := h.reached
    obtain ⟨M, hM⟩ := h'.reached
    refine ⟨max N M, fun fuel hfuel => funext fun i => ?_⟩
    have hk : k fuel i = l i := funext fun a => congrFun (hM fuel (by omega)) (i, a)
    rw [hN fuel (by omega), hk]
  · intro fuel i σ
    rw [run_bind, run_bind]
    obtain hf | ⟨σ', hf⟩ := h.cut fuel i σ
    · rw [hf]
      cases (g i).run σ with
      | ok a σ' => exact h'.cut fuel (i, a) σ'
      | error err σ' => exact .inl rfl
    · rw [hf]
      exact .inr ⟨σ', rfl⟩

theorem comp (h : Limit f g) (u : κ → ι) : Limit (fun n j => f n (u j)) (fun j => g (u j)) where
  reached := h.reached.imp fun _ hN fuel hfuel => by rw [hN fuel hfuel]
  cut := fun fuel j => h.cut fuel (u j)

/-- A run that ends with some fuel ends in the same way with all the fuel it wants. -/
theorem run_ok (h : Limit f g) {fuel} {i : ι} {σ' a} (hf : (f fuel i).run σ = .ok a σ') :
    (g i).run σ = .ok a σ' := by
  obtain hg | ⟨σ'', hg⟩ := h.cut fuel i σ
  · exact hg.symm.trans hf
  · cases hg.symm.trans hf

end Limit

theorem limit_evalExpr (h : Built D K e) :
    Limit (fun fuel env => evalExpr .vars fuel env e) (fun env => value env e) := by
  induction h with
  | name n hx => exact .succ (fun _ => rfl) (.const fun env => value env (.name _ n))
  | const n hc => exact .succ (fun _ => rfl) (.const fun env => value env (.const _ n))
  | input m n =>
    refine .succ (fun _ => rfl) (.succ (fun _ => rfl) ?_)
    change Limit (fun _ _ => readInt >>= pure) fun _ => readInt
    simp only [bind_pure]
    exact .const fun _ => readInt
  | neg n _ ih =>
    refine .succ (fun _ => rfl) (ih.bind ?_)
    exact .const fun (p : Nat × Value) => do number (← ofExcept p.2.negWord)
  | @arith a b op n hop _ _ iha ihb =>
    refine .succ (fun _ => rfl) ?_
    change Limit (fun fuel env => if hasArith .vars op then (do
      let x ← evalExpr .vars fuel env a
      let y ← evalExpr .vars fuel env b
      arithValues .vars op x y) else _) _
    simp only [hop, if_true]
    refine iha.bind ((ihb.comp Prod.fst).bind ?_)
    exact .const fun (p : (Nat × Value) × Value) => arithValues .vars op p.1.2 p.2

theorem limit_evalStmts (h : Scoped P K D ss) :
    Limit (fun fuel env => evalStmts .vars fuel env ss)
      (fun env => do exec env ss; pure (.int 0 sharedId)) := by
  induction h with
  | nil => exact .succ (fun _ => rfl) (.const fun _ => pure (Value.int 0 sharedId))
  | @print D e ss m n k he _ ih =>
    refine .succ (fun _ => rfl) (.succ (fun _ => rfl) ?_)
    simp only [exec, step, bind_assoc]
    refine (limit_evalExpr he).bind (Limit.bind (.const fun (p : Nat × Value) => print p.2) ?_)
    exact ih.comp fun (p : (Nat × Value) × Unit) => p.1.1
  | @expr D e ss n he _ ih =>
    refine .succ (fun _ => rfl) (.succ (fun _ => by cases he <;> rfl) ?_)
    have hstep : ∀ f env, evalStmts .vars (f + 2) env (.expr e n :: ss) = (do
        let _ ← evalExpr .vars f env e
        evalStmts .vars f env ss) := fun _ _ => by
      cases he <;> rfl
    simp only [hstep, exec, step_expr he, bind_assoc, pure_bind]
    exact (limit_evalExpr he).bind (ih.comp Prod.fst)
  | @assign D x e ss m n _ he _ ih =>
    refine .succ (fun _ => rfl) (.succ (fun _ => rfl) ?_)
    simp only [exec, step, bind_assoc]
    refine (limit_evalExpr he).bind
      (Limit.bind (.const fun (p : Nat × Value) => assign p.1 x p.2) ?_)
    exact ih.comp fun (p : (Nat × Value) × Unit) => p.1.1

/-- A program of the language: its statements in a new environment. -/
def runModule (ss : List Stmt) : Run Unit := do
  let env ← newEnv []
  exec env ss

theorem limit_runProgram (h : Scoped P K D ss) (note) :
    Limit (fun fuel (_ : Unit) => runProgram .vars fuel (.module ss note))
      fun _ => runModule ss := by
  have hstmts : Limit (fun fuel env => do
      let _ ← evalStmts .vars fuel env ss
      pure ()) (fun env => exec env ss) := by
    have hunit := (limit_evalStmts h).bind (k := fun _ _ _ => pure ()) (l := fun _ _ => pure ())
      (.const fun _ => pure ())
    simpa only [bind_assoc, pure_bind, bind_pure_unit] using hunit
  exact (Limit.const fun _ => newEnv []).bind (hstmts.comp Prod.snd)

end CompilerKit.Vars
