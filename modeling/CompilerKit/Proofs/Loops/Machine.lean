import CompilerKit.Eval.Rules

/-!
# The language of loops, step by step

A machine that runs programs of the language of loops in small steps. It uses the operations on
values and stores that evaluation uses. Where evaluation passes over a test that is no truth value,
and over all that follows it, the machine is stuck.

* `Agrees.bind`: computations that agree with parts of a run agree with the whole.
* `simulated`: evaluation agrees with the machine, by induction on the fuel.
-/

namespace CompilerKit.Loops

open Run List EStateM Nat

/-! ## Programs of the language -/

/-- The comparisons of the language. -/
def isComparison : CmpOp → Bool
  | .eq | .notEq | .lt | .le | .gt | .ge => true
  | _ => false

mutual

/-- The expressions of the language. -/
inductive IsExpr : Expr → Prop where
  | name (x n) : IsExpr (.name x n)
  | int (i id n) : IsExpr (.const (.int i id) n)
  | bool (b n) : IsExpr (.const (.bool b) n)
  | input (m n) : IsExpr (.call (.name "input_int" m) [] n)
  | neg (n) (ha : IsExpr a) : IsExpr (.unary .neg a n)
  | not (n) (ha : IsExpr a) : IsExpr (.unary .not a n)
  | arith {a b op} (n) (hop : hasArith .loops op) (ha : IsExpr a) (hb : IsExpr b) :
      IsExpr (.arith a op b n)
  /-- Operands after the second one are never looked at. -/
  | logic (op more n) (ha : IsExpr a) (hb : IsExpr b) : IsExpr (.logic op (a :: b :: more) n)
  | cond (n) (htest : IsExpr test) (hyes : IsExpr yes) (hno : IsExpr no) :
      IsExpr (.cond test yes no n)
  | compare {a b op} (n) (hop : isComparison op) (ha : IsExpr a) (hb : IsExpr b) :
      IsExpr (.compare a [op] [b] n)
  | block (hn : n.tuples = []) (hss : ∀ s ∈ ss, IsStmt s) (hr : IsExpr r) : IsExpr (.block ss r n)

/-- The statements of the language. The statements inside of them are in lists, not in tuples. -/
inductive IsStmt : Stmt → Prop where
  | print (m n k) (he : IsExpr e) : IsStmt (.expr (.call (.name "print" m) [e] n) k)
  | expr (n) (he : IsExpr e) : IsStmt (.expr e n)
  | assign (x m n) (he : IsExpr e) : IsStmt (.assign [.name x m] e n)
  | ite (hn : n.tuples = []) (htest : IsExpr test) (hyes : ∀ s ∈ yes, IsStmt s)
      (hno : ∀ s ∈ no, IsStmt s) : IsStmt (.ite test yes no n)
  | loop (hn : n.tuples = []) (htest : IsExpr test) (hbody : ∀ s ∈ body, IsStmt s) :
      IsStmt (.loop test body [] n)

end

/-! ## The machine -/

/-- What the machine looks at inside of an expression. -/
inductive Focus where
  | eval (e : Expr)
  | give (v : Value)

/-- What waits for the value of an expression inside of another one. -/
inductive Frame where
  | neg
  | not
  | arithLeft (op : ArithOp) (b : Expr)
  | arithRight (op : ArithOp) (x : Value)
  | logic (op : LogicOp) (b : Expr)
  | cond (yes no : Expr)
  | compareLeft (op : CmpOp) (b : Expr)
  | compareRight (op : CmpOp) (x : Value)

/-- The statement that waits for the value of an expression, and the statements that follow it. -/
inductive Use where
  | print (rest : List Stmt)
  | drop (rest : List Stmt)
  | assign (x : String) (rest : List Stmt)
  | ite (yes no rest : List Stmt)
  /-- The loop is run again after its body. -/
  | loop (again : Stmt) (body rest : List Stmt)

/-- A block whose statements are run: its result, and what waits for the result. -/
structure Block where
  result : Expr
  frames : List Frame
  use : Use

/-- Where the machine is in the program, with the blocks that it is inside of. -/
inductive Point where
  | stmts (ss : List Stmt) (blocks : List Block)
  /-- After the last statement. -/
  | done (blocks : List Block)
  | expr (focus : Focus) (frames : List Frame) (use : Use) (blocks : List Block)

structure State where
  point : Point
  store : Store

inductive Outcome where
  | running (c : State)
  | finished (σ : Store)
  | failed (e : RunError) (σ : Store)
  | stuck

/-- Go on after an operation. -/
def perform {α : Type} (x : Run α) (σ : Store) (next : α → Store → Outcome) : Outcome :=
  match x.run σ with
  | .ok a σ => next a σ
  | .error e σ => .failed e σ

/-- Go on with a value inside of an expression. -/
def give (ks : List Frame) (u : Use) (bs : List Block) (v : Value) (σ : Store) : Outcome :=
  .running ⟨.expr (.give v) ks u bs, σ⟩

/-- Go on with a part of an expression. -/
def enter (ks : List Frame) (u : Use) (bs : List Block) (e : Expr) (σ : Store) : Outcome :=
  .running ⟨.expr (.eval e) ks u bs, σ⟩

/-- Go on with statements. -/
def proceed (bs : List Block) (ss : List Stmt) (σ : Store) : Outcome :=
  .running ⟨.stmts ss bs, σ⟩

/-- Go on after the last statement. -/
def leave (bs : List Block) (σ : Store) : Outcome := .running ⟨.done bs, σ⟩

/-- The step that looks at an expression. -/
def stepEval (env : Nat) (σ : Store) (ks : List Frame) (u : Use) (bs : List Block) :
    Expr → Outcome
  | .name x _ => perform (lookup env x) σ (give ks u bs)
  | .const c _ => give ks u bs c σ
  | .call (.name "input_int" _) [] _ => perform readInt σ (give ks u bs)
  | .unary .neg a _ => enter (.neg :: ks) u bs a σ
  | .unary .not a _ => enter (.not :: ks) u bs a σ
  | .arith a op b _ => enter (.arithLeft op b :: ks) u bs a σ
  | .logic op (a :: b :: _) _ => enter (.logic op b :: ks) u bs a σ
  | .cond test yes no _ => enter (.cond yes no :: ks) u bs test σ
  | .compare a [op] [b] _ => enter (.compareLeft op b :: ks) u bs a σ
  | .block ss r _ => proceed (⟨r, ks, u⟩ :: bs) ss σ
  | _ => .stuck

/-- The step that gives a value to the expression that waits for it. -/
def stepFrame (σ : Store) (ks : List Frame) (u : Use) (bs : List Block) (v : Value) :
    Frame → Outcome
  | .neg => perform (do number (← ofExcept v.negWord)) σ (give ks u bs)
  | .not => perform (do pure (.bool (← withHeap fun h => !v.truthy h))) σ (give ks u bs)
  | .arithLeft op b => enter (.arithRight op v :: ks) u bs b σ
  | .arithRight op x => perform (arithValues .loops op x v) σ (give ks u bs)
  | .logic op b => match op, v with
    | .and, .bool true | .or, .bool false => enter ks u bs b σ
    | .and, .bool false => give ks u bs (.bool false) σ
    | .or, .bool true => give ks u bs (.bool true) σ
    | _, _ => .stuck
  | .cond yes no => match v with
    | .bool true => enter ks u bs yes σ
    | .bool false => enter ks u bs no σ
    | _ => .stuck
  | .compareLeft op b => enter (.compareRight op v :: ks) u bs b σ
  | .compareRight op x =>
    perform (do pure (.bool (← compareValues .loops op x v))) σ (give ks u bs)

/-- The step that gives a value to the statement that waits for it. -/
def stepUse (env : Nat) (σ : Store) (bs : List Block) (v : Value) : Use → Outcome
  | .print rest => perform (print v) σ fun _ => proceed bs rest
  | .drop rest => proceed bs rest σ
  | .assign x rest => perform (assign env x v) σ fun _ => proceed bs rest
  | .ite yes no rest => match v with
    | .bool true => proceed bs (yes ++ rest) σ
    | .bool false => proceed bs (no ++ rest) σ
    | _ => .stuck
  | .loop again body rest =>
    proceed bs (if v.truthy σ.heap then body ++ again :: rest else rest) σ

/-- The step that looks at a statement. -/
def stepStmt (σ : Store) (bs : List Block) (rest : List Stmt) : Stmt → Outcome
  | .expr (.call (.name "print" _) [e] _) _ => enter [] (.print rest) bs e σ
  | .expr e _ => enter [] (.drop rest) bs e σ
  | .assign [.name x _] e _ => enter [] (.assign x rest) bs e σ
  | .ite test yes no _ => enter [] (.ite yes no rest) bs test σ
  | .loop test body [] n => enter [] (.loop (.loop test body [] n) body rest) bs test σ
  | _ => .stuck

/-- One step of the machine. -/
def step (env : Nat) (c : State) : Outcome :=
  match c.point with
  | .stmts [] bs => leave bs c.store
  | .stmts (s :: rest) bs => stepStmt c.store bs rest s
  | .done [] => .finished c.store
  | .done (b :: bs) => enter b.frames b.use bs b.result c.store
  | .expr (.eval e) ks u bs => stepEval env c.store ks u bs e
  | .expr (.give v) (k :: ks) u bs => stepFrame c.store ks u bs v k
  | .expr (.give v) [] u bs => stepUse env c.store bs v u

/-- Several steps. -/
def run (env : Nat) : Nat → State → Outcome
  | 0, c => .running c
  | n + 1, c => match step env c with
    | .running c => run env n c
    | o => o

variable {ss : List Stmt} {test : Expr} {n : Note}

section Run

variable {env : Nat} {c : State}

theorem run_one (env c) : run env 1 c = step env c := by
  rw [run]
  cases step env c <;> rfl

theorem run_add (h : run env m c = .running c') (n) : run env (m + n) c = run env n c' := by
  induction m generalizing c with
  | zero =>
    cases h
    rw [Nat.zero_add]
  | succ m ih =>
    rw [succ_add, run]
    rw [run] at h
    cases hs : step env c with
    | running d =>
      rw [hs] at h
      exact ih h
    | _ =>
      rw [hs] at h
      cases h

theorem run_le {n} (h : run env n c = .running c') (hmn : m ≤ n) :
    ∃ d, run env m c = .running d := by
  induction n generalizing m c with
  | zero =>
    obtain rfl : m = 0 := le_zero.mp hmn
    exact ⟨c, rfl⟩
  | succ n ih =>
    cases m with
    | zero => exact ⟨c, rfl⟩
    | succ m =>
      rw [run] at h ⊢
      cases hs : step env c with
      | running d =>
        rw [hs] at h
        exact ih h (le_of_succ_le_succ hmn)
      | _ =>
        rw [hs] at h
        cases h

end Run

/-! ## Agreement -/

/-- The machine does what a computation has done: it comes to `k`, or it fails in the same way. If
the computation has stopped for want of fuel, the machine takes about half as many steps at least,
and it then has the store at which the computation has stopped. A machine that gets stuck agrees
with everything. -/
inductive Agrees {α : Type} (env : Nat) (c : State) (fuel : Nat) (k : α → Store → Outcome) :
    Result α → Prop where
  | ok {n a σ} (h : run env n c = k a σ) : Agrees env c fuel k (.ok a σ)
  | failed {n e σ} (h : run env n c = .failed e σ) : Agrees env c fuel k (.error e σ)
  | cut {n d} (hn : fuel ≤ 2 * n + 1) (h : run env n c = .running d) :
      Agrees env c fuel k (.error (.fault .outOfFuel) d.store)
  | stuck {n r} (h : run env n c = .stuck) : Agrees env c fuel k r

namespace Agrees

variable {α β : Type} {env fuel : Nat} {c : State} {k : α → Store → Outcome}
variable {x : Run β} {f : β → Run α} {σ : Store} {next : β → Store → State}

theorem out_of_fuel (hfuel : fuel ≤ 1) (p σ) :
    Agrees env ⟨p, σ⟩ fuel k ((stop .outOfFuel).run σ) :=
  .cut (n := 0) (Nat.le_trans hfuel (Nat.le_refl 1)) rfl

theorem after (hc : run env m c = .running d) (hfuel : fuel' ≤ fuel + 2 * m)
    (h : Agrees env d fuel k r) : Agrees env c fuel' k r := by
  cases h with
  | @ok n a σ h => exact .ok ((run_add hc n).trans h)
  | @failed n e σ h => exact .failed ((run_add hc n).trans h)
  | @cut n d' hn h => exact .cut (by omega) ((run_add hc n).trans h)
  | @stuck n r h => exact .stuck ((run_add hc n).trans h)

/-- One step of the machine pays for two rules. -/
theorem step (hs : step env c = .running d) (hfuel : fuel' ≤ fuel + 2) (h : Agrees env d fuel k r) :
    Agrees env c fuel' k r :=
  h.after ((run_one env c).trans hs) hfuel

theorem bind (hx : Agrees env c fuel (fun b σ => .running (next b σ)) (x.run σ))
    (hf : ∀ b σ, Agrees env (next b σ) fuel k ((f b).run σ)) :
    Agrees env c fuel k ((x >>= f).run σ) := by
  rw [run_bind]
  generalize x.run σ = r at hx
  cases hx with
  | ok h => exact (hf _ _).after h (le_add_right _ _)
  | failed h => exact .failed h
  | cut hn h => exact .cut hn h
  | stuck h => exact .stuck h

theorem enter (hs : Loops.step env c = .running d)
    (hx : Agrees env d fuel (fun b σ => .running (next b σ)) (x.run σ))
    (hf : ∀ b σ, Agrees env (next b σ) (fuel + 1) k ((f b).run σ)) :
    Agrees env c (fuel + 1) k ((x >>= f).run σ) :=
  (hx.step hs (le_succ _)).bind hf

theorem perform {x} (hs : Loops.step env c = perform x c.store k) :
    Agrees env c fuel k (x.run c.store) := by
  unfold Loops.perform at hs
  cases hx : x.run c.store with
  | ok a σ =>
    rw [hx] at hs
    exact .ok ((run_one env c).trans hs)
  | error e σ =>
    rw [hx] at hs
    exact .failed ((run_one env c).trans hs)

theorem perform_bind
    (hs : Loops.step env c = Loops.perform x c.store fun b σ => .running (next b σ))
    (hf : ∀ b σ, Agrees env (next b σ) fuel k ((f b).run σ)) :
    Agrees env c (fuel + 2) k ((x >>= f).run c.store) := by
  unfold Loops.perform at hs
  rw [run_bind]
  cases hx : x.run c.store with
  | ok b σ =>
    rw [hx] at hs
    exact (hf b σ).step hs (Nat.le_refl _)
  | error e σ =>
    rw [hx] at hs
    exact .failed ((run_one env c).trans hs)

theorem discard {last : Store → Outcome} (hx : Agrees env c fuel (fun _ σ => last σ) (x.run σ))
    (a) : Agrees env c fuel (fun (_ : α) σ => last σ) ((x >>= fun _ => pure a).run σ) := by
  rw [run_bind]
  generalize x.run σ = r at hx
  cases hx with
  | ok h => exact .ok h
  | failed h => exact .failed h
  | cut hn h => exact .cut hn h
  | stuck h => exact .stuck h

end Agrees

/-! ## Evaluation -/

section Evaluation

variable {env fuel : Nat}

/-- The machine comes to the value of the expression as the rules do. -/
def Simulates (env fuel : Nat) (e : Expr) : Prop :=
  ∀ ks u bs σ, Agrees env ⟨.expr (.eval e) ks u bs, σ⟩ fuel (give ks u bs)
    ((evalExpr .loops fuel env e).run σ)

/-- The machine comes from the statements to `last` as the rules do. The rules have the statements
`tail` after them, the machine has blocks around them. -/
def SimulatesAll (env : Nat) (bs : List Block) (tail : List Stmt) (last : Store → Outcome)
    (fuel : Nat) (ss : List Stmt) : Prop :=
  ∀ σ, Agrees env ⟨.stmts ss bs, σ⟩ fuel (fun _ => last)
    ((evalStmts .loops fuel env (ss ++ tail)).run σ)

/-- The machine does what the rules do, from statements on if it does so after the last of them. -/
structure Simulated (env fuel : Nat) : Prop where
  expr : ∀ e, IsExpr e → Simulates env fuel e
  stmts : ∀ bs tail last, (∀ f ≤ fuel, SimulatesAll env bs tail last f []) →
    ∀ ss, (∀ s ∈ ss, IsStmt s) → SimulatesAll env bs tail last fuel ss

theorem simulated_zero (env) : Simulated env 0 where
  expr _ _ _ _ _ σ := .out_of_fuel (zero_le 1) _ σ
  stmts _ _ _ _ _ _ σ := .out_of_fuel (zero_le 1) _ σ

theorem Simulated.all (h : Simulated env fuel) (hss : ∀ s ∈ ss, IsStmt s) (bs σ) :
    Agrees env ⟨.stmts ss bs, σ⟩ fuel (fun _ => leave bs)
      ((evalStmts .loops fuel env ss).run σ) := by
  have hnil : ∀ f ≤ fuel, SimulatesAll env bs [] (leave bs) f [] := by
    intro f _ σ
    cases f with
    | zero => exact .out_of_fuel (zero_le 1) _ σ
    | succ f => exact .ok (n := 1) rfl
  have hall := h.stmts bs [] _ hnil ss hss σ
  rwa [append_nil] at hall

theorem simulates_logic (ha : Simulates env fuel a) (hb : Simulates env fuel b) (op more n) :
    Simulates env (fuel + 2) (.logic op (a :: b :: more) n) := by
  intro ks u bs σ
  have hstart : Agrees env ⟨.expr (.eval (.logic op (a :: b :: more) n)) ks u bs, σ⟩ (fuel + 2)
      (give (.logic op b :: ks) u bs) ((evalExpr .loops fuel env a).run σ) :=
    (ha (.logic op b :: ks) u bs σ).step rfl (Nat.le_refl _)
  refine hstart.bind fun x σ => ?_
  cases x with
  | bool t =>
    cases op <;> cases t
    · exact .ok (n := 1) rfl
    · exact (hb ks u bs σ).step rfl (Nat.le_refl _)
    · exact (hb ks u bs σ).step rfl (Nat.le_refl _)
    · exact .ok (n := 1) rfl
  | _ => exact .stuck (n := 1) (by cases op <;> rfl)

theorem simulates_expr (ih : ∀ f ≤ fuel, Simulated env f) (he : IsExpr e) :
    Simulates env (fuel + 1) e := by
  have ihe {a : Expr} (ha : IsExpr a) := (ih fuel (Nat.le_refl fuel)).expr a ha
  cases he with
  | name x n => exact fun ks u bs σ => .perform rfl
  | int | bool => exact fun ks u bs σ => .ok (n := 1) rfl
  | input m n =>
    intro ks u bs σ
    cases fuel with
    | zero => exact .out_of_fuel (Nat.le_refl 1) _ σ
    | succ fuel =>
      change Agrees _ _ _ _ ((readInt >>= pure).run σ)
      rw [bind_pure]
      exact .perform rfl
  | neg _ ha | not _ ha =>
    intro ks u bs σ
    refine .enter rfl (ihe ha (_ :: ks) u bs σ) fun x σ => ?_
    exact .perform rfl
  | @arith a b op n hop ha hb =>
    intro ks u bs σ
    change Agrees _ _ _ _ ((if hasArith .loops op then (do
      let x ← evalExpr .loops fuel env a
      let y ← evalExpr .loops fuel env b
      arithValues .loops op x y) else _).run σ)
    rw [if_pos hop]
    refine .enter rfl (ihe ha (.arithLeft op b :: ks) u bs σ) fun x σ => ?_
    refine .enter rfl (ihe hb (.arithRight op x :: ks) u bs σ) fun y σ => ?_
    exact .perform rfl
  | logic op more n ha hb =>
    cases fuel with
    | zero => exact fun ks u bs σ => .out_of_fuel (Nat.le_refl 1) _ σ
    | succ fuel =>
      have ih' := ih fuel (le_succ fuel)
      exact simulates_logic (ih'.expr _ ha) (ih'.expr _ hb) op more n
  | @cond test yes no n htest hyes hno =>
    intro ks u bs σ
    refine .enter rfl (ihe htest (.cond yes no :: ks) u bs σ) fun x σ => ?_
    cases x with
    | bool t =>
      cases t
      · exact (ihe hno ks u bs σ).step rfl (le_succ _)
      · exact (ihe hyes ks u bs σ).step rfl (le_succ _)
    | _ => exact .stuck (n := 1) rfl
  | @compare a b op n hop ha hb =>
    intro ks u bs σ
    refine .enter rfl (ihe ha (.compareLeft op b :: ks) u bs σ) fun x σ => ?_
    refine .enter rfl (ihe hb (.compareRight op x :: ks) u bs σ) fun y σ => ?_
    exact .perform rfl
  | @block ss r n hn hss hr =>
    intro ks u bs σ
    refine .enter rfl ((ih fuel (Nat.le_refl fuel)).all hss (⟨r, ks, u⟩ :: bs) σ) fun x σ => ?_
    exact (ihe hr ks u bs σ).step rfl (le_succ _)

theorem agrees_operand (he : Simulates env fuel e) {k : Value → Store → Outcome}
    {f : Value → Run Value} (hs : step env ⟨.stmts ss bs, σ⟩ = enter [] u bs e σ)
    (hf : ∀ v σ, Agrees env ⟨.expr (.give v) [] u bs, σ⟩ (fuel + 2) k ((f v).run σ)) :
    Agrees env ⟨.stmts ss bs, σ⟩ (fuel + 2) k ((evalExpr .loops fuel env e >>= f).run σ) :=
  ((he [] u bs σ).step hs (Nat.le_refl _)).bind hf

section

variable {bs : List Block} {tail : List Stmt} {last : Store → Outcome}

theorem simulatesAll_ite (hn : n.tuples = []) (htest : Simulates env fuel test)
    (hyes : SimulatesAll env bs tail last fuel (yes ++ rest))
    (hno : SimulatesAll env bs tail last fuel (no ++ rest)) :
    SimulatesAll env bs tail last (fuel + 2) (.ite test yes no n :: rest) := by
  intro σ
  refine agrees_operand htest rfl fun v σ => ?_
  cases v with
  | bool t =>
    cases t with
    | false =>
      change Agrees _ _ _ _ ((if n.tuples.contains 2 then stop .wrongKind
        else evalStmts .loops fuel env (no ++ (rest ++ tail))).run σ)
      rw [hn, ← append_assoc]
      exact (hno σ).step rfl (Nat.le_refl _)
    | true =>
      change Agrees _ _ _ _ ((if n.tuples.contains 1 then stop .wrongKind
        else evalStmts .loops fuel env (yes ++ (rest ++ tail))).run σ)
      rw [hn, ← append_assoc]
      exact (hyes σ).step rfl (Nat.le_refl _)
  | _ => exact .stuck (n := 1) rfl

theorem simulatesAll_loop (hn : n.tuples = []) (htest : Simulates env fuel test)
    (hagain : SimulatesAll env bs tail last fuel (body ++ .loop test body [] n :: rest))
    (hrest : SimulatesAll env bs tail last fuel rest) :
    SimulatesAll env bs tail last (fuel + 2) (.loop test body [] n :: rest) := by
  intro σ
  refine agrees_operand htest rfl fun v σ => ?_
  change Agrees _ _ _ _ ((if v.truthy σ.heap then (if n.tuples.contains 1 then stop .wrongKind
    else do
      let _ ← evalStmts .loops fuel env (body ++ (.loop test body [] n :: rest ++ tail))
      pure .none)
    else evalStmts .loops fuel env (rest ++ tail)).run σ)
  have hstep : step env ⟨.expr (.give v) [] (.loop (.loop test body [] n) body rest) bs, σ⟩ =
      proceed bs (if v.truthy σ.heap then body ++ .loop test body [] n :: rest else rest) σ := rfl
  cases htruthy : v.truthy σ.heap with
  | false =>
    rw [htruthy] at hstep
    exact (hrest σ).step hstep (Nat.le_refl _)
  | true =>
    rw [htruthy] at hstep
    rw [hn, ← append_assoc]
    exact ((hagain σ).discard _).step hstep (Nat.le_refl _)

theorem simulates_stmts (ih : ∀ f ≤ fuel, Simulated env f)
    (hnil : ∀ f ≤ fuel + 1, SimulatesAll env bs tail last f []) (hss : ∀ s ∈ ss, IsStmt s) :
    SimulatesAll env bs tail last (fuel + 1) ss := by
  rcases ss with _ | ⟨s, rest⟩
  · exact hnil (fuel + 1) (Nat.le_refl _)
  cases fuel with
  | zero => exact fun σ => .out_of_fuel (Nat.le_refl 1) _ σ
  | succ fuel =>
    have ih' := ih fuel (le_succ fuel)
    have hall {ss : List Stmt} (hss : ∀ s ∈ ss, IsStmt s) : SimulatesAll env bs tail last fuel ss :=
      ih'.stmts bs tail last (fun f hf => hnil f (by omega)) ss hss
    rw [forall_mem_cons] at hss
    obtain ⟨hs, hrest⟩ := hss
    have hnext := hall hrest
    cases hs with
    | print _ _ _ he | assign _ _ _ he =>
      intro σ
      refine agrees_operand (ih'.expr _ he) rfl fun v σ => ?_
      exact .perform_bind rfl fun _ => hnext
    | @expr e n he =>
      intro σ
      have heval : evalStmts .loops (fuel + 2) env (.expr e n :: rest ++ tail) = (do
          let _ ← evalExpr .loops fuel env e
          evalStmts .loops fuel env (rest ++ tail)) := by
        cases he <;> rfl
      have hstep : step env ⟨.stmts (.expr e n :: rest) bs, σ⟩ = enter [] (.drop rest) bs e σ := by
        cases he <;> rfl
      rw [heval]
      refine agrees_operand (ih'.expr e he) hstep fun v σ => ?_
      exact (hnext σ).step rfl (Nat.le_refl _)
    | ite hn htest hyes hno =>
      exact simulatesAll_ite hn (ih'.expr _ htest) (hall (forall_mem_append.mpr ⟨hyes, hrest⟩))
        (hall (forall_mem_append.mpr ⟨hno, hrest⟩))
    | loop hn htest hloop =>
      refine simulatesAll_loop hn (ih'.expr _ htest) (hall ?_) hnext
      have hagain := forall_mem_cons.mpr ⟨.loop hn htest hloop, hrest⟩
      exact forall_mem_append.mpr ⟨hloop, hagain⟩

end

theorem simulated (env fuel) : Simulated env fuel := by
  -- a loop is run again with more statements than before, but with less fuel
  induction fuel using Nat.strongRecOn with
  | ind fuel ih =>
    cases fuel with
    | zero => exact simulated_zero env
    | succ fuel =>
      have ih' (f : Nat) (hf : f ≤ fuel) : Simulated env f := ih f (lt_succ_of_le hf)
      exact ⟨fun e he => simulates_expr ih' he,
        fun bs tail last hnil ss hss => simulates_stmts ih' hnil hss⟩

end Evaluation

end CompilerKit.Loops
