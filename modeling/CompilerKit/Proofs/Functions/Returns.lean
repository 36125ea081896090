import CompilerKit.Proofs.Calls

/-!
# What a call returns

A call runs the statements of a function until one of them returns. What it returns is the value of
the returned expression there, if no loop has been gone through in the call. After a pass through a
loop it is nothing: the statements behind the loop are run inside of it, and their value is dropped.
-/

namespace CompilerKit.Functions

open Run EStateM

/-- Statements after which the next one is run. -/
def isStep : Stmt → Bool
  | .expr _ _ | .assign [.name _ _] _ _ | .assign [.subscript _ _ _ _] _ _
  | .fundef _ _ _ _ _ _ _ | .collect _ _ => true
  | _ => false

/-- A point in a call: the number of steps at hand, the statements ahead, and the store. -/
structure Point where
  fuel : Nat
  ahead : List Stmt
  store : Store

def Point.run (i : Nat) (p : Point) : Result Value :=
  (evalStmts .functions p.fuel i p.ahead).run p.store

/-- From a point the first statement leads to another point. The mark says whether this is a pass
through a loop. -/
inductive Next (i : Nat) : Point → Bool → Point → Prop where
  | step {n s rest σ τ v} (hs : isStep s) (h : (evalStmts .functions (n + 2) i [s]).run σ = .ok v τ)
      : Next i ⟨n + 2, s :: rest, σ⟩ false ⟨n, rest, τ⟩
  | ite {n test yes no rest k σ τ c} (h : (evalExpr .functions n i test).run σ = .ok (.bool c) τ)
      (hk : k.tuples.contains (if c then 1 else 2) = false) :
      Next i ⟨n + 2, .ite test yes no k :: rest, σ⟩ false ⟨n, (if c then yes else no) ++ rest, τ⟩
  | pass {n test body rest k σ τ v} (h : (evalExpr .functions n i test).run σ = .ok v τ)
      (hv : v.truthy τ.heap) (hk : k.tuples.contains 1 = false) :
      Next i ⟨n + 2, .loop test body [] k :: rest, σ⟩ true
        ⟨n, body ++ .loop test body [] k :: rest, τ⟩
  | leave {n test body rest k σ τ v} (h : (evalExpr .functions n i test).run σ = .ok v τ)
      (hv : v.truthy τ.heap = false) :
      Next i ⟨n + 2, .loop test body [] k :: rest, σ⟩ false ⟨n, rest, τ⟩

/-- A call comes from one point to another with a number of passes through loops. -/
inductive Reaches (i : Nat) : Point → Nat → Point → Prop where
  | refl (p) : Reaches i p 0 p
  | next {p q r b k} (h : Next i p b q) (hq : Reaches i q k r) : Reaches i p (b.toNat + k) r

/-- What comes out of a call that ends in this way after `k` passes through loops. -/
def after (k : Nat) : Result Value → Result Value
  | .ok v τ => .ok (if k = 0 then v else .none) τ
  | .error e τ => .error e τ

theorem after_zero (r) : after 0 r = r := by
  cases r <;> rfl

theorem run_dropped (x τ) : (do let _ ← x; pure .none : Run Value).run τ = after 1 (x.run τ) := by
  rw [run_bind]
  cases x.run τ <;> rfl

theorem after_after (j k r) : after j (after k r) = after (j + k) r := by
  cases r with
  | error e τ => rfl
  | ok v τ => by_cases hj : j = 0 <;> by_cases hk : k = 0 <;> simp [after, hj, hk]

variable {i : Nat}

/-- What such a statement does does not depend on the statements behind it. -/
theorem evalStmt_step (n i) (hs : isStep s) : ∃ x : Run Unit, ∀ rest,
    evalStmt .functions (n + 1) i s rest = (do x; evalStmts .functions n i rest) := by
  unfold isStep at hs
  split at hs
  case h_1 e k =>
    by_cases he : ∃ l a m, e = .call (.name "print" l) [a] m
    · obtain ⟨l, a, m, rfl⟩ := he
      refine ⟨do print (← evalExpr .functions n i a), fun rest => ?_⟩
      rw [bind_assoc]
      rfl
    · refine ⟨do let _ ← evalExpr .functions n i e, fun rest => ?_⟩
      rw [evalStmt_expr (fun l a m h => he ⟨l, a, m, h⟩), bind_assoc]
      rfl
  case h_2 x _ e _ =>
    refine ⟨do assign i x (← evalExpr .functions n i e), fun rest => ?_⟩
    rw [bind_assoc]
    rfl
  case h_3 b j _ _ e _ =>
    refine ⟨do
      let t ← evalExpr .functions n i b
      let m ← evalExpr .functions n i j
      checkIndex t m
      plainSetItem t m (← evalExpr .functions n i e), fun rest => ?_⟩
    simp only [bind_assoc]
    rfl
  case h_4 f ps body _ _ _ _ =>
    refine ⟨do assign i f (← newFunction f (← ofExcept ps.declared) body i), fun rest => ?_⟩
    simp only [bind_assoc]
    rfl
  case h_5 => exact ⟨pure (), fun rest => rfl⟩
  case h_6 => cases hs

theorem evalStmt_of_alone (hs : isStep s)
    (h : (evalStmts .functions (n + 2) i [s]).run σ = .ok v τ) (rest) :
    (evalStmt .functions (n + 1) i s rest).run σ = (evalStmts .functions n i rest).run τ := by
  obtain ⟨x, hx⟩ := evalStmt_step n i hs
  change (evalStmt .functions (n + 1) i s []).run σ = _ at h
  rw [hx, run_bind] at h
  rw [hx, run_bind]
  split at h
  · cases n with
    | zero => cases h
    | succ n =>
      cases h
      rfl
  · cases h

theorem Next.run_eq (h : Next i p b q) : p.run i = after b.toNat (q.run i) := by
  cases h with
  | step hs h => exact (evalStmt_of_alone hs h _).trans (after_zero _).symm
  | @ite n test yes no rest k σ τ c h hk =>
    refine (run_next h).trans (Eq.trans ?_ (after_zero _).symm)
    cases c <;> exact congrFun (if_neg (ne_true_of_eq_false hk)) τ
  | @pass n test body rest k σ τ v h hv hk =>
    refine (run_next h).trans ?_
    change (if v.truthy τ.heap then if k.tuples.contains 1 then _ else _ else _
      : Run Value).run τ = _
    rw [hv, hk]
    exact run_dropped _ τ
  | @leave n test body rest k σ τ v h hv =>
    refine (run_next h).trans (Eq.trans ?_ (after_zero _).symm)
    exact congrFun (if_neg (ne_true_of_eq_false hv)) τ

/-- Every pass through a loop is taken by the run, and what comes out behind it is dropped. -/
theorem Reaches.run_eq (h : Reaches i p k q) : p.run i = after k (q.run i) := by
  induction h with
  | refl p => exact (after_zero _).symm
  | next h _ ih => rw [h.run_eq, ih, after_after]

/-- A call that comes to a statement which returns `e` gives what `e` gives there, if it has gone
through no loop, and otherwise nothing. -/
theorem applyValue_of_reaches_ret {ps : Params} {args : List Value} {captured : Nat} {ρ σ τ : Store}
    {i : Nat} (henter : (enter captured ps args).run ρ = .ok i σ)
    {n m k : Nat} {body rest : List Stmt}
    {e : Expr} {note : Note} (h : Reaches i ⟨n, body, σ⟩ k ⟨m + 2, .ret e note :: rest, τ⟩)
    (f : String) (id : Nat) :
    (applyValue .functions (n + 1) (.function f ps (.stmts body) captured id) args).run ρ =
      after k ((evalExpr .functions m i e).run τ) :=
  (run_next henter).trans h.run_eq

/-- A function that counts to one in a loop and returns the number. -/
theorem applyValue_of_reaches_ret_counting :
    let x : Expr := .name "i" {}
    let body : List Stmt := [.assign [x] (.const (.int 0 0) {}) {},
      .loop (.compare x [.lt] [.const (.int 1 0) {}] {})
        [.assign [x] (.arith x .add (.const (.int 1 0) {}) {}) {}] [] {},
      .ret x {}]
    let one : Value := .int 1 (sharedId + 1)
    let τ : Store := { envs := #[[], [("i", one)]], next := sharedId + 2 }
    Reaches 1 ⟨12, body, { envs := #[[], []] }⟩ 1 ⟨4, [.ret x {}], τ⟩ ∧
      (evalExpr .functions 2 1 x).run τ = .ok one τ ∧
      (applyValue .functions 13 (.function "f" (.names []) (.stmts body) 0 0) []).run
        { envs := #[[]] } = .ok .none τ := by
  intro x body one τ
  have hreaches : Reaches 1 ⟨12, body, { envs := #[[], []] }⟩ 1 ⟨4, [.ret x {}], τ⟩ := by
    refine .next (.step rfl rfl) (.next (k := 0) (.pass rfl rfl rfl) ?_)
    exact .next (.step rfl rfl) (.next (.leave rfl rfl) (.refl _))
  exact ⟨hreaches, rfl, applyValue_of_reaches_ret rfl hreaches "f" 0⟩

end CompilerKit.Functions
