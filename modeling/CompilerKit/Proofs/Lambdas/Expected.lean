import CompilerKit.Proofs.Lambdas.Rechecked

/-!
# Types of returns

A body is checked against the type that it has to return only up to a statement that has no rule for
this. What comes behind it is not compared with the type.
-/

namespace CompilerKit.Lambdas

open List

/-- The statement is checked without losing the type that has to be returned. -/
def keepsType : Stmt → Bool
  | .assign [.name _ _] _ _ | .assign [.subscript _ (.const _ _) .store _] _ _ => true
  | .annAssign (.name _ _) _ _ _ _ | .fundef _ _ _ _ _ _ _ => true
  | _ => false

variable {s : Stmt} {front rest : List Stmt} {t : Ty} {Γ : TypeTable}

/-- Such a statement does the same, whatever has to be returned and whatever follows. -/
theorem checkStmts_keeps (hs : keepsType s)
    (h : (checkStmts .lambdas (some t) (s :: rest)).run Γ = .ok r) :
    ∃ s' Δ, (follow s' (some t) rest).run Δ = .ok r ∧ ∀ u rest r,
      (follow s' (some u) rest).run Δ = .ok r →
        (checkStmts .lambdas (some u) (s :: rest)).run Γ = .ok r := by
  unfold keepsType at hs
  split at hs
  · obtain @⟨found, _, hfound, h⟩ := parted h
    cases found with
    | some v | none =>
      obtain ⟨he, h⟩ := parted h
      obtain ⟨hx, h⟩ := parted h
      exact ⟨_, _, h, fun _ _ _ hnext => hfound (he (hx hnext))⟩
  · obtain @⟨⟨b', v⟩, _, hb, h⟩ := parted h
    cases v with
    | tuple =>
      obtain ⟨hk, h⟩ := parted h
      obtain ⟨he, h⟩ := parted h
      exact ⟨_, _, h, fun _ _ _ hnext => hb (hk (he hnext))⟩
    | bottom => exact ⟨_, _, h, fun _ _ _ hnext => hb hnext⟩
    | _ => cases h
  · obtain ⟨hhint, h⟩ := parted h
    obtain @⟨found, _, hfound, h⟩ := parted h
    cases found with
    | some => cases h
    | none =>
      obtain ⟨hbind, h⟩ := parted h
      obtain ⟨he, h⟩ := parted h
      exact ⟨_, _, h, fun _ _ _ hnext => hhint (hfound (hbind (he hnext)))⟩
  · next body _ _ _ _ =>
    cases body with
    | _ =>
      obtain ⟨hheader, h⟩ := parted h
      obtain ⟨htable, h⟩ := parted h
      obtain ⟨hbody, h⟩ := parted h
      exact ⟨_, _, h, fun _ _ _ hnext => hheader (htable (hbody hnext))⟩
  · cases hs

theorem checkStmts_append (hfront : front.all keepsType)
    (h : (checkStmts .lambdas (some t) (front ++ rest)).run Γ = .ok r) :
    ∃ ss Δ q, (checkStmts .lambdas (some t) rest).run Δ = .ok q ∧ ∀ u rest q,
      (checkStmts .lambdas (some u) rest).run Δ = .ok q →
        (checkStmts .lambdas (some u) (front ++ rest)).run Γ = .ok ((ss ++ q.1.1, q.1.2), q.2) := by
  induction front generalizing Γ r with
  | nil => exact ⟨[], Γ, r, h, fun _ _ _ h => h⟩
  | cons s front ih =>
    rw [all_cons, Bool.and_eq_true] at hfront
    obtain ⟨s', Δ, hfollow, hagain⟩ := checkStmts_keeps hfront.1 h
    obtain ⟨p, ρ, hp, -⟩ := bind_ok hfollow
    obtain ⟨ss, Θ, q, hq, hrest⟩ := ih hfront.2 hp
    exact ⟨s' :: ss, Θ, q, hq, fun u rest q hq => hagain u _ _ (run_bind (hrest u rest q hq) rfl)⟩

theorem checkStmts_forgets (hs : keepsType s = false) (hret : ∀ e n, s ≠ .ret e n) (t rest) :
    checkStmts .lambdas (some t) (s :: rest) = checkStmts .lambdas none (s :: rest) := by
  cases s with
  | ret e n => exact absurd rfl (hret e n)
  | fundef => cases hs
  | assign xs e n =>
    rcases xs with _ | ⟨x, _ | _⟩
    · rfl
    · cases x with
      | name => cases hs
      | subscript b i access =>
        cases i with
        | const => cases access with
          | store => cases hs
          | _ => rfl
        | _ => cases access <;> rfl
      | _ => rfl
    · cases x with
      | subscript b i access => cases access <;> rfl
      | _ => rfl
  | annAssign x => cases x with
    | name => cases hs
    | _ => rfl
  | loop test body no => cases no <;> rfl
  | ite => cases rest <;> rfl
  | _ => rfl

/-- The body of a function is checked against the declared type of its result, in the environment of
the function with the parameters. -/
theorem checkStmts_fundef {body : List Stmt} (h : (checkStmts .lambdas (some t)
      (.fundef f ps (.stmts body) ds result k n :: rest)).run Γ = .ok r) :
    ∃ params u ps' table q, resolveHeader .lambdas ps result = .ok (params, u, ps') ∧
      Check.scope params = .ok table ∧
      (checkStmts .lambdas (some u) body).run (Bindings.putAll Γ table) = .ok q := by
  obtain ⟨params, u, ps', table, hheader, hscope, h, -⟩ := header_again h
  obtain ⟨_, ρ, hin, -⟩ := bind_ok h
  obtain ⟨-, Θ, hrun⟩ := Functions.inScope_run hin
  exact ⟨params, u, ps', table, _, hheader, hscope, hrun⟩

/-- Behind statements that keep the type, what is returned is checked against it, in the environment
that they leave, and the bodies of functions against the types of their own results, in this
environment with the parameters. Behind any other statement nothing is: what is accepted for one
type is accepted for every type. -/
theorem returns_checked (front : List Stmt) (hfront : front.all keepsType = true) (t : Ty) :
    (∀ e n rest Γ r, (checkStmts .lambdas (some t) (front ++ .ret e n :: rest)).run Γ = .ok r →
      ∃ q Δ p, (checkStmts .lambdas (some t) front).run Γ = .ok (q, Δ) ∧
        (checkExpr .lambdas (some t) e).run Δ = .ok p) ∧
      (∀ f ps body ds result k n rest Γ r, (checkStmts .lambdas (some t)
          (front ++ .fundef f ps (.stmts body) ds result k n :: rest)).run Γ = .ok r →
        ∃ params u ps' table q₀ Δ q, resolveHeader .lambdas ps result = .ok (params, u, ps') ∧
          Check.scope params = .ok table ∧
          (checkStmts .lambdas (some t) front).run Γ = .ok (q₀, Δ) ∧
          (checkStmts .lambdas (some u) body).run (Bindings.putAll Δ table) = .ok q) ∧
      ∀ s rest u Γ r, keepsType s = false → (∀ e n, s ≠ .ret e n) →
        (checkStmts .lambdas (some t) (front ++ s :: rest)).run Γ = .ok r →
          (checkStmts .lambdas (some u) (front ++ s :: rest)).run Γ = .ok r := by
  have hparts {rest : List Stmt} {Γ : TypeTable} {r}
      (h : (checkStmts .lambdas (some t) (front ++ rest)).run Γ = .ok r) :
      ∃ q₀ Δ q, (checkStmts .lambdas (some t) front).run Γ = .ok (q₀, Δ) ∧
        (checkStmts .lambdas (some t) rest).run Δ = .ok q := by
    obtain ⟨ss, Δ, q, hq, hagain⟩ := checkStmts_append hfront h
    have hdone := hagain t [] _ rfl
    rw [append_nil] at hdone
    exact ⟨_, Δ, q, hdone, hq⟩
  refine ⟨fun e n rest Γ r h => ?_, fun f ps body ds result k n rest Γ r h => ?_,
    fun s rest u Γ r hs hret h => ?_⟩
  · obtain ⟨q₀, Δ, q, hdone, hq⟩ := hparts h
    obtain ⟨p, ρ, hp, -⟩ := bind_ok hq
    exact ⟨q₀, Δ, _, hdone, hp⟩
  · obtain ⟨q₀, Δ, q, hdone, hq⟩ := hparts h
    obtain ⟨params, u, ps', table, q', hheader, hscope, hbody⟩ := checkStmts_fundef hq
    exact ⟨params, u, ps', table, q₀, Δ, q', hheader, hscope, hdone, hbody⟩
  · obtain ⟨ss, Δ, q, hq, hagain⟩ := checkStmts_append hfront h
    cases h.symm.trans (hagain t _ q hq)
    rw [checkStmts_forgets hs hret] at hq
    exact hagain u _ q (by rwa [checkStmts_forgets hs hret])

/-- Behind a conditional, a truth value may be returned whatever the type is. -/
theorem returns_checked_conditional :
    let x (k : Int) : Stmt := .assign [.name "x" {}] (.const (.int k 0) {}) {}
    let b : Expr := .const (.bool true) {}
    ∀ u, ∃ r, (checkStmts .lambdas (some u) [x 0, .ite b [x 1] [x 2] {}, .ret b {}]).run [] =
      .ok r := by
  intro x b u
  exact ⟨_, (returns_checked [x 0] rfl .bool).2.2 (.ite b [x 1] [x 2] {}) [.ret b {}] u _ _ rfl
    (fun e n hs => by cases hs) rfl⟩

end CompilerKit.Lambdas
