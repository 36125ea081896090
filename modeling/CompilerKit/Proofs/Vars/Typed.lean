import CompilerKit.Typing.Source
import CompilerKit.Proofs.Simulation
import CompilerKit.Proofs.Vars.Meaning

/-!
# Checked programs of the language of variables

The type system of the language has one type. What it accepts is a program of the language that
reads no variable before it is written.
-/

namespace CompilerKit

variable {α : Type} {P : String → Expr → Prop}

theorem checked (e) {f : Expr × Ty → Check α} (h : (checkExpr c want e >>= f).run Γ = .ok r) :
    ∃ p Δ, (checkExpr c want e).run Γ = .ok (p, Δ) ∧ (f p).run Δ = .ok r := bind_ok h

/-- What stands as a statement is an output, or is checked like any expression. -/
theorem checkStmts_expression (hc : c ∈ [TypeSystem.vars, .loops, .functions, .lambdas])
    (want e n rest) :
    (∃ k a m, e = .call (.name "print" k) [a] m) ∨
      checkStmts c want (.expr e n :: rest) = (do
        let p ← checkExpr c none e
        let q ← checkStmts c none rest
        pure (.expr p.1 n :: q.1, q.2)) := by
  have hwhole : (Prod.fst <$> checkExpr c none e >>= fun e => do
      let q ← checkStmts c none rest
      pure (.expr e n :: q.1, q.2) : Check (List Stmt × Ty)) = (do
        let p ← checkExpr c none e
        let q ← checkStmts c none rest
        pure (.expr p.1 n :: q.1, q.2)) := by
    simp only [map_eq_pure_bind, bind_assoc, pure_bind]
  rw [← hwhole]
  simp only [List.mem_cons, List.not_mem_nil, or_false] at hc
  rcases hc with rfl | rfl | rfl | rfl
  all_goals
    cases e with
    | call f args m =>
      cases f with
      | name g k =>
        rcases args with _ | ⟨a, _ | ⟨b, bs⟩⟩
        · exact .inr rfl
        · by_cases hg : g = "print"
          · exact .inl ⟨k, a, m, by rw [hg]⟩
          · refine .inr ?_
            change ((if g == "print" then _ else _) >>= _) = _
            rw [if_neg (by simpa using hg)]
        · exact .inr rfl
      | _ => exact .inr rfl
    | _ => exact .inr rfl

namespace Vars

open Check Bindings

/-! ## Checks that succeed -/

theorem lookup_ok (x) {f : Ty → Check α} {r} (h : (lookup x >>= f).run Γ = .ok r) :
    ∃ t, get? Γ x = some t ∧ (f t).run Γ = .ok r := by
  obtain ⟨t, Δ, ht, h1⟩ := bind_ok h
  obtain ⟨found, Δ1, hfound, h2⟩ := bind_ok ht
  cases hfound
  cases hx : get? Γ x with
  | none => rw [hx] at h2; cases h2
  | some t => rw [hx] at h2; cases h2; exact ⟨t, rfl, h1⟩

theorem unbound_error {x : Term} {r : α × TypeTable} : (unbound x).run Γ ≠ .ok r := by
  intro h
  unfold unbound at h
  split at h
  · split at h <;> cases h
  · cases h

theorem refuseTree_error {rule : String} {t : Term} {r : α × TypeTable} :
    (refuseTree c rule t).run Γ ≠ .ok r := by
  intro h
  unfold refuseTree at h
  split at h
  · exact unbound_error h
  · split at h
    · exact unbound_error h
    · cases h
  · split at h
    · obtain ⟨_, Δ1, -, h1⟩ := bind_ok h
      obtain ⟨_, Δ2, -, h2⟩ := bind_ok h1
      cases h2
    · cases h
  · cases h

/-! ## Expressions -/

/-- Every variable in the table is a number. -/
def AllInt (Γ : TypeTable) : Prop := ∀ x t, get? Γ x = some t → t = .int

/-- The variable is in the table. -/
def Known (Γ : TypeTable) (x : String) : Prop := ∃ t, get? Γ x = some t

theorem checkExpr_call (h : (checkExpr .vars none (.call f args n)).run Γ = .ok (p, Δ)) :
    ∃ m, f = .name "input_int" m ∧ args = [] ∧ p = (.call f args n, .int) ∧ Δ = Γ := by
  -- the rule for calls is opened alone: the equation of the whole checker takes much longer
  delta checkExpr at h
  conv at h => lhs; whnf
  split at h <;> cases h
  exact ⟨_, rfl, rfl, rfl, rfl⟩

/-- A checked expression is of the language, and reads known variables only. The rule that checks it
goes on with its one type. -/
theorem checkExpr_built {α : Type} {Γ} (hΓ : AllInt Γ) {e} {f : Expr × Ty → Check α} {r}
    (h : (checkExpr .vars none e >>= f).run Γ = .ok r) :
    Built (Known Γ) IsNumber e ∧ ∃ e', (f (e', .int)).run Γ = .ok r := by
  obtain ⟨p, Δ, h, hf⟩ := bind_ok h
  cases e with
  | name x n =>
    obtain ⟨t, ht, h1⟩ := lookup_ok x h
    obtain rfl := hΓ x t ht
    cases h1
    exact ⟨.name n ⟨_, ht⟩, _, hf⟩
  | const c n =>
    cases c with
    | int i id => cases h; exact ⟨.const n ⟨i, rfl⟩, _, hf⟩
    | bool b => cases h; exact ⟨.const n ⟨_, rfl⟩, _, hf⟩
    | _ => cases h
  | arith a op b n =>
    change (if isArithmetic .vars op = true then checkExpr .vars none a >>= _
      else refuse _).run Γ = _ at h
    split at h
    · next hop =>
      obtain ⟨ha, a', h1⟩ := checkExpr_built hΓ h
      obtain ⟨_, -, h2⟩ := bind_lift_ok h1
      obtain ⟨hb, b', h3⟩ := checkExpr_built hΓ h2
      cases h3
      exact ⟨.arith n hop ha hb, _, hf⟩
    · cases h
  | unary op a n =>
    cases op with
    | neg =>
      obtain ⟨ha, a', h1⟩ := checkExpr_built hΓ (e := a) h
      cases h1
      exact ⟨.neg n ha, _, hf⟩
    | _ => cases h
  | call f args n =>
    obtain ⟨m, rfl, rfl, rfl, rfl⟩ := checkExpr_call h
    exact ⟨.input m n, _, hf⟩
  -- the other rules are of other languages, and refuse without looking further
  | logic op es n => rcases es with _ | ⟨a, _ | ⟨b, es⟩⟩ <;> cases h
  | compare a ops es n =>
    rcases ops with _ | ⟨op, _ | ⟨op', ops⟩⟩ <;> rcases es with _ | ⟨b, _ | ⟨c, es⟩⟩ <;> cases h
  | tuple es access n => cases access <;> cases h
  | list es access n => cases access <;> cases h
  | subscript b i access n => cases access <;> cases i <;> cases h
  | other t => exact absurd h refuseTree_error
  | _ => cases h

/-! ## Statements -/

theorem checkStmts_form (h : (checkStmts .vars none (s :: ss)).run Γ = .ok r) :
    (∃ e n, s = .expr e n) ∨ ∃ x m e n, s = .assign [.name x m] e n := by
  cases s with
  | expr e n => exact .inl ⟨e, n, rfl⟩
  | assign xs e n =>
    rcases xs with _ | ⟨x, _ | ⟨y, ys⟩⟩
    · cases h
    · cases x with
      | name x m => exact .inr ⟨x, m, e, n, rfl⟩
      | subscript b i access m =>
        cases access with
        | store => cases i <;> cases h
        | _ => cases h
      | _ => cases h
    · cases x with
      | subscript b i access m => cases access <;> cases h
      | _ => cases h
  | annAssign x hint e k n => cases x <;> cases h
  | ite test yes no n => cases ss <;> cases h
  | loop test body orelse n => cases orelse <;> cases h
  | fundef f ps body ds t k n => cases body <;> cases h
  | _ => cases h

/-- The expression stands as a statement: it is an output or of the language. -/
def Stands (D : String → Prop) (e : Expr) : Prop :=
  (∃ a m n, e = .call (.name "print" m) [a] n ∧ Built D IsNumber a) ∨ Built D IsNumber e

theorem checkStmts_expr_ok (hΓ : AllInt Γ)
    (h : (checkStmts .vars none (.expr e n :: ss)).run Γ = .ok r) :
    Stands (Known Γ) e ∧ ∃ q, (checkStmts .vars none ss).run Γ = .ok q := by
  rcases checkStmts_expression (c := .vars) (by simp) none e n ss with ⟨k, a, m, rfl⟩ | hwhole
  · obtain ⟨e', Δ, he, h1⟩ := bind_ok h
    obtain ⟨hbuilt, a', h2⟩ := checkExpr_built hΓ he
    cases h2
    obtain ⟨q, Δ3, hq, -⟩ := bind_ok h1
    exact ⟨.inl ⟨a, k, m, rfl, hbuilt⟩, _, hq⟩
  · rw [hwhole] at h
    obtain ⟨hbuilt, e', h1⟩ := checkExpr_built hΓ h
    obtain ⟨q, Δ1, hq, -⟩ := bind_ok h1
    exact ⟨.inr hbuilt, _, hq⟩

theorem AllInt.put (hΓ : AllInt Γ) (x) : AllInt (put Γ x .int) := by
  intro y t hy
  rw [get?_put] at hy
  split at hy
  · exact (Option.some.inj hy).symm
  · exact hΓ y t hy

theorem known_put (h : Known (put Γ x t) y) : y = x ∨ Known Γ y := by
  obtain ⟨u, hu⟩ := h
  rw [get?_put] at hu
  split at hu
  · next hyx => exact .inl (beq_iff_eq.mp hyx)
  · exact .inr ⟨u, hu⟩

theorem checkStmts_assign_ok (hΓ : AllInt Γ)
    (h : (checkStmts .vars none (.assign [.name x m] e n :: ss)).run Γ = .ok r) :
    Built (Known Γ) IsNumber e ∧
      ∃ Δ q, AllInt Δ ∧ (∀ y, Known Δ y → y = x ∨ Known Γ y) ∧
        (checkStmts .vars none ss).run Δ = .ok q := by
  obtain ⟨hbuilt, e', h1⟩ := checkExpr_built hΓ h
  obtain ⟨o, Δ1, hfind, h2⟩ := bind_ok h1
  cases hfind
  refine ⟨hbuilt, ?_⟩
  split at h2
  · obtain ⟨_, -, h3⟩ := bind_lift_ok h2
    rw [pure_bind] at h3
    obtain ⟨q, Δ3, hq, -⟩ := bind_ok h3
    exact ⟨_, _, hΓ, fun y hy => .inr hy, hq⟩
  · obtain ⟨_, Δ2, hbind, h3⟩ := bind_ok h2
    cases hbind
    rw [pure_bind] at h3
    obtain ⟨q, Δ3, hq, -⟩ := bind_ok h3
    exact ⟨_, _, hΓ.put x, fun y hy => known_put hy, hq⟩

theorem checkStmts_scoped (hΓ : AllInt Γ) (h : (checkStmts .vars none ss).run Γ = .ok r)
    (hP : ∀ w ∈ writes ss, P w.1 w.2) : Scoped P IsNumber (Known Γ) ss := by
  induction ss generalizing Γ r with
  | nil => exact .nil
  | cons s ss ih =>
    obtain ⟨e, n, rfl⟩ | ⟨x, m, e, n, rfl⟩ := checkStmts_form h
    · obtain ⟨hstands, q, hq⟩ := checkStmts_expr_ok hΓ h
      have hss := ih hΓ hq hP
      obtain ⟨a, m, k, rfl, ha⟩ | he := hstands
      · exact .print m k n ha hss
      · exact .expr n he hss
    · obtain ⟨he, Δ, q, hΔ, hknown, hq⟩ := checkStmts_assign_ok hΓ h
      have hss := ih hΔ hq fun w hw => hP w (List.mem_cons_of_mem (x, e) hw)
      exact .assign m n (hP (x, e) List.mem_cons_self) he (hss.mono hknown)

theorem checkModule_scoped (h : checkModule .vars (.module ss note) = .ok q)
    (hP : ∀ w ∈ writes ss, P w.1 w.2) : Scoped P IsNumber (fun _ => False) ss := by
  obtain ⟨r, hr, -⟩ := ok_of_bind (show (checkStmts .vars none ss).run [] >>= _ = _ from h)
  have hnone : ∀ x, ¬ Known [] x := fun x ⟨t, ht⟩ => by cases ht
  have hall : AllInt [] := fun x t ht => by cases ht
  exact (checkStmts_scoped hall hr hP).mono hnone

/-! ## Checks of what is in scope -/

section

variable {D : String → Prop} {K : Value → Prop}

theorem run_lookup_known (h : get? Γ x = some t) : (lookup x).run Γ = .ok (t, Γ) := by
  have hfind : (find? x).run Γ = .ok (get? Γ x, Γ) := rfl
  rw [lookup, StateT.run_bind, hfind, h]
  rfl

theorem run_equal_int (ht : t = .int) (place : Culprit) (m : Check α) :
    (equal .vars t .int place >>= fun _ => m).run Γ = m.run Γ := by
  rw [ht]
  rfl

theorem checkExpr_arith (hop : hasArith .vars op) (n) :
    checkExpr .vars none (.arith a op b n) = (do
      let p ← checkExpr .vars none a
      equal .vars p.2 .int (.expr p.1)
      let q ← checkExpr .vars none b
      equal .vars q.2 .int (.expr q.1)
      pure (.arith p.1 op q.1 n, .int)) := by
  cases op with
  | add | sub => rfl
  | _ => cases hop

theorem checkStmts_expr (he : Built D K e) (n ss) :
    checkStmts .vars none (.expr e n :: ss) = (do
      let e ← Prod.fst <$> checkExpr .vars none e
      let q ← checkStmts .vars none ss
      pure (.expr e n :: q.1, q.2)) := by
  cases he <;> rfl

/-- The check of an assignment to a variable, which may be known already. -/
def checkAssign (x : String) (e : Expr) : Check (Expr × Ty) := do
  let p ← checkExpr .vars none e
  match ← find? x with
  | some u => do
    equal .vars u p.2 (.expr p.1)
    pure (p.1, u)
  | none => do
    bind x p.2
    pure (p.1, p.2)

theorem checkStmts_assign (x m n e ss) :
    checkStmts .vars none (.assign [.name x m] e n :: ss) = (do
      let p ← checkAssign x e
      let q ← checkStmts .vars none ss
      pure (.assign [.name x m] p.1 n :: q.1, q.2)) := by
  rw [checkAssign, bind_assoc]
  refine congrArg (checkExpr .vars none e >>= ·) (funext fun p => ?_)
  rw [bind_assoc]
  refine congrArg (find? x >>= ·) (funext fun found => ?_)
  cases found with
  | none => rfl
  | some u =>
    rw [bind_assoc]
    rfl

theorem checkExpr_accepts (hΓ : AllInt Γ) (he : Built (Known Γ) IsNumber e) :
    ∃ e', (checkExpr .vars none e).run Γ = .ok ((e', .int), Γ) := by
  induction he with
  | @name x n hx =>
    obtain ⟨t, ht⟩ := hx
    obtain rfl := hΓ x t ht
    exact ⟨_, run_bind_ok (run_lookup_known ht)⟩
  | @const c n hc =>
    obtain ⟨i, hi⟩ := hc
    cases c with
    | int | bool => exact ⟨_, rfl⟩
    | _ => cases hi
  | input => exact ⟨_, rfl⟩
  | neg n _ ih =>
    obtain ⟨a', ha⟩ := ih
    exact ⟨_, run_bind_ok ha⟩
  | arith n hop _ _ iha ihb =>
    obtain ⟨a', ha⟩ := iha
    obtain ⟨b', hb⟩ := ihb
    rw [checkExpr_arith hop, run_bind_ok ha, run_equal_int rfl, run_bind_ok hb]
    exact ⟨_, rfl⟩

theorem checkAssign_accepts (hΓ : AllInt Γ) (he : Built (Known Γ) IsNumber e) (x) :
    ∃ p Δ, (checkAssign x e).run Γ = .ok (p, Δ) ∧ AllInt Δ ∧
      ∀ y, y = x ∨ Known Γ y → Known Δ y := by
  obtain ⟨e', he'⟩ := checkExpr_accepts hΓ he
  have hfind : (find? x).run Γ = .ok (get? Γ x, Γ) := rfl
  rw [checkAssign, run_bind_ok he', run_bind_ok hfind]
  cases hx : get? Γ x with
  | some u =>
    obtain rfl := hΓ x u hx
    refine ⟨_, Γ, rfl, hΓ, ?_⟩
    rintro y (rfl | hy)
    · exact ⟨_, hx⟩
    · exact hy
  | none =>
    refine ⟨_, _, rfl, hΓ.put x, fun y hy => ?_⟩
    rw [Known, get?_put]
    split
    · exact ⟨_, rfl⟩
    · next hne => exact hy.resolve_left fun hyx => hne (beq_iff_eq.mpr hyx)

theorem checkStmts_accepts (h : Scoped P IsNumber D ss) (hΓ : AllInt Γ)
    (hD : ∀ y, D y → Known Γ y) : ∃ r, (checkStmts .vars none ss).run Γ = .ok r := by
  induction h generalizing Γ with
  | nil => exact ⟨_, rfl⟩
  | print j k l he _ ih =>
    obtain ⟨e', he'⟩ := checkExpr_accepts hΓ (he.mono hD fun _ hc => hc)
    obtain ⟨r, hr⟩ := ih hΓ hD
    exact ⟨_, (run_bind_ok (run_bind_ok he')).trans (run_bind_ok hr)⟩
  | expr k he _ ih =>
    obtain ⟨e', he'⟩ := checkExpr_accepts hΓ (he.mono hD fun _ hc => hc)
    obtain ⟨r, hr⟩ := ih hΓ hD
    rw [checkStmts_expr he, map_eq_pure_bind, bind_assoc, run_bind_ok he', pure_bind,
      run_bind_ok hr]
    exact ⟨_, rfl⟩
  | @assign D x e ss j k _ he _ ih =>
    obtain ⟨p, Δ, hassign, hΔ, hknown⟩ := checkAssign_accepts hΓ (he.mono hD fun _ hc => hc) x
    obtain ⟨r, hr⟩ := ih hΔ fun y hy => hknown y (hy.imp_right (hD y))
    rw [checkStmts_assign, run_bind_ok hassign, run_bind_ok hr]
    exact ⟨_, rfl⟩

theorem checkModule_accepts (h : Scoped P IsNumber (fun _ => False) ss) (note) :
    ∃ q, checkModule .vars (.module ss note) = .ok q := by
  have hall : AllInt [] := fun x t ht => by cases ht
  obtain ⟨r, hr⟩ := checkStmts_accepts h hall fun _ hx => hx.elim
  change ∃ q, ((checkStmts .vars none ss).run [] >>= _) = .ok q
  rw [hr]
  exact ⟨_, rfl⟩

end

end Vars

end CompilerKit
