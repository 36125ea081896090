import CompilerKit.Proofs.Loops.Typing
import CompilerKit.Typing.Host

/-!
# Truth values and built-in types

The checker with built-in types has no rule for numbers, names, sums and the input. What it accepts
of the language of loops are the programs of truth values. The checker of the language accepts
these, and many more.
-/

namespace CompilerKit.Loops

open Check Bindings
open List (forall_mem_cons forall_mem_singleton)

/-- Expressions of truth values. They read no variable. -/
inductive Truth : Expr → Prop where
  | bool (b n) : Truth (.const (.bool b) n)
  | not (n) (ha : Truth a) : Truth (.unary .not a n)
  | logic (op more n) (ha : Truth a) (hb : Truth b) : Truth (.logic op (a :: b :: more) n)
  | cond (n) (htest : Truth test) (hyes : Truth yes) (hno : Truth no) : Truth (.cond test yes no n)
  | compare (n) (hop : op = .eq ∨ op = .notEq) (ha : Truth a) (hb : Truth b) :
      Truth (.compare a [op] [b] n)

/-- Statements of truth values. -/
inductive Truths : List Stmt → Prop where
  | nil : Truths []
  | expr (n) (he : Truth e) (hss : Truths ss) : Truths (.expr e n :: ss)
  | assign (x m n) (he : Truth e) (hss : Truths ss) : Truths (.assign [.name x m] e n :: ss)
  | ite (n) (htest : Truth test) (hyes : Truths yes) (hno : Truths no) (hss : Truths ss) :
      Truths (.ite test yes no n :: ss)
  | loop (n) (htest : Truth test) (hbody : Truths body) (hss : Truths ss) :
      Truths (.loop test body [] n :: ss)

/-! ## Nothing else is accepted -/

/-- A rule goes on after an expression with the type of truth values, as no other type is given. -/
theorem Truth.of_host {e} (he : IsExpr e) {f : Ty → Check α} {Γ}
    (h : (hostExpr .loops e >>= f).run Γ = .ok r) :
    Truth e ∧ (f (.host .bool)).run Γ = .ok r := by
  obtain ⟨t, Δ, hx, hf⟩ := bind_ok h
  cases he with
  | name | int | input | neg | block => cases hx
  | bool b n =>
    cases hx
    exact ⟨.bool b n, hf⟩
  | not n ha =>
    obtain ⟨ha, h1⟩ := of_host ha hx
    cases h1
    exact ⟨.not n ha, hf⟩
  | @arith a b op n _ ha =>
    cases op with
    | sub => cases (of_host ha hx).2
    | _ => cases hx
  | logic op more n ha hb =>
    obtain ⟨ha, h1⟩ := of_host ha hx
    obtain ⟨_, -, h2⟩ := bind_lift_ok h1
    obtain ⟨hb, h3⟩ := of_host hb h2
    cases h3
    exact ⟨.logic op more n ha hb, hf⟩
  | cond n htest hyes hno =>
    obtain ⟨htest, h1⟩ := of_host htest hx
    obtain ⟨_, -, h2⟩ := bind_lift_ok h1
    obtain ⟨hyes, h3⟩ := of_host hyes h2
    obtain ⟨hno, h4⟩ := of_host hno h3
    cases h4
    exact ⟨.cond n htest hyes hno, hf⟩
  | @compare a b op n _ ha hb =>
    obtain ⟨ha, h1⟩ := of_host ha hx
    have hop : op = .eq ∨ op = .notEq := by
      cases op with
      | eq | notEq => simp
      | _ => cases h1
    rcases hop with rfl | rfl <;>
    · obtain ⟨hb, h2⟩ := of_host hb h1
      cases h2
      exact ⟨.compare n (by simp) ha hb, hf⟩
termination_by sizeOf e

theorem Truths.of_host {ss} (hss : ∀ s ∈ ss, IsStmt s) {Γ r}
    (h : (hostStmts .loops ss).run Γ = .ok r) : Truths ss := by
  cases ss with
  | nil => exact .nil
  | cons s rest =>
    obtain ⟨hs, hrest⟩ := forall_mem_cons.mp hss
    obtain ⟨_, Δ, h1, h2⟩ := bind_ok h
    have hrest := of_host hrest h2
    cases hs with
    | print m n k he => cases (Truth.of_host he h1).2
    | @expr e n he =>
      have hwhole : hostStmt .loops (.expr e n) = (hostExpr .loops e >>= fun _ => pure ()) := by
        cases he <;> rfl
      rw [hwhole] at h1
      exact .expr n (Truth.of_host he h1).1 hrest
    | assign x m n he => exact .assign x m n (Truth.of_host he h1).1 hrest
    | ite hn htest hyes hno =>
      obtain ⟨htest, h3⟩ := Truth.of_host htest h1
      obtain ⟨_, -, h4⟩ := bind_lift_ok h3
      obtain ⟨_, Θ, hy, h5⟩ := bind_ok h4
      exact .ite _ htest (of_host hyes hy) (of_host hno h5) hrest
    | loop hn htest hbody =>
      obtain ⟨htest, h3⟩ := Truth.of_host htest h1
      obtain ⟨_, -, h4⟩ := bind_lift_ok h3
      exact .loop _ htest (of_host hbody h4) hrest
termination_by sizeOf ss

/-! ## Both checkers accept truth values -/

theorem Truth.accepted (h : Truth e) (Γ) : (hostExpr .loops e).run Γ = .ok (.host .bool, Γ) ∧
    ∃ e', (checkExpr .loops none e).run Γ = .ok ((e', .bool), Γ) := by
  induction h with
  | bool b n => exact ⟨rfl, _, rfl⟩
  | not n _ iha =>
    obtain ⟨ha, a', ha'⟩ := iha
    exact ⟨of_bind_ok ha rfl, _, of_bind_ok ha' rfl⟩
  | logic op more n _ _ iha ihb =>
    obtain ⟨ha, a', ha'⟩ := iha
    obtain ⟨hb, b', hb'⟩ := ihb
    exact ⟨of_bind_ok ha (of_bind_ok hb rfl), _, of_bind_ok ha' (of_bind_ok hb' rfl)⟩
  | cond n _ _ _ ihtest ihyes ihno =>
    obtain ⟨ht, t', ht'⟩ := ihtest
    obtain ⟨ha, a', ha'⟩ := ihyes
    obtain ⟨hb, b', hb'⟩ := ihno
    exact ⟨of_bind_ok ht (of_bind_ok ha (of_bind_ok hb rfl)), _,
      of_bind_ok ht' (of_bind_ok ha' (of_bind_ok hb' rfl))⟩
  | compare n hop _ _ iha ihb =>
    obtain ⟨ha, a', ha'⟩ := iha
    obtain ⟨hb, b', hb'⟩ := ihb
    rcases hop with rfl | rfl <;>
      exact ⟨of_bind_ok ha (of_bind_ok hb rfl), _, of_bind_ok ha' (of_bind_ok hb' rfl)⟩

/-- All variables of the table are of the type. -/
def Only (t : Ty) (Γ : TypeTable) : Prop := ∀ x u, get? Γ x = some u → u = t

theorem Only.find (h : Only t Γ) (x) : ∃ Δ, Only t Δ ∧
    ((find? x).run Γ = .ok (some t, Γ) ∧ Γ = Δ ∨
      (find? x).run Γ = .ok (none, Γ) ∧ Δ = put Γ x t) := by
  have hrun : (find? x).run Γ = .ok (get? Γ x, Γ) := rfl
  cases hx : get? Γ x with
  | some u => exact ⟨Γ, h, .inl ⟨by rw [hrun, hx, h x u hx], rfl⟩⟩
  | none =>
    refine ⟨_, fun y u hy => ?_, .inr ⟨by rw [hrun, hx], rfl⟩⟩
    rw [get?_put] at hy
    split at hy
    · exact (Option.some.inj hy).symm
    · exact h y u hy

theorem Truths.host (h : Truths ss) (hΓ : Only (.host .bool) Γ) :
    ∃ Δ, (hostStmts .loops ss).run Γ = .ok ((), Δ) ∧ Only (.host .bool) Δ := by
  induction h generalizing Γ with
  | nil => exact ⟨Γ, rfl, hΓ⟩
  | expr n he _ ih =>
    obtain ⟨Δ, hss, hΔ⟩ := ih hΓ
    have he' := (he.accepted Γ).1
    cases he with
    | bool => exact ⟨Δ, hss, hΔ⟩
    | _ => exact ⟨Δ, of_bind_ok (of_bind_ok he' rfl) hss, hΔ⟩
  | assign x m n he _ ih =>
    obtain ⟨Δ, hΔ, hx⟩ := hΓ.find x
    obtain ⟨Θ, hss, hΘ⟩ := ih hΔ
    obtain ⟨hx, rfl⟩ | ⟨hx, rfl⟩ := hx <;>
      exact ⟨Θ, of_bind_ok (of_bind_ok (he.accepted Γ).1 ((run_bind_ok hx).trans rfl)) hss, hΘ⟩
  | ite n htest _ _ _ ihyes ihno ih =>
    obtain ⟨Δ, hy, hΔ⟩ := ihyes hΓ
    obtain ⟨Θ, hn, hΘ⟩ := ihno hΔ
    obtain ⟨Ξ, hss, hΞ⟩ := ih hΘ
    exact ⟨Ξ, of_bind_ok (of_bind_ok (htest.accepted Γ).1 (of_bind_ok hy hn)) hss, hΞ⟩
  | loop n htest _ _ ihbody ih =>
    obtain ⟨Δ, hb, hΔ⟩ := ihbody hΓ
    obtain ⟨Θ, hss, hΘ⟩ := ih hΔ
    exact ⟨Θ, of_bind_ok (of_bind_ok (htest.accepted Γ).1 hb) hss, hΘ⟩

theorem Truths.check (h : Truths ss) (hΓ : Only .bool Γ) :
    ∃ q Δ, (checkStmts .loops none ss).run Γ = .ok ((q, .absent), Δ) ∧ Only .bool Δ := by
  induction h generalizing Γ with
  | nil => exact ⟨_, Γ, rfl, hΓ⟩
  | @expr e ss n he _ ih =>
    obtain ⟨-, e', he'⟩ := he.accepted Γ
    obtain ⟨q, Δ, hss, hΔ⟩ := ih hΓ
    rw [(checkStmts_expression (c := .loops) (by simp) none e n ss).resolve_left
      (by rintro ⟨_, _, _, rfl⟩; cases he)]
    exact ⟨_, Δ, of_bind_ok he' (of_bind_ok hss rfl), hΔ⟩
  | assign x m n he _ ih =>
    obtain ⟨-, e', he'⟩ := he.accepted Γ
    obtain ⟨Δ, hΔ, hx⟩ := hΓ.find x
    obtain ⟨q, Θ, hss, hΘ⟩ := ih hΔ
    obtain ⟨hx, rfl⟩ | ⟨hx, rfl⟩ := hx <;>
      exact ⟨_, Θ, of_bind_ok he' ((run_bind_ok hx).trans (of_bind_ok hss rfl)), hΘ⟩
  | @ite _ _ _ ss n htest _ _ _ ihyes ihno ih =>
    obtain ⟨-, t, ht⟩ := htest.accepted Γ
    obtain ⟨ys, Δ, hy, hΔ⟩ := ihyes hΓ
    obtain ⟨ns, Θ, hn, hΘ⟩ := ihno hΔ
    obtain ⟨q, Ξ, hss, hΞ⟩ := ih hΘ
    rw [checkStmts_ite (.inl rfl)]
    cases ss with
    | nil => exact ⟨_, Θ, of_bind_ok ht (of_bind_ok hy (of_bind_ok hn rfl)), hΘ⟩
    | cons =>
      exact ⟨_, Ξ, of_bind_ok ht (of_bind_ok hy (of_bind_ok hn (of_bind_ok hss rfl))), hΞ⟩
  | loop n htest _ _ ihbody ih =>
    obtain ⟨-, t, ht⟩ := htest.accepted Γ
    obtain ⟨bs, Δ, hb, hΔ⟩ := ihbody hΓ
    obtain ⟨q, Θ, hss, hΘ⟩ := ih hΔ
    exact ⟨_, Θ, of_bind_ok ht (of_bind_ok hb (of_bind_ok hss rfl)), hΘ⟩

/-- Of the programs of the language, the checker with built-in types accepts exactly those of truth
values, and the checker of the language accepts these too. -/
theorem hostModule_ok_iff {ss : List Stmt} (hss : ∀ s ∈ ss, IsStmt s) (n : Note) :
    (hostModule .loops (.module ss n) = .ok () ↔ Truths ss) ∧
      (hostModule .loops (.module ss n) = .ok () →
        ∃ q, checkModule .loops (.module ss n) = .ok q) := by
  have hnil (t : Ty) : Only t [] := fun x u hx => by cases hx
  have htruths (h : hostModule .loops (.module ss n) = .ok ()) : Truths ss := by
    obtain ⟨r, hr, -⟩ := ok_of_bind h
    exact .of_host hss hr
  refine ⟨⟨htruths, fun h => ?_⟩, fun h => ?_⟩
  · obtain ⟨Δ, hrun, -⟩ := h.host (hnil _)
    exact of_bind_ok hrun rfl
  · obtain ⟨q, Δ, hrun, -⟩ := (htruths h).check (hnil _)
    exact ⟨_, of_bind_ok rfl (of_bind_ok hrun rfl)⟩

/-- A program of truth values, and one with a number. -/
theorem hostModule_ok_iff_flags :
    let yes : Expr := .const (.bool true) {}
    let test : Expr := .logic .and [.unary .not yes {}, .compare yes [.notEq] [yes] {}] {}
    let body : List Stmt := [.assign [.name "x" {}] (.cond yes test yes {}) {}]
    let ss : List Stmt := [.ite test [.loop test body [] {}] [.expr test {}] {}]
    hostModule .loops (.module ss {}) = .ok () ∧
      (∃ q, checkModule .loops (.module ss {}) = .ok q) ∧
      hostModule .loops (.module [.expr (.const (.int 1 0) {}) {}] {}) =
        .error (.fault .unboundName) ∧
      ∃ q, checkModule .loops (.module [.expr (.const (.int 1 0) {}) {}] {}) = .ok q := by
  intro yes test body ss
  have hyes : IsExpr yes := .bool true {}
  have htest : IsExpr test := .logic _ [] {} (.not {} hyes) (.compare {} rfl hyes hyes)
  have hbody : ∀ s ∈ body, IsStmt s := forall_mem_singleton.mpr (.assign _ _ _
    (.cond {} hyes htest hyes))
  have hss : ∀ s ∈ ss, IsStmt s := forall_mem_singleton.mpr (.ite rfl htest
    (forall_mem_singleton.mpr (.loop rfl htest hbody)) (forall_mem_singleton.mpr (.expr _ htest)))
  obtain ⟨hiff, hcheck⟩ := hostModule_ok_iff hss {}
  have hyes : Truth yes := .bool true {}
  have htest : Truth test := .logic _ [] {} (.not {} hyes) (.compare {} (.inr rfl) hyes hyes)
  have hbody : Truths body := .assign _ _ _ (.cond {} hyes htest hyes) .nil
  have hhost := hiff.mpr (.ite {} htest (.loop {} htest hbody .nil) (.expr {} htest .nil) .nil)
  exact ⟨hhost, hcheck hhost, rfl, _, rfl⟩

end CompilerKit.Loops
