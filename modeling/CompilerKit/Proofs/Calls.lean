import CompilerKit.Eval.Rules
import CompilerKit.Proofs.Simulation

/-!
# Calls and outputs

A call of a name is an operation of the language or the application of a function, and an
expression that stands as a statement is an output or is evaluated for its effects. The rules for
functions and for effects, in any language.
-/

namespace CompilerKit

theorem evalCall_of_not_builtin (hblocks : l.isBlocks = false) (hl : l.hasFunctions)
    (hf : builtins.contains f = false) (e args) :
    evalCall l (n + 1) i e f args = (do
      let g ← evalExpr l n i (.name f {})
      let vs ← args.mapM (evalExpr l n i)
      applyValue l n g vs) := by
  have hgeneral : (l.hasFunctions && !builtins.contains f) := by
    rw [hl, hf]
    rfl
  delta evalCall evalExpr applyValue
  conv => lhs; whnf
  split
  -- the name that only the lowered languages know is a name like any other
  case h_18 =>
    rw [hblocks, Bool.and_false]
    exact if_pos hgeneral
  case h_24 => exact if_pos hgeneral
  all_goals cases hf

theorem evalStmt_expr (he : ∀ k a m, e ≠ .call (.name "print" k) [a] m) (m rest) :
    evalStmt l (n + 1) i (.expr e m) rest = (do
      let _ ← evalExpr l n i e
      evalStmts l n i rest) := by
  delta evalStmt evalExpr evalStmts
  conv => lhs; whnf
  split
  case h_1 heq =>
    cases heq
    exact absurd rfl (he _ _ _)
  case h_2 heq =>
    cases heq
    rfl
  case h_16 =>
    have hexpr : ∀ a l, Stmt.expr e m = .expr a l → False := by assumption
    exact (hexpr e m rfl).elim
  all_goals contradiction

theorem bindKeys_mem (h : bindKeys ks vs = .ok env) : ∀ p ∈ env, p.2 ∈ vs := by
  fun_induction bindKeys ks vs generalizing env with
  | case1 x ks v vs ih =>
    obtain ⟨rest, hrest, hpure⟩ := ok_of_bind h
    cases hpure
    exact List.forall_mem_cons.mpr ⟨List.mem_cons_self, fun p hp => .tail v (ih hrest p hp)⟩
  | case2 k ks v vs _ hk ih => exact fun p hp => .tail v (ih h p hp)
  | case3 => cases h
  | case4 =>
    cases h
    exact List.forall_mem_nil _

end CompilerKit
