import CompilerKit.Proofs.Environments
import CompilerKit.Proofs.Vars.Meaning

/-!
# Functions that casts make

A cast between types of functions, tuples or lists makes functions whose bodies cast their
parameters. They are run like functions that a program defines, so what they do is read off the
rules of evaluation.
-/

namespace CompilerKit.Casts

open Run List Bindings EStateM Array

/-! ## Later stores -/

/-- Every sequence and every environment of the first store is in the second one, and nothing has
been read or written. -/
structure Grown (σ τ : Store) : Prop where
  heap : ∀ (p : Nat) (s : Sequence), σ.heap[p]? = some s → τ.heap[p]? = some s
  envs : ∀ (i : Nat) (env : Env), σ.envs[i]? = some env → τ.envs[i]? = some env
  console : τ.console = σ.console

variable {σ τ : Store} {n : Nat}

namespace Grown

theorem of_eq (hheap : τ.heap = σ.heap) (henvs : τ.envs = σ.envs)
    (hconsole : τ.console = σ.console) : Grown σ τ where
  heap _ _ h := hheap ▸ h
  envs _ _ h := henvs ▸ h
  console := hconsole

theorem refl (σ) : Grown σ σ := of_eq rfl rfl rfl

theorem trans (h : Grown σ τ) (h' : Grown τ υ) : Grown σ υ where
  heap p s hs := h'.heap p s (h.heap p s hs)
  envs i env hi := h'.envs i env (h.envs i env hi)
  console := h'.console.trans h.console

theorem getElem?_push_of_some {α : Type} {as : Array α} {i : Nat} {a : α} (h : as[i]? = some a)
    (b : α) : (as.push b)[i]? = some a := by
  have hlt := (Array.getElem?_eq_some_iff.mp h).1
  rwa [Array.getElem?_push, if_neg (Nat.ne_of_lt hlt)]

theorem push (σ s) : Grown σ { σ with heap := σ.heap.push s } where
  heap _ _ h := getElem?_push_of_some h s
  envs _ _ h := h
  console := rfl

theorem pushEnv (σ env) : Grown σ { σ with envs := σ.envs.push env } where
  heap _ _ h := h
  envs _ _ h := getElem?_push_of_some h env
  console := rfl

theorem size_envs (h : Grown σ τ) : σ.envs.size ≤ τ.envs.size := by
  refine Nat.le_of_not_lt fun hlt => ?_
  have hlast := h.envs τ.envs.size _ (Array.getElem?_eq_getElem hlt)
  exact Nat.lt_irrefl _ (Array.getElem?_eq_some_iff.mp hlast).1

end Grown

/-! ## Applications -/

variable {env : Env} {f : Value}

/-- A function whose body returns an expression gives the value of that expression where its
parameters are bound. -/
theorem run_apply_ret (hi : σ.envs[i]? = some env) (f xs e m id vs) :
    (applyValue .casts (n + 3) (.function f (.names xs) (.stmts [.ret e m]) i id) vs).run σ =
      (evalExpr .casts n σ.envs.size e).run
        { σ with envs := σ.envs.push (putAll env (xs.zip vs)) } := by
  have henter : (enter i (.names xs) vs).run σ =
      .ok σ.envs.size { σ with envs := σ.envs.push (putAll env (xs.zip vs)) } := by
    rw [enter, run_next (Vars.run_envAt hi _)]
    rfl
  exact run_next henter

theorem run_cast_name (hi : σ.envs[i]? = some env) (hx : get? env x = some v) (p q m k) :
    (evalExpr .casts (n + 2) i (.cast (.name x m) p q k)).run σ =
      (castValue .casts v p q).run σ := by
  have hname : (evalExpr .casts (n + 1) i (.name x m)).run σ = .ok v σ :=
    Vars.run_lookup (Option.bind_eq_some_iff.mpr ⟨env, hi, hx⟩)
  exact run_next hname

/-- A function that casts its argument, with its environment in the store. -/
inductive Caster (σ : Store) (p q : Ty) : Value → Prop where
  | mk (x : String) {i} (id) (hi : i < σ.envs.size) :
      Caster σ p q
        (.function "cast" (.names [x]) (.stmts [.ret (.cast (.name x {}) p q {}) {}]) i id)

theorem Caster.of_le (h : Caster σ p q f) (hτ : σ.envs.size ≤ τ.envs.size) : Caster τ p q f := by
  cases h with
  | mk x id hi => exact .mk x id (Nat.lt_of_lt_of_le hi hτ)

theorem Caster.mono (h : Caster σ p q f) (hτ : Grown σ τ) : Caster τ p q f := h.of_le hτ.size_envs

theorem Caster.run_apply (h : Caster σ p q f) (v) :
    ∃ env, (applyValue .casts (n + 5) f [v]).run σ =
      (castValue .casts v p q).run { σ with envs := σ.envs.push env } := by
  cases h with
  | @mk x i id hi =>
    refine ⟨put σ.envs[i] x v, ?_⟩
    rw [run_apply_ret (getElem?_eq_getElem hi)]
    refine run_cast_name getElem?_push_size ?_ p q {} {}
    change get? (put σ.envs[i] x v) x = some v
    rw [get?_put, if_pos (beq_self_eq_true x)]

theorem run_castFunction (x p q σ) :
    ∃ f τ, (castFunction x p q).run σ = .ok f τ ∧ Caster τ p q f ∧ Grown σ τ := by
  refine ⟨_, _, rfl, .mk x σ.next ?_, (Grown.pushEnv σ []).trans (.of_eq rfl rfl rfl)⟩
  rw [size_push]
  exact Nat.lt_succ_self _

/-! ## Casts of functions -/

/-- The parameters of a cast function, from the number of the first one on. -/
def paramsFrom : Nat → Nat → List String
  | _, 0 => []
  | k, n + 1 => freshName "x" k :: paramsFrom (k + 1) n

theorem run_params (qs : List Ty) (σ : Store) :
    (qs.mapM fun _ => fresh "x").run σ =
      .ok (paramsFrom σ.fresh qs.length) { σ with fresh := σ.fresh + qs.length } := by
  induction qs generalizing σ with
  | nil => rfl
  | cons q qs ih =>
    have hfresh : (fresh "x").run σ =
        .ok (freshName "x" σ.fresh) { σ with fresh := σ.fresh + 1 } := rfl
    rw [mapM_cons, run_next hfresh, run_next (ih _)]
    simp only [length_cons, paramsFrom, Nat.add_assoc, Nat.add_comm 1]
    rfl

/-- The function that a cast makes of a function, with the given parameters. -/
def wrapper (f : Value) (ps : List Ty) (r : Ty) (qs : List Ty) (s : Ty) (xs : List String)
    (i id : Nat) : Value :=
  .function "cast" (.names xs) (.stmts [.ret (.cast (.call (.embedded f {})
    ((xs.zip (ps.zip qs)).map fun xt => .cast (.name xt.1 {}) xt.2.2 xt.2.1 {}) {}) r s {}) {}])
    i id

theorem length_paramsFrom (k n) : (paramsFrom k n).length = n := by
  induction n generalizing k with
  | zero => rfl
  | succ n ih => rw [paramsFrom, length_cons, ih]

theorem mem_paramsFrom (h : x ∈ paramsFrom k n) : ∃ j, k ≤ j ∧ x = freshName "x" j := by
  induction n generalizing k with
  | zero => cases h
  | succ n ih =>
    rcases mem_cons.mp h with rfl | h
    · exact ⟨k, Nat.le_refl k, rfl⟩
    · obtain ⟨j, hj, rfl⟩ := ih h
      exact ⟨j, Nat.le_of_succ_le hj, rfl⟩

theorem nodup_paramsFrom (k n) : (paramsFrom k n).Nodup := by
  induction n generalizing k with
  | zero => exact nodup_nil
  | succ n ih =>
    refine nodup_cons.mpr ⟨fun h => ?_, ih (k + 1)⟩
    obtain ⟨j, hj, hname⟩ := mem_paramsFrom h
    exact Nat.ne_of_lt hj (freshName_inj hname)

/-- The arguments of a cast function are the values of its parameters, cast one after the other. -/
theorem run_castArgs (hi : σ.envs[i]? = some env) {xs : List String} {vs : List Value}
    (hlen : xs.length = vs.length) (hget : ∀ xv ∈ xs.zip vs, get? env xv.1 = some xv.2)
    (ts : List (Ty × Ty)) :
    (((xs.zip ts).map fun xt => Expr.cast (.name xt.1 {}) xt.2.2 xt.2.1 {}).mapM
        (evalExpr .casts (n + 2) i)).run σ =
      ((vs.zip ts).mapM fun vt => castValue .casts vt.1 vt.2.2 vt.2.1).run σ := by
  induction xs generalizing σ vs ts with
  | nil =>
    obtain rfl := eq_nil_of_length_eq_zero hlen.symm
    rfl
  | cons x xs ih =>
    obtain ⟨v, vs, rfl⟩ := exists_cons_of_length_eq_add_one hlen.symm
    cases ts with
    | nil => rfl
    | cons t ts =>
      rw [zip_cons_cons, forall_mem_cons] at hget
      rw [zip_cons_cons, zip_cons_cons, map_cons, mapM_cons, mapM_cons,
        run_bind, run_bind, run_cast_name hi hget.1]
      cases hcast : (castValue .casts v t.2 t.1).run σ with
      | error e τ => rfl
      | ok w τ =>
        have hlt := (Array.getElem?_eq_some_iff.mp hi).1
        have hτ := (confined_castValue (i := σ.envs.size) .casts v t.2 t.1).of_ok hcast
        have hi' := (hτ.envs i hlt (Nat.ne_of_lt hlt)).trans hi
        dsimp only
        rw [run_bind, run_bind, ih hi' (Nat.succ.inj hlen) hget.2 ts]

theorem run_wrapper {ps qs : List Ty} {r s : Ty} {xs : List String} (hi : i < σ.envs.size)
    (hxs : xs.Nodup) {vs : List Value} (hlen : xs.length = vs.length) (id : Nat) :
    (applyValue .casts (n + 7) (wrapper f ps r qs s xs i id) vs).run σ =
      (do
        let ws ← (vs.zip (ps.zip qs)).mapM fun vt => castValue .casts vt.1 vt.2.2 vt.2.1
        let w ← applyValue .casts (n + 2) f ws
        castValue .casts w r s : Run Value).run
        { σ with envs := σ.envs.push (putAll σ.envs[i] (xs.zip vs)) } := by
  rw [wrapper, run_apply_ret (getElem?_eq_getElem hi)]
  have hfst : ((xs.zip vs).map Prod.fst).Nodup := by
    rwa [List.map_fst_zip (Nat.le_of_eq hlen)]
  have hget : ∀ xv ∈ xs.zip vs, get? (putAll σ.envs[i] (xs.zip vs)) xv.1 = some xv.2 := by
    intro xv hxv
    rw [get?_putAll _ hfst, get?_of_mem hfst hxv]
    rfl
  change (do
    let w ← (do
      let ws ← List.mapM _ _
      applyValue .casts (n + 2) f ws)
    castValue .casts w r s).run _ = _
  rw [bind_assoc, run_bind, run_bind, run_castArgs getElem?_push_size hlen hget]

/-- A function that is cast to another type of functions is applied to arguments by casting them
back, applying the function itself and casting what it gives. The only difference is the environment
in which the cast function has its parameters. -/
theorem cast_function_applies (f : Value) (ps : List Ty) (r : Ty) (qs : List Ty) (s : Ty)
    (b c : Bool) (σ : Store) :
    ∃ g σ', (castValue .casts f (.function ps r b) (.function qs s c)).run σ = .ok g σ' ∧
      ∀ (τ : Store) (vs : List Value) (n : Nat), σ'.envs.size ≤ τ.envs.size →
        vs.length = qs.length → ∃ env,
          (applyValue .casts (n + 7) g vs).run τ =
            (do
              let ws ← (vs.zip (ps.zip qs)).mapM fun vt => castValue .casts vt.1 vt.2.2 vt.2.1
              let w ← applyValue .casts (n + 2) f ws
              castValue .casts w r s : Run Value).run { τ with envs := τ.envs.push env } := by
  have hmade : (castValue .casts f (.function ps r b) (.function qs s c)).run σ =
      .ok (wrapper f ps r qs s (paramsFrom σ.fresh qs.length) σ.envs.size σ.next)
        { σ with
          fresh := σ.fresh + qs.length, envs := σ.envs.push [], next := σ.next + 1 } := by
    exact (run_next (run_params qs σ)).trans rfl
  refine ⟨_, _, hmade, fun τ vs n hτ hlen => ⟨_, run_wrapper ?_ (nodup_paramsFrom _ _) ?_ _⟩⟩
  · rwa [Array.size_push] at hτ
  · rw [length_paramsFrom, hlen]

/-- The function that adds one, as a function on values of unknown type. -/
theorem cast_function_applies_increment :
    ∃ g σ' τ, (castValue .casts (.function "f" (.names ["y"]) (.stmts [.ret (.arith (.name "y" {})
        .add (.const (.int 1 0) {}) {}) {}]) 0 0) (.function [.int] .int)
          (.function [.any] .any)).run { envs := #[[]] } = .ok g σ' ∧
      (applyValue .casts 10 g [.tagged (.int 5 0) (sharedText "int") 0]).run σ' =
        .ok (.tagged (.int 6 3) (sharedText "int") 4) τ := by
  obtain ⟨g, σ', hg, happly⟩ := cast_function_applies (.function "f" (.names ["y"]) (.stmts
    [.ret (.arith (.name "y" {}) .add (.const (.int 1 0) {}) {}) {}]) 0 0) [.int] .int [.any] .any
    false false { envs := #[[]] }
  obtain ⟨env, henv⟩ := happly σ' [.tagged (.int 5 0) (sharedText "int") 0] 3 (Nat.le_refl _) rfl
  have hmade := hg
  cases hg
  exact ⟨_, _, _, hmade, henv⟩

end CompilerKit.Casts
