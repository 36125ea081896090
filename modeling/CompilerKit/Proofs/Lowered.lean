import CompilerKit.Proofs.Calls

/-!
# Proxies in blocks

The language of proxies and the blocks that it is lowered to have the same rules for expressions
that make proxies, look at them and take them apart, but for one: blocks cannot make a proxy of a
tuple.
-/

namespace CompilerKit.Lowered

open Run Bool

/-- The expression is built from names and constants by what makes, looks at or takes apart
proxies. -/
def onProxies : Expr → Bool
  | .name _ _ | .const _ _ => true
  | .tupleProxy b r _ _ _ => onProxies b && onProxies r
  | .listProxy b r w _ _ _ => onProxies b && onProxies r && onProxies w
  | .injectTuple b _ | .injectTupleProxy b _ _ | .injectList b _ | .injectListProxy b _ _ =>
    onProxies b
  | .call (.name f _) [a] _ =>
    ["is_tuple_proxy", "is_array_proxy", "project_tuple", "project_array", "proxy_tuple_len",
      "proxy_array_len"].contains f && onProxies a
  | _ => false

/-- Such an expression makes a proxy of a tuple somewhere. -/
def makesTuple : Expr → Bool
  | .tupleProxy _ _ _ _ _ => true
  | .listProxy b r w _ _ _ => makesTuple r || (makesTuple w || makesTuple b)
  | .injectTuple b _ | .injectTupleProxy b _ _ | .injectList b _ | .injectListProxy b _ _ =>
    makesTuple b
  | .call _ [a] _ => makesTuple a
  | _ => false

/-- The second run ends like the first; if it has to make a proxy of a tuple, it stops, and it may
do so because of an unbound name. -/
inductive Agrees {α : Type} : Bool → Run.Result α → Run.Result α → Prop where
  | same (r) : Agrees false r r
  | error {p} (e σ) : Agrees p (.error e σ) (.error e σ)
  | unbound (r σ) : Agrees true r (.error (.fault .unboundName) σ)

def Agree {α : Type} (p : Bool) (x y : Run α) : Prop := ∀ σ, Agrees p (x.run σ) (y.run σ)

variable {α β : Type} {f g : α → Run β}

namespace Agree

theorem bind (hx : Agree p x y) (hf : ∀ a, Agree q (f a) (g a)) :
    Agree (p || q) (x >>= f) (y >>= g) := by
  intro σ
  have h := hx σ
  rw [EStateM.run_bind, EStateM.run_bind]
  generalize x.run σ = r at h
  generalize y.run σ = r' at h
  cases h with
  | same r =>
    cases r with
    | ok a τ => exact hf a τ
    | error e τ => exact .error e τ
  | error e τ => exact .error e τ
  | unbound r τ => exact .unbound _ τ

theorem andThen (hx : Agree p x y) (hfg : ∀ a, f a = g a) : Agree p (x >>= f) (y >>= g) := by
  obtain rfl := funext hfg
  have h := hx.bind fun a σ => .same ((f a).run σ)
  rwa [Bool.or_false] at h

end Agree

theorem lenOf_proxyBlocks (n : Nat) (v : Value) : lenOf .proxyBlocks n v = lenOf .proxies n v := by
  induction n generalizing v with
  | zero => rfl
  | succ n ih =>
    cases v with
    | proxiedTuple b _ _ | proxiedList b _ _ _ => exact ih b
    | _ => rfl

theorem agree_evalExpr (h : onProxies e) (n i : Nat) :
    Agree (makesTuple e) (evalExpr .proxies n i e) (evalExpr .proxyBlocks n i e) := by
  induction n using Nat.strongRecOn generalizing e with | _ n ih => _
  rcases n with _ | n
  · exact fun σ => .error _ σ
  have ih' {e : Expr} (h : onProxies e) := ih n n.lt_succ_self h
  unfold onProxies at h
  split at h
  · exact fun σ => .same _
  · exact fun σ => .same _
  · obtain ⟨hb, hr⟩ := and_eq_true_iff.mp h
    have hagree := (ih' hr).bind fun rs => (ih' hb).bind
      (f := fun t => newProxiedTuple t rs) fun _ σ => .unbound _ σ
    rwa [Bool.or_true, Bool.or_true] at hagree
  · obtain ⟨hbr, hw⟩ := and_eq_true_iff.mp h
    obtain ⟨hb, hr⟩ := and_eq_true_iff.mp hbr
    exact (ih' hr).bind fun r => (ih' hw).bind fun w => (ih' hb).andThen fun t => rfl
  · exact ih' h
  · exact (ih' h).andThen fun _ => rfl
  · exact ih' h
  · exact (ih' h).andThen fun _ => rfl
  · obtain ⟨hf, ha⟩ := and_eq_true_iff.mp h
    rcases n with _ | n
    · exact fun σ => .error _ σ
    have hagree := ih n (Nat.lt_of_lt_of_le n.lt_succ_self n.succ.le_succ) ha
    simp only [List.contains_cons, List.contains_nil, Bool.or_false, Bool.or_eq_true,
      beq_iff_eq] at hf
    rcases hf with rfl | rfl | rfl | rfl | rfl | rfl
    · exact hagree.andThen fun _ => rfl
    · exact hagree.andThen fun _ => rfl
    · exact hagree
    · exact hagree
    · exact hagree.andThen fun v => lenOf_proxyBlocks n v ▸ rfl
    · exact hagree.andThen fun v => lenOf_proxyBlocks n v ▸ rfl
  · contradiction

/-- In blocks, an expression over proxies gives what it gives in the language of proxies, a value or
an error, unless it makes a proxy of a tuple. Then it stops. -/
theorem proxies_agree {e : Expr} (h : onProxies e = true) (n i : Nat) (σ : Store) :
    (makesTuple e = false →
      (evalExpr .proxyBlocks n i e).run σ = (evalExpr .proxies n i e).run σ) ∧
    (makesTuple e = true →
      (∃ τ, (evalExpr .proxyBlocks n i e).run σ = .error (.fault .unboundName) τ) ∨
      ∃ f τ, (evalExpr .proxies n i e).run σ = .error f τ ∧
        (evalExpr .proxyBlocks n i e).run σ = .error f τ) := by
  have hagrees := agree_evalExpr h n i σ
  generalize (evalExpr .proxies n i e).run σ = r at hagrees
  generalize (evalExpr .proxyBlocks n i e).run σ = r' at hagrees
  generalize makesTuple e = made at hagrees
  cases hagrees with
  | same => exact ⟨fun _ => rfl, fun hmade => absurd hmade false_ne_true⟩
  | error f τ => exact ⟨fun _ => rfl, fun _ => .inr ⟨f, τ, rfl, rfl⟩⟩
  | unbound r τ => exact ⟨fun hmade => absurd hmade.symm false_ne_true, fun _ => .inl ⟨τ, rfl⟩⟩

theorem proxies_agree_pair :
    let e : Expr := .tupleProxy (.name "t" {}) (.name "r" {}) (.tuple [.int]) (.tuple [.any]) {}
    let σ : Store := {
      heap := #[⟨false, #[.int 1 0]⟩, ⟨false, #[.none]⟩]
      envs := #[[("t", .seq 0), ("r", .seq 1)]] }
    onProxies e = true ∧ makesTuple e = true ∧
      (∃ τ, (evalExpr .proxies 2 0 e).run σ = .ok (.proxiedTuple (.seq 0) (.seq 1) σ.next) τ) ∧
      ∃ τ, (evalExpr .proxyBlocks 2 0 e).run σ = .error (.fault .unboundName) τ := by
  intro e σ
  refine ⟨rfl, rfl, ⟨_, rfl⟩, ?_⟩
  rcases (proxies_agree (e := e) rfl 2 0 σ).2 rfl with h | ⟨f, τ, h, -⟩
  · exact h
  · cases h

end CompilerKit.Lowered
