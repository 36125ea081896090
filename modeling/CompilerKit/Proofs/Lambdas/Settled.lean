import CompilerKit.Proofs.Functions.Program

/-!
# Expressions that have been checked

The checker records types in the expressions that it goes through. Checked once more from the same
table, what it has returned is accepted at the same type and nothing in it changes. Some rules
record the type of a part after the part has been checked, so this is shown for every type that may
be recorded at the top of an expression.

* `Settled.kept`, `Settled.recorded`: the two ways in which a rule ends.
* `settles_call`, `settles_lambda` and their like: a rule for each expression.
-/

namespace CompilerKit

namespace Ty

mutual

/-- Whether types are equal does not depend on what a refusal would point at. -/
theorem equate_place {s t} (h : equate .lambdas p s t = .ok ()) :
    equate .lambdas q s t = .ok () := by
  have hplain {b : Bool} {e e' : CheckError}
      (hb : (if b then Except.ok () else .error e) = .ok ()) :
      (if b then Except.ok () else .error e') = .ok () := by
    cases b with
    | false => cases hb
    | true => rfl
  rw [equate] at h ⊢
  split at h
  · next hbottom => exact if_pos hbottom
  · next hbottom =>
    rw [if_neg hbottom]
    cases s with
    | all xs s b =>
      cases t with
      | all => exact hplain h
      | _ => cases h
    | tuple ps b =>
      cases t with
      | tuple => exact equates_place h
      | _ => cases h
    | list s =>
      cases t with
      | list => exact equate_place (s := s) h
      | _ => cases h
    | function ps r b =>
      cases t with
      | function =>
        obtain ⟨_, hps, hr⟩ := ok_of_bind h
        exact of_bind_ok (equates_place hps) (equate_place (s := r) hr)
      | _ => cases h
    | _ => exact hplain h
termination_by sizeOf s

theorem equates_place {ps qs} (h : equates .lambdas p ps qs = .ok ()) :
    equates .lambdas q ps qs = .ok () := by
  cases ps with
  | nil => rfl
  | cons s ps =>
    cases qs with
    | nil => rfl
    | cons t qs =>
      obtain ⟨_, hs, hps⟩ := ok_of_bind h
      exact of_bind_ok (equate_place hs) (equates_place hps)
termination_by sizeOf ps

end

end Ty

variable {t : Ty}

namespace Lambdas

open Check
open Functions (name? IsCallee inScope_run ofExcept_run callForm_of_ok)

variable {want : Option Ty} {env ρ : TypeTable}

/-! ## Runs -/

theorem run_bind {α β x} {f : α → Check β} {a r} (hx : x.run env = .ok (a, ρ))
    (hf : (f a).run ρ = .ok r) : (x >>= f).run env = .ok r :=
  of_bind_ok hx hf

/-- Whatever comes after the run `x` starts with this value. -/
abbrev Leads (x : Check α) (env : TypeTable) (a : α) (ρ : TypeTable) : Prop :=
  ∀ ⦃β⦄ ⦃f : α → Check β⦄ ⦃r⦄, (f a).run ρ = .ok r → (x >>= f).run env = .ok r

/-- A run ends with `f`. What comes before it would also come with what it has given. -/
inductive Parted (again : α → Check α) (f : α → Check β) (env : TypeTable) (r) : Prop
  | intro {a ρ} (first : Leads (again a) env a ρ) (rest : (f a).run ρ = .ok r)

theorem parted {f : α → Check β} (h : (x >>= f).run env = .ok r) : Parted (fun _ => x) f env r := by
  obtain ⟨a, ρ, hx, h⟩ := bind_ok h
  exact ⟨fun _ _ _ => run_bind hx, h⟩

theorem run_inScope {α : Type} {more : TypeTable} {m : Check α} {a : α}
    (h : m.run (Bindings.putAll env more) = .ok (a, ρ)) :
    (inScope more m).run env = .ok (a, env) :=
  run_bind rfl (run_bind rfl (run_bind h (run_bind rfl rfl)))

theorem parted_equal {f : Unit → Check β} (h : (equal .lambdas s t p >>= f).run env = .ok r) :
    (∀ q, Leads (equal .lambdas s t q) env () env) ∧ (f ()).run env = .ok r := by
  obtain ⟨_, hequate, h⟩ := bind_lift_ok h
  refine ⟨fun q _ _ _ => run_bind ?_, h⟩
  rw [equal, Ty.equate_place hequate]
  rfl

/-! ## Recorded types -/

/-- The expression with another type recorded at its top, or with none. -/
def marked (o : Option Ty) (e : Expr) : Expr := e.withNote { e.note with type := o }

theorem marked_self (e) : marked e.note.type e = e := by cases e <;> rfl

theorem withType_marked (o e t) : (marked o e).withType t = e.withType t := by cases e <;> rfl

/-- The expression is a constant. -/
def isConst : Expr → Bool
  | .const _ _ => true
  | _ => false

/-- The expression `e'` is what the checker has returned for `e`. It is returned again, whatever
type is recorded at its top by then. -/
structure Settled (want : Option Ty) (env : TypeTable) (e e' : Expr) (t : Ty) (ρ : TypeTable) :
    Prop where
  name : name? e' = name? e
  const : isConst e' = isConst e
  again (o : Option Ty) :
    ∃ e'', (checkExpr .lambdas want (marked o e')).run env = .ok ((e'', t), ρ) ∧
    (e'' = e' ∨ e'' = marked o e')

/-- Whatever the checker returns for the expression is settled. -/
def Settles (e : Expr) : Prop :=
  ∀ ⦃want : Option Ty⦄ ⦃env ρ : TypeTable⦄ ⦃e' : Expr⦄ ⦃t : Ty⦄,
    (checkExpr .lambdas want e).run env = .ok ((e', t), ρ) → Settled want env e e' t ρ

namespace Settled

variable {e e' : Expr}

theorem self (h : Settled want env e e' t ρ) :
    (checkExpr .lambdas want e').run env = .ok ((e', t), ρ) := by
  obtain ⟨e'', hrun, heq⟩ := h.again e'.note.type
  rw [marked_self] at hrun heq
  rw [or_self] at heq
  rwa [heq] at hrun

theorem withType (h : Settled want env e e' t ρ) (s) :
    ∃ e'', (checkExpr .lambdas want (e'.withType s)).run env = .ok ((e'', t), ρ) ∧
      ∀ u, e''.withType u = e'.withType u := by
  obtain ⟨e'', hrun, heq⟩ := h.again (some s)
  refine ⟨e'', hrun, fun u => ?_⟩
  rcases heq with rfl | rfl
  · rfl
  · exact withType_marked (some s) e' u

end Settled

theorem Settles.parted {e} (he : Settles e) {f : Expr × Ty → Check α}
    (h : (checkExpr .lambdas want e >>= f).run env = .ok r) :
    Parted (fun p => checkExpr .lambdas want p.1) f env r := by
  obtain ⟨p, ρ, hrun, h⟩ := bind_ok h
  exact ⟨fun _ _ _ => run_bind (he hrun).self, h⟩

/-! ## The end of a rule -/

/-- What has been found is compared with the type that is wanted. -/
def finish (want : Option Ty) (r : Expr × Ty) : Check (Expr × Ty) := do
  match want with
  | none => pure ()
  | some t => equal .lambdas r.2 t (.expr r.1)
  pure r

/-- The type is the one that is wanted, if one is. -/
def Fits (want : Option Ty) (t : Ty) : Prop :=
  ∀ u, want = some u → ∀ place, Ty.equate .lambdas place t u = .ok ()

theorem finish_ok (h : (finish want r).run env = .ok ((e', t), ρ)) :
    e' = r.1 ∧ t = r.2 ∧ ρ = env ∧ Fits want r.2 := by
  cases want with
  | none =>
    cases h
    exact ⟨rfl, rfl, rfl, nofun⟩
  | some u =>
    obtain ⟨_, hequate, h1⟩ := bind_lift_ok h
    cases h1
    refine ⟨rfl, rfl, rfl, ?_⟩
    rintro _ ⟨⟩ place
    exact Ty.equate_place hequate

theorem Fits.run (h : Fits want t) (e env) : (finish want (e, t)).run env = .ok ((e, t), env) := by
  cases want with
  | none => rfl
  | some u =>
    have hequate : (equal .lambdas t u (.expr e)).run env = .ok ((), env) := by
      rw [equal, h u rfl]
      rfl
    exact run_bind hequate rfl

section

variable {e e' : Expr} {u : Ty} {ρ1 : TypeTable}
  (h : (finish want (e1, u)).run ρ1 = .ok ((e', t), ρ)) (hname : name? e1 = name? e)
  (hconst : isConst e1 = isConst e)
include h hname hconst

/-- The rule keeps the type that is recorded. -/
theorem Settled.kept
    (hrule : ∀ o, (finish want (marked o e1, u)).run ρ1 = .ok ((marked o e1, u), ρ1) →
    (checkExpr .lambdas want (marked o e1)).run env = .ok ((marked o e1, u), ρ1)) :
    Settled want env e e' t ρ := by
  obtain ⟨rfl, rfl, rfl, hfits⟩ := finish_ok h
  exact ⟨hname, hconst, fun o => ⟨_, hrule o (hfits.run _ _), .inr rfl⟩⟩

/-- The rule records the type. -/
theorem Settled.recorded (hrule : ∀ o, (finish want (e1, u)).run ρ1 = .ok ((e1, u), ρ1) →
    (checkExpr .lambdas want (marked o e1)).run env = .ok ((e1, u), ρ1)) :
    Settled want env e e' t ρ := by
  obtain ⟨rfl, rfl, rfl, hfits⟩ := finish_ok h
  exact ⟨hname, hconst, fun o => ⟨_, hrule o (hfits.run _ _), .inl rfl⟩⟩

end

/-! ## Atoms -/

/-- An expression whose type does not depend on anything and is not recorded. -/
theorem settles_plain
    (hrule : ∀ want o, checkExpr .lambdas want (marked o e) = finish want (marked o e, t)) :
    Settles e := by
  intro want env ρ e' u h
  have hself := hrule want e.note.type
  rw [marked_self] at hself
  rw [hself] at h
  obtain ⟨rfl, rfl, rfl, hfits⟩ := finish_ok h
  refine ⟨rfl, rfl, fun o => ⟨marked o e', ?_, .inr rfl⟩⟩
  rw [hrule]
  exact hfits.run _ _

theorem settles_const (k n) : Settles (.const k n) := by
  cases k with
  | int | bool | none => exact settles_plain fun _ _ => rfl
  | _ =>
    intro want env ρ e' t h
    cases h

theorem settles_name (x n) : Settles (.name x n) := by
  intro want env ρ e' t h
  obtain ⟨hx, h⟩ := parted h
  exact .recorded h rfl rfl fun _ => (hx ·)

theorem settles_funRef (x a n) : Settles (.funRef x a n) := by
  intro want env ρ e' t h
  obtain ⟨hx, h⟩ := parted h
  exact .recorded h rfl rfl fun _ => (hx ·)

theorem settles_allocate (l t n) : Settles (.allocate l t n) := by
  intro want env ρ e' u h
  cases t with
  | tuple ts b =>
    obtain ⟨rfl, rfl, rfl, hfits⟩ := finish_ok h
    exact ⟨rfl, rfl, fun o => ⟨_, hfits.run _ _, .inl rfl⟩⟩
  | _ => cases h

/-! ## Operators -/

section Operators

variable {a b : Expr}

theorem settles_arith (ha : Settles a) (hb : Settles b) (op n) : Settles (.arith a op b n) := by
  intro want env ρ e' t h
  cases op with
  | add | sub | mult =>
    obtain ⟨ha, h⟩ := ha.parted h
    obtain ⟨hs, h⟩ := parted h
    obtain ⟨hb, h⟩ := hb.parted h
    obtain ⟨hu, h⟩ := parted h
    exact .kept h rfl rfl fun _ hfin => ha (hs (hb (hu hfin)))
  | _ => cases h

theorem settles_unary (ha : Settles a) (op n) : Settles (.unary op a n) := by
  intro want env ρ e' t h
  cases op with
  | neg | not =>
    obtain ⟨ha, h⟩ := ha.parted h
    obtain ⟨hs, h⟩ := parted h
    exact .kept h rfl rfl fun _ hfin => ha (hs hfin)
  | _ => cases h

theorem settles_logic (ha : Settles a) (hb : Settles b) (op more n) :
    Settles (.logic op (a :: b :: more) n) := by
  intro want env ρ e' t h
  obtain ⟨ha, h⟩ := ha.parted h
  obtain ⟨hs, h⟩ := parted h
  obtain ⟨hb, h⟩ := hb.parted h
  obtain ⟨hu, h⟩ := parted h
  exact .kept h rfl rfl fun _ hfin => ha (hs (hb (hu hfin)))

theorem settles_cond (htest : Settles test) (ha : Settles a) (hb : Settles b) (n) :
    Settles (.cond test a b n) := by
  intro want env ρ e' t h
  obtain ⟨htest, h⟩ := htest.parted h
  obtain ⟨hr, h⟩ := parted h
  obtain ⟨ha, h⟩ := ha.parted h
  obtain ⟨hb, h⟩ := hb.parted h
  obtain ⟨hsu, h⟩ := parted_equal h
  exact .kept h rfl rfl fun _ hfin => htest (hr (ha (hb (hsu _ hfin))))

theorem settles_compare (ha : Settles a) (hb : Settles b) (op n) :
    Settles (.compare a [op] [b] n) := by
  intro want env ρ e' t h
  obtain ⟨ha, h⟩ := ha.parted h
  cases op with
  | eq | notEq | same =>
    obtain ⟨hb, h⟩ := hb.parted h
    obtain ⟨hsu, h⟩ := parted_equal h
    exact .kept h rfl rfl fun _ hfin => ha (hb (hsu _ hfin))
  | _ =>
    obtain ⟨hs, h⟩ := parted h
    obtain ⟨hb, h⟩ := hb.parted h
    obtain ⟨hu, h⟩ := parted h
    exact .kept h rfl rfl fun _ hfin => ha (hs (hb (hu hfin)))

theorem settles_uncheckedCast (ha : Settles a) (u n) : Settles (.uncheckedCast a u n) := by
  intro want env ρ e' t h
  obtain ⟨ha, h⟩ := ha.parted h
  exact .kept h rfl rfl fun _ => (ha ·)

end Operators

/-! ## Aggregates -/

section Aggregates

variable {es es' : List Expr} {ts : List Ty}

section

variable (hes : ∀ e ∈ es, Settles e)
include hes

theorem exprs_again (h : (checkExprs .lambdas es).run env = .ok ((es', ts), ρ)) :
    (checkExprs .lambdas es').run env = .ok ((es', ts), ρ) := by
  induction es generalizing env es' ts with
  | nil =>
    cases h
    rfl
  | cons e es ih =>
    rw [List.forall_mem_cons] at hes
    obtain ⟨⟨e', t⟩, ρ1, he, h⟩ := checked e h
    obtain ⟨⟨es', ts⟩, ρ2, hes1, h⟩ := bind_ok h
    cases h
    exact run_bind (hes.1 he).self (run_bind (ih hes.2 hes1) rfl)

theorem args_again (h : (checkArgs .lambdas ts es).run env = .ok (es', ρ)) :
    (checkArgs .lambdas ts es').run env = .ok (es', ρ) := by
  induction es generalizing env es' ts with
  | nil =>
    cases ts <;> cases h <;> rfl
  | cons e es ih =>
    rw [List.forall_mem_cons] at hes
    cases ts with
    | nil =>
      cases h
      rfl
    | cons t ts =>
      obtain ⟨⟨e', u⟩, ρ1, he, h⟩ := checked e h
      obtain ⟨es', ρ2, hes1, h⟩ := bind_ok h
      cases h
      exact run_bind (hes.1 he).self (run_bind (ih hes.2 hes1) rfl)

theorem settles_tuple (n) : Settles (.tuple es .load n) := by
  intro want env ρ e' t h
  obtain ⟨⟨es', ts⟩, ρ1, hes1, h⟩ := bind_ok h
  exact .recorded h rfl rfl fun _ hfin => run_bind (exprs_again hes hes1) hfin

theorem settles_list (n) : Settles (.list es .load n) := by
  intro want env ρ e' t h
  obtain ⟨⟨es', ts⟩, ρ1, hes1, h⟩ := bind_ok h
  cases ts with
  | nil => cases h
  | cons u us =>
    obtain ⟨hall, h⟩ := parted h
    exact .recorded h rfl rfl fun _ hfin => run_bind (exprs_again hes hes1) (hall hfin)

theorem settles_closure (a n) : Settles (.closure a es n) := by
  intro want env ρ e' t h
  obtain ⟨⟨es', ts⟩, ρ1, hes1, h⟩ := bind_ok h
  cases ts with
  | nil => cases h
  | cons u us =>
    obtain ⟨hv, h⟩ := parted h
    exact .recorded h rfl rfl fun _ hfin => run_bind (exprs_again hes hes1) (hv hfin)

end

theorem settles_subscript (hb : Settles b) (hi : Settles i) (n) :
    Settles (.subscript b i .load n) := by
  intro want env ρ e' t h
  obtain ⟨⟨b', s⟩, ρ1, hb1, h⟩ := checked b h
  obtain @⟨⟨i', _⟩, _, hi, h⟩ := hi.parted h
  obtain ⟨hu, h⟩ := parted h
  obtain ⟨c, hb'', hsame⟩ := (hb hb1).withType s
  cases s with
  | tuple ts f =>
    cases i' with
    | const k m =>
      obtain ⟨hv, h⟩ := parted h
      obtain ⟨rfl, rfl, rfl, hfits⟩ := finish_ok h
      refine ⟨rfl, rfl, fun o => ⟨_, run_bind hb'' (hi (hu (hv (hfits.run _ _)))), .inr ?_⟩⟩
      rw [hsame]
      rfl
    | _ => cases h
  | list v =>
    obtain ⟨rfl, rfl, rfl, hfits⟩ := finish_ok h
    refine ⟨rfl, rfl, fun o => ⟨_, run_bind hb'' (hi (hu (hfits.run _ _))), .inr ?_⟩⟩
    rw [hsame]
    rfl
  | _ => cases h

end Aggregates

/-! ## Lambdas -/

theorem lambdaParams_ofItems (ts env) :
    (lambdaParams (.ofItems ts)).run env = .ok (.ofItems ts, env) := by
  unfold Params.ofItems
  split
  · rfl
  · split <;> rfl

theorem lambdaParams_again {ps ps'} (h : (lambdaParams ps).run env = .ok (ps', ρ)) :
    (lambdaParams ps').run env = .ok (ps', ρ) := by
  unfold lambdaParams at h
  split at h
  · cases h
    rfl
  · obtain ⟨hdeclared, rfl⟩ := ofExcept_run h
    obtain ⟨ts, -, hdeclared⟩ := ok_of_bind hdeclared
    obtain ⟨xs, -, hdeclared⟩ := ok_of_bind hdeclared
    cases hdeclared
    exact lambdaParams_ofItems xs _
  · next hsignature harguments =>
    cases h
    unfold lambdaParams
    split
    · next qs m => exact (hsignature qs m rfl).elim
    · next f m => exact (harguments f m rfl).elim
    · rfl

theorem settles_lambda {body} (hbody : Settles body) (ps n) : Settles (.lambda ps body n) := by
  intro want env ρ e' t h
  cases want with
  | none => cases h
  | some want =>
    obtain ⟨ps', ρ1, hps, h⟩ := bind_ok h
    have hps' := lambdaParams_again hps
    cases want with
    | function qs r b =>
      obtain ⟨hkeys, h⟩ := parted h
      obtain ⟨htable, h⟩ := parted h
      obtain ⟨⟨body', u⟩, ρ4, hin, h⟩ := bind_ok h
      cases h
      obtain ⟨rfl, Θ, hrun⟩ := inScope_run hin
      exact ⟨rfl, rfl, fun o => ⟨_, run_bind hps' (hkeys
        (htable (run_bind (run_inScope (hbody hrun).self) rfl))), .inl rfl⟩⟩
    | bottom =>
      cases h
      exact ⟨rfl, rfl, fun o => ⟨_, run_bind hps' rfl, .inl rfl⟩⟩
    | _ => cases h

/-! ## Calls -/

section Calls

variable {n : Note}

/-- The rule for calls of functions. -/
def callRule (want : Option Ty) (f : Expr) (args : List Expr) (n : Note) : Check (Expr × Ty) := do
  let (g, t) ← checkExpr .lambdas none f
  match t with
  | .function ps r _ =>
    let args ← checkArgs .lambdas ps args
    finish want (.call g args n, r)
  | t => notCallable t (.call g args n)

theorem checkExpr_callee (hf : IsCallee f) :
    checkExpr .lambdas want (.call f args n) = callRule want f args n := by
  unfold callRule
  delta checkExpr checkArgs
  conv => lhs; whnf
  split
  case h_23 g m _ _ _ _ _ _ _ _ _ _ _ _ _ _ _ _ _ _ _ _ _ _ =>
    rw [hf g rfl]
    rfl
  case h_24 => rfl
  all_goals cases hf _ rfl

theorem settles_callee (hf : Settles f) (hargs : ∀ a ∈ args, Settles a) (hcallee : IsCallee f) :
    Settles (.call f args n) := by
  intro want env ρ e' t h
  rw [checkExpr_callee hcallee] at h
  obtain ⟨⟨g, s⟩, ρ1, hg, h⟩ := bind_ok h
  have hsettled := hf hg
  have hcallee' : IsCallee g := fun x hx => hcallee x (hsettled.name ▸ hx)
  cases s with
  | function ps r b =>
    obtain ⟨args', ρ2, hargs1, h⟩ := bind_ok h
    obtain ⟨rfl, rfl, rfl, hfits⟩ := finish_ok h
    refine ⟨rfl, rfl, fun o => ⟨_, ?_, .inr rfl⟩⟩
    refine (congrArg (StateT.run · env) (checkExpr_callee hcallee')).trans ?_
    exact run_bind hsettled.self (run_bind (args_again hargs hargs1) (hfits.run _ _))
  | _ => cases h

section Operations

variable {a i v : Expr} (m : Note)

variable (ha : Settles a)
include ha

theorem settles_len : Settles (.call (.name "len" m) [a] n) := by
  intro want env ρ e' t h
  obtain ⟨⟨a', s⟩, ρ1, ha1, h⟩ := checked a h
  obtain ⟨hu, h⟩ := parted h
  obtain ⟨rfl, rfl, rfl, hfits⟩ := finish_ok h
  obtain ⟨a'', ha'', hsame⟩ := (ha ha1).withType s
  refine ⟨rfl, rfl, fun o => ⟨_, run_bind ha'' (hu (hfits.run _ _)), .inr ?_⟩⟩
  rw [hsame]
  rfl

theorem settles_arrayLen : Settles (.call (.name "array_len" m) [a] n) := by
  intro want env ρ e' t h
  obtain ⟨⟨a', s⟩, ρ1, ha1, h⟩ := checked a h
  obtain ⟨a'', ha'', hsame⟩ := (ha ha1).withType s
  cases s with
  | list | bottom =>
    obtain ⟨rfl, rfl, rfl, hfits⟩ := finish_ok h
    refine ⟨rfl, rfl, fun o => ⟨_, run_bind ha'' (hfits.run _ _), .inr ?_⟩⟩
    rw [hsame]
    rfl
  | _ => cases h

theorem settles_arrayLoad (hi : Settles i) : Settles (.call (.name "array_load" m) [a, i] n) := by
  intro want env ρ e' t h
  obtain @⟨⟨_, s⟩, _, ha, h⟩ := ha.parted h
  obtain ⟨hi, h⟩ := hi.parted h
  obtain ⟨hu, h⟩ := parted h
  cases s with
  | list w =>
    exact .kept h rfl rfl fun _ hfin => ha (hi (hu hfin))
  | _ => cases h

theorem settles_arrayStore (hi : Settles i) (hv : Settles v) :
    Settles (.call (.name "array_store" m) [a, i, v] n) := by
  intro want env ρ e' t h
  obtain @⟨⟨_, s⟩, _, ha, h⟩ := ha.parted h
  obtain @⟨⟨_, w⟩, _, hv, h⟩ := hv.parted h
  obtain ⟨hi, h⟩ := hi.parted h
  obtain ⟨hu, h⟩ := parted h
  cases s with
  | list w' =>
    obtain ⟨hw, h⟩ := parted_equal h
    exact .kept h rfl rfl fun _ hfin => ha (hv (hi (hu (hw _ hfin))))
  | bottom =>
    exact .kept h rfl rfl fun _ hfin => ha (hv (hi (hu hfin)))
  | _ => cases h

theorem settles_arity : Settles (.call (.name "arity" m) [a] n) := by
  intro want env ρ e' t h
  obtain @⟨⟨_, s⟩, _, ha, h⟩ := ha.parted h
  cases s with
  | function | tuple =>
    exact .kept h rfl rfl fun _ => (ha ·)
  | _ => cases h

end Operations

theorem settles_call (hf : Settles f) (hargs : ∀ a ∈ args, Settles a) :
    Settles (.call f args n) := by
  intro want env ρ e' t h
  cases callForm_of_ok (.inr rfl) h with
  | input m => exact settles_plain (fun _ _ => rfl) h
  | len m a => exact settles_len m (hargs a (by simp)) h
  | arrayLen m a => exact settles_arrayLen m (hargs a (by simp)) h
  | arrayLoad m a i => exact settles_arrayLoad m (hargs a (by simp)) (hargs i (by simp)) h
  | arrayStore m a i v =>
    exact settles_arrayStore m (hargs a (by simp)) (hargs i (by simp)) (hargs v (by simp)) h
  | arity m a => exact settles_arity m (hargs a (by simp)) h
  | function hcallee => exact settles_callee hf hargs hcallee h

end Calls

end Lambdas

end CompilerKit
