import CompilerKit.Proofs.Gradual.Hints
import CompilerKit.Proofs.Vars.Typed

/-!
# Expressions under less precise types

An expression that is accepted under a table of types is accepted under a less precise one, and has
a less precise type there. This needs that nothing is left out: the checker looks only at as many
arguments of a call as there are types of parameters, and joins types only as far as both have
parts.

* `Loosens.bind`: rules that are made of parts under less precise tables.
* `gradualExpr_loosens`: all expressions, by recursion; a lambda has the type that is expected of
  it.
-/

namespace CompilerKit.Gradual

open Check List Bool
open Ty (Ordinary Vague Vagues)

/-! ## Expressions in which nothing is left out -/

/-- The type of an expression that is accepted. -/
def typeOf? (env : TypeTable) (e : Expr) : Option Ty :=
  match (gradualExpr none e).run env with
  | .ok ((_, t), _) => some t
  | .error _ => none

/-- The types of expressions that are accepted. -/
def typesOf? (env : TypeTable) (es : List Expr) : Option (List Ty) :=
  match (gradualExprs es).run env with
  | .ok ((_, ts), _) => some ts
  | .error _ => none

/-- Types can be joined one after the other, with all their parts. -/
def joinable : Ty → List Ty → Bool
  | _, [] => true
  | t, u :: us => t.fits u && joinable (t.join u) us

/-- The parameters are names. -/
def areNames : Params → Bool
  | .signature _ _ | .names _ => true
  | _ => false

mutual

/-- No argument and no part of a type is left out, and the parameters of lambdas are names. -/
def exactExpr (env : TypeTable) : Expr → Bool
  | .arith l _ r _ => exactExpr env l && exactExpr env r
  | .unary _ a _ => exactExpr env a
  | .logic _ es _ => exactExprs env es
  | .cond test yes no _ => exactExpr env test && exactExpr env yes && exactExpr env no &&
    (typeOf? env yes).all fun t => (typeOf? env no).all fun u => t.fits u
  | .compare l _ rs _ => exactExpr env l && exactExprs env rs
  | .tuple es _ _ => exactExprs env es
  | .list es _ _ => exactExprs env es && (typesOf? env es).all fun ts => match ts with
    | [] => true
    | t :: ts => joinable t (t :: ts)
  | .subscript b i _ _ => exactExpr env b && exactExpr env i
  | .call f args _ => exactExpr env f && exactExprs env args &&
    (typeOf? env f).all fun t => match t with
      | .function ps _ _ => args.length ≤ ps.length
      | _ => true
  | .lambda ps _ _ => areNames ps
  | _ => true

def exactExprs (env : TypeTable) : List Expr → Bool
  | [] => true
  | e :: es => exactExpr env e && exactExprs env es

end

/-! ## Computations -/

/-- Whatever the first computation accepts in its table, without changing it, the second accepts in
its own. -/
def Loosens (env env' : TypeTable) {α β : Type} (x : Check α) (y : Check β) (R : α → β → Prop) :
    Prop :=
  ∀ a ρ, x.run env = .ok (a, ρ) → ρ = env ∧ ∃ b, y.run env' = .ok (b, env') ∧ R a b

section

variable {α β γ δ : Type}
variable {S : γ → δ → Prop} {R : α → β → Prop}

namespace Loosens

theorem pure (h : R a b) : Loosens env env' (Pure.pure a) (Pure.pure b) R := by
  rintro _ _ ⟨⟩
  exact ⟨rfl, b, rfl, h⟩

theorem refuse (e) : Loosens env env' (refuse e) y R := fun _ _ h => by cases h

theorem bind {f : α → Check γ} {g : β → Check δ} (hxy : Loosens env env' x y R)
    (hfg : ∀ a b, x.run env = .ok (a, env) → R a b → Loosens env env' (f a) (g b) S) :
    Loosens env env' (x >>= f) (y >>= g) S := by
  intro c ρ h
  obtain ⟨a, σ, hx, hf⟩ := bind_ok h
  obtain ⟨rfl, b, hy, hab⟩ := hxy a σ hx
  obtain ⟨rfl, d, hg, hcd⟩ := hfg a b hx hab c ρ hf
  exact ⟨rfl, d, of_bind_ok hy hg, hcd⟩

end Loosens

theorem loosens_consistent (hs : Vague s s') (ht : Vague t t') (p p') :
    Loosens env env' (requireConsistent s t p) (requireConsistent s' t' p') fun _ _ => True := by
  unfold requireConsistent
  by_cases h : s.consistent t
  · rw [if_pos h, if_pos (hs.consistent ht h)]
    exact .pure trivial
  · rw [if_neg h]
    exact .refuse _

theorem loosens_find? (henv : Blurred env env') (x) :
    Loosens env env' (find? x) (find? x) (Option.Rel Vague) := by
  rintro _ _ ⟨⟩
  exact ⟨rfl, _, rfl, henv.get? x⟩

theorem loosens_lookup (henv : Blurred env env') (x) :
    Loosens env env' (lookup x) (lookup x) Vague := by
  refine (loosens_find? henv x).bind fun o o' _ ho => ?_
  cases ho with
  | none => exact .refuse _
  | some ht => exact .pure ht

theorem loosens_typeAt (hts : Vagues ts ts') (i) :
    Loosens env env' (typeAt ts i) (typeAt ts' i) Vague := by
  unfold typeAt
  rw [hts.length_eq]
  generalize (if 0 ≤ i then i else i + ts.length) = p
  dsimp only
  split
  · cases hi : ts[p.toNat]? with
    | none => exact .refuse _
    | some t =>
      obtain ⟨t', hi', ht⟩ := hts.getElem? hi
      rw [hi']
      exact .pure ht
  · exact .refuse _

theorem loosens_typeAtValue (hts : Vagues ts ts') (k) :
    Loosens env env' (typeAtValue ts k) (typeAtValue ts' k) Vague := by
  unfold typeAtValue
  split
  · exact loosens_typeAt hts _
  · exact loosens_typeAt hts _
  · exact .refuse _

/-! ## Results -/

/-- The value of an expression that is a constant. -/
def constant? : Expr → Option Value
  | .const k _ => some k
  | _ => none

/-- The results of checking one expression in two tables. -/
structure Agrees (r r' : Expr × Ty) : Prop where
  type : Vague r.2 r'.2
  constant : constant? r'.1 = constant? r.1

/-- The second check wants less than the first. -/
inductive Wants : Option Ty → Option Ty → Prop where
  | nothing : Wants none none
  | drop (ht : Ordinary t) : Wants (some t) none
  | type (ht : Vague t t') : Wants (some t) (some t')

/-- The last step of checking an expression. -/
def settle (want : Option Ty) (r : Expr × Ty) : Check (Expr × Ty) := do
  match want with
  | none => pure ()
  | some t => requireConsistent r.2 t (.expr r.1)
  pure r

theorem loosens_settle (hw : Wants want want') (hr : Agrees r r') :
    Loosens env env' (settle want r) (settle want' r') Agrees := by
  cases hw with
  | nothing => exact .pure hr
  | drop ht =>
    intro a ρ h
    obtain ⟨u, σ, hrequire, h⟩ := bind_ok h
    cases h
    unfold requireConsistent at hrequire
    split at hrequire
    · cases hrequire
      exact ⟨rfl, r', rfl, hr⟩
    · cases hrequire
  | type ht => exact (loosens_consistent hr.type ht _ _).bind fun _ _ _ _ => .pure hr

/-- The expression is accepted in the second table if it is accepted in the first. -/
def LoosensExpr (env env' : TypeTable) (e : Expr) : Prop :=
  ∀ want want', Wants want want' →
    Loosens env env' (gradualExpr want e) (gradualExpr want' e) Agrees

/-! ## Lambdas -/

/-- A lambda can have the type. -/
def isCallable : Ty → Bool
  | .function _ _ _ | .any => true
  | _ => false

/-- The names that parameters bind. -/
def boundNames : Params → List String
  | .signature qs _ => qs.map Param.name
  | .names xs => xs
  | _ => []

theorem lambdaParams_of_areNames {ps : Params} (hps : areNames ps) :
    lambdaParams ps = pure (.names (boundNames ps)) := by
  cases ps with
  | signature | names => rfl
  | _ => cases hps

theorem run_scope {es} (h : es = written table) (a env) :
    (ofExcept (scope es) >>= fun _ => pure a : Check α).run env = .ok (a, env) := by
  rw [h, scope_written]
  rfl

/-- A lambda whose parameters are names is accepted exactly at the types of functions. -/
theorem run_gradualLambda {want} (hwant : Ordinary want) (hps : areNames ps) {s}
    (hs : Expr.text #[] baseIndent (.lambda ps body n) = .ok s) (env) :
    if isCallable want then
      ∃ qs m, (gradualLambda want ps body n).run env = .ok (.lambda qs body m, env)
    else ∃ e, (gradualLambda want ps body n).run env = .error e := by
  have hxs := lambdaParams_of_areNames hps
  generalize boundNames ps = xs at hxs
  have hany : (xs.map Term.str).map (fun k => (k, Ty.any)) =
      written (xs.map fun x => (x, .any)) := by
    rw [written, map_map, map_map]
    rfl
  obtain ⟨u, hu⟩ := hwant.text_ok baseIndent
  have htext : want.text = .ok u := hu
  unfold gradualLambda
  rw [hs, htext, hxs]
  cases hwant with
  | any => exact ⟨_, _, run_scope hany _ env⟩
  | function _ _ => exact ⟨_, _, run_scope (zip_map_left ..) _ env⟩
  | _ => exact ⟨_, rfl⟩

/-- Against the type of a function and against the unknown type, a lambda is accepted whatever its
body is. The type system of lambdas accepts a lambda if it accepts the body, and only then. -/
theorem lambda_body_unread (ps : Params) (hps : areNames ps = true) (body : Expr) (n : Note)
    {s : String} (hs : Expr.text #[] baseIndent (.lambda ps body n) = .ok s) {qs : List Ty} {r : Ty}
    (hwant : Ordinary (.function qs r)) (env : TypeTable) :
    (∀ want, want = .function qs r ∨ want = .any → ∃ ps' m,
      (gradualExpr (some want) (.lambda ps body n)).run env =
        .ok ((.lambda ps' body m, .any), env)) ∧
    ((checkExpr .lambdas (some (.function qs r)) (.lambda ps body n)).run env).isOk =
      ((checkExpr .lambdas (some r) body).run
        (Bindings.putAll env ((boundNames ps).zip qs))).isOk := by
  constructor
  · intro want hw
    have hcallable : Ordinary want ∧ isCallable want := by
      rcases hw with rfl | rfl
      · exact ⟨hwant, rfl⟩
      · exact ⟨.any, rfl⟩
    have hrun := run_gradualLambda hcallable.1 hps hs env
    rw [if_pos hcallable.2] at hrun
    obtain ⟨ps', m, hrun⟩ := hrun
    exact ⟨ps', m, of_bind_ok hrun rfl⟩
  · have hlambda : checkExpr .lambdas (some (.function qs r)) (.lambda ps body n) = (do
        let ps' ← lambdaParams ps
        let table ← ofExcept (scope ((← ofExcept ps'.keys).zip qs))
        let p ← inScope table (checkExpr .lambdas (some r) body)
        let m := { n with type := some (.function qs r) }
        pure (.lambda ps' p.1 m, .function qs r)) := rfl
    rw [hlambda, lambdaParams_of_areNames hps]
    generalize boundNames ps = xs
    have hkeys : Check.ofExcept (Params.keys (.names xs)) = pure (xs.map Term.str) := rfl
    rw [pure_bind, hkeys, pure_bind, zip_map_left]
    change ((ofExcept (scope (written (xs.zip qs))) >>= _).run env).isOk = _
    rw [scope_written]
    generalize checkExpr .lambdas (some r) body = x
    cases h : x.run (Bindings.putAll env (xs.zip qs)) <;>
      simp [inScope, Check.ofExcept, h, Except.isOk, Except.toBool]

/-- The body adds a number to a truth value. -/
theorem lambda_body_unread_mixed :
    let body : Expr := .arith (.const (.bool true) {}) .add (.const (.int 1 0) {}) {}
    (∃ ps m, (gradualExpr (some (.function [.int] .int)) (.lambda (.names ["x"]) body {})).run [] =
      .ok ((.lambda ps body m, .any), [])) ∧
    ((gradualExpr (some .int) body).run [("x", .int)]).isOk = false ∧
    ((checkExpr .lambdas (some (.function [.int] .int)) (.lambda (.names ["x"]) body {})).run
      []).isOk = false := by
  intro body
  have hwant : Ordinary (.function [.int] .int) := .function (by simp [Ordinary.int]) .int
  obtain ⟨haccepts, hsame⟩ := lambda_body_unread (.names ["x"]) rfl body {} rfl hwant []
  exact ⟨haccepts _ (.inl rfl), rfl, hsame.trans rfl⟩

theorem isCallable_mono (h : Vague s t) (hs : isCallable s) : isCallable t := by
  cases h with
  | any _ => rfl
  | function _ _ => rfl
  | _ => cases hs

theorem loosens_gradualLambda (hwant : Vague want want') (hps : areNames ps) :
    Loosens env env' (gradualLambda want ps body n) (gradualLambda want' ps body n)
      fun e e' => constant? e' = constant? e := by
  intro e ρ h
  cases hs : Expr.text #[] baseIndent (.lambda ps body n) with
  | error m =>
    unfold gradualLambda at h
    rw [hs] at h
    cases h
  | ok s =>
    have hrun := run_gradualLambda hwant.left hps hs env
    have hrun' := run_gradualLambda hwant.right hps hs env'
    by_cases hcallable : isCallable want
    · rw [if_pos hcallable] at hrun
      rw [if_pos (isCallable_mono hwant hcallable)] at hrun'
      obtain ⟨qs, m, hrun⟩ := hrun
      obtain ⟨qs', m', hrun'⟩ := hrun'
      cases hrun.symm.trans h
      exact ⟨rfl, _, hrun', rfl⟩
    · rw [if_neg hcallable] at hrun
      obtain ⟨f, hrun⟩ := hrun
      cases hrun.symm.trans h

theorem loosens_lambda (hps : areNames ps) (body n) : LoosensExpr env env' (.lambda ps body n) := by
  intro want want' hw
  have hwant : Vague (want.getD .any) (want'.getD .any) := by
    cases hw with
    | nothing => exact .any .any
    | drop ht => exact .any ht
    | type ht => exact ht
  exact (loosens_gradualLambda hwant hps).bind fun e e' _ he => .pure ⟨.any .any, he⟩

/-! ## Operators and subscripts -/

section

theorem LoosensExpr.bind (ha : LoosensExpr env env' a) {f g : Expr × Ty → Check γ}
    {S : γ → γ → Prop}
    (hfg : ∀ d t d' t', typeOf? env a = some t → Agrees (d, t) (d', t') →
      Loosens env env' (f (d, t)) (g (d', t')) S) :
    Loosens env env' (gradualExpr none a >>= f) (gradualExpr none a >>= g) S :=
  Loosens.bind (ha _ _ .nothing) fun _ _ hrun h => hfg _ _ _ _ (by rw [typeOf?, hrun]) h

theorem Loosens.require (hs : Vague s s') (ht : Vague t t') {f g : Unit → Check γ}
    {S : γ → γ → Prop} (hfg : Loosens env env' (f ()) (g ()) S) :
    Loosens env env' (requireConsistent s t p >>= f) (requireConsistent s' t' p' >>= g) S :=
  (loosens_consistent hs ht p p').bind fun _ _ _ _ => hfg

theorem Loosens.ite {c : Prop} [Decidable c] {y x' y'} (hx : Loosens env env' x x' R)
    (hy : Loosens env env' y y' R) :
    Loosens env env' (if c then x else y) (if c then x' else y') R := by
  split
  · exact hx
  · exact hy

theorem Loosens.after {f : α → Check γ} (hx : Loosens env env' x y R)
    (hf : ∀ a b, R a b → Loosens env env' (f a) z S) : Loosens env env' (x >>= f) z S := by
  intro c ρ h
  obtain ⟨a, σ, hx', hf'⟩ := bind_ok h
  obtain ⟨rfl, b, -, hab⟩ := hx a σ hx'
  exact hf a b hab c ρ hf'

theorem loosens_cond (htest : LoosensExpr env env' test)
    (hyes : LoosensExpr env env' yes) (hno : LoosensExpr env env' no)
    (hfits : ∀ t u, typeOf? env yes = some t → typeOf? env no = some u → t.fits u) (n) :
    LoosensExpr env env' (.cond test yes no n) := by
  intro want want' hw
  refine htest.bind fun _ _ _ _ _ htest => .require htest.type .bool ?_
  refine hyes.bind fun _ _ _ _ ht hyes => hno.bind fun _ _ _ _ hu hno => ?_
  refine .require hyes.type hno.type ?_
  exact loosens_settle hw ⟨hyes.type.join hno.type (hfits _ _ ht hu), rfl⟩

variable (ha : LoosensExpr env env' a)
include ha

theorem loosens_unary (op n) : LoosensExpr env env' (.unary op a n) := by
  intro want want' hw
  cases op with
  | neg =>
    refine ha.bind fun _ _ _ _ _ ha => .require ha.type .int ?_
    exact loosens_settle hw ⟨.int, rfl⟩
  | not =>
    refine ha.bind fun _ _ _ _ _ ha => .require ha.type .bool ?_
    exact loosens_settle hw ⟨.bool, rfl⟩
  | _ => exact .refuse _

variable (hb : LoosensExpr env env' b)
include hb

theorem loosens_arith (op n) : LoosensExpr env env' (.arith a op b n) := by
  intro want want' hw
  refine Loosens.ite ?_ (.refuse _)
  refine ha.bind fun _ _ _ _ _ ha => .require ha.type .int ?_
  refine hb.bind fun _ _ _ _ _ hb => .require hb.type .int ?_
  exact loosens_settle hw ⟨.int, rfl⟩

theorem loosens_logic (op more n) : LoosensExpr env env' (.logic op (a :: b :: more) n) := by
  intro want want' hw
  refine ha.bind fun _ _ _ _ _ ha => .require ha.type .bool ?_
  refine hb.bind fun _ _ _ _ _ hb => .require hb.type .bool ?_
  exact loosens_settle hw ⟨.bool, rfl⟩

theorem loosens_compare (op n) : LoosensExpr env env' (.compare a [op] [b] n) := by
  intro want want' hw
  cases op with
  | eq | notEq | same =>
    refine ha.bind fun _ _ _ _ _ ha => hb.bind fun _ _ _ _ _ hb => .require ha.type hb.type ?_
    exact loosens_settle hw ⟨.bool, rfl⟩
  | lt | le | gt | ge =>
    refine ha.bind fun _ _ _ _ _ ha => .require ha.type .int ?_
    refine hb.bind fun _ _ _ _ _ hb => .require hb.type .int ?_
    exact loosens_settle hw ⟨.bool, rfl⟩
  | _ => exact .refuse _

theorem loosens_subscript (n) : LoosensExpr env env' (.subscript a b .load n) := by
  intro want want' hw
  refine ha.bind fun d s d' s' _ ha => ?_
  obtain ⟨htype, -⟩ := ha
  dsimp only at htype ⊢
  split
  · rename_i k hk
    cases htype with
    | tuple h =>
      refine (loosens_typeAtValue h k).bind fun _ _ _ ht => ?_
      exact loosens_settle hw ⟨ht, rfl⟩
    | list h => exact loosens_settle hw ⟨h, rfl⟩
    | any h =>
      cases h with
      | tuple h =>
        refine (loosens_typeAtValue (.refl fun t ht => (h t ht).vague) k).after fun _ _ ht => ?_
        exact loosens_settle hw ⟨.any ht.left, rfl⟩
      | list h => exact loosens_settle hw ⟨.any h, rfl⟩
      | any => exact loosens_settle hw ⟨.any .any, rfl⟩
      | _ => exact .refuse _
    | _ => exact .refuse _
  · refine hb.bind fun _ _ _ _ _ hb => .require hb.type .int ?_
    cases htype with
    | tuple h => exact loosens_settle hw ⟨.any .any, rfl⟩
    | list h => exact loosens_settle hw ⟨h, rfl⟩
    | any h =>
      cases h with
      | list h => exact loosens_settle hw ⟨.any h, rfl⟩
      | tuple | any => exact loosens_settle hw ⟨.any .any, rfl⟩
      | _ => exact .refuse _
    | _ => exact .refuse _

end

/-! ## Tuples and lists -/

/-- The results of checking the same expressions in two tables. -/
structure Agree (r r' : List Expr × List Ty) : Prop where
  types : Vagues r.2 r'.2
  length : r'.1.length = r.1.length

theorem loosens_joinItems (hlen : es'.length = es.length) (ht : Vague t t')
    (hts : Vagues ts ts') (hjoin : joinable t ts) :
    Loosens env env' (joinItems (ts.zip es) t) (joinItems (ts'.zip es') t') Vague := by
  induction ts generalizing t t' ts' es es' with
  | nil =>
    cases hts
    exact .pure ht
  | cons u us ih =>
    cases hts with
    | cons hu hus =>
      cases es with
      | nil =>
        obtain rfl := length_eq_zero_iff.mp hlen
        exact .pure ht
      | cons e es =>
        obtain ⟨e', es', rfl⟩ := exists_cons_of_length_eq_add_one hlen
        obtain ⟨hfits, hjoin⟩ := and_eq_true_iff.mp hjoin
        unfold joinItems
        rw [zip_cons_cons, zip_cons_cons, foldlM_cons, foldlM_cons, bind_assoc, bind_assoc]
        refine .require ht hu ?_
        exact ih (Nat.succ.inj hlen) (ht.join hu hfits) hus hjoin

section

variable {es : List Expr} (hes : ∀ e ∈ es, LoosensExpr env env' e)
include hes

theorem loosens_exprs :
    Loosens env env' (gradualExprs es) (gradualExprs es) Agree := by
  induction es with
  | nil => exact .pure ⟨.nil, rfl⟩
  | cons e es ih =>
    rw [forall_mem_cons] at hes
    refine hes.1.bind fun _ _ _ _ _ he => (ih hes.2).bind fun _ _ _ hrest => ?_
    exact .pure ⟨.cons he.type hrest.types, congrArg (· + 1) hrest.length⟩

theorem loosens_tuple (n) :
    LoosensExpr env env' (.tuple es .load n) := by
  intro want want' hw
  refine (loosens_exprs hes).bind fun _ _ _ h => ?_
  exact loosens_settle hw ⟨.tuple h.types, rfl⟩

theorem loosens_list
    (hjoin : ∀ t ts, typesOf? env es = some (t :: ts) → joinable t (t :: ts)) (n) :
    LoosensExpr env env' (.list es .load n) := by
  intro want want' hw
  refine (loosens_exprs hes).bind ?_
  rintro ⟨ds, ts⟩ ⟨ds', ts'⟩ hrun ⟨htypes, hlen⟩
  cases htypes with
  | nil => exact .refuse _
  | cons ht hts =>
    have hjoin := hjoin _ _ (by rw [typesOf?, hrun])
    refine (loosens_joinItems hlen ht (.cons ht hts) hjoin).bind fun _ _ _ hu => ?_
    exact loosens_settle hw ⟨.list hu, rfl⟩

theorem loosens_args (hts : Vagues ts ts') :
    Loosens env env' (gradualArgs ts es) (gradualArgs ts' es) fun _ _ => True := by
  induction es generalizing ts ts' with
  | nil => cases hts <;> exact .pure trivial
  | cons e es ih =>
    rw [forall_mem_cons] at hes
    cases hts with
    | nil => exact .pure trivial
    | cons ht hts =>
      refine (hes.1 _ _ (.type ht)).bind fun _ _ _ _ => ?_
      exact (ih hes.2 hts).bind fun _ _ _ _ => .pure trivial

/-- All arguments are checked where the function has an unknown type. -/
theorem loosens_args_exprs (hts : ∀ t ∈ ts, Ordinary t) (hlen : es.length ≤ ts.length) :
    Loosens env env' (gradualArgs ts es) (gradualExprs es) fun _ _ => True := by
  induction es generalizing ts with
  | nil => cases ts <;> exact .pure trivial
  | cons e es ih =>
    cases ts with
    | nil => cases hlen
    | cons t ts =>
      rw [forall_mem_cons] at hes hts
      refine (hes.1 _ _ (.drop hts.1)).bind fun _ _ _ _ => ?_
      exact (ih hes.2 hts.2 (Nat.le_of_succ_le_succ hlen)).bind fun _ _ _ _ => .pure trivial

end

/-! ## Calls -/

section

variable (k n : Note) (ha : LoosensExpr env env' a)
include ha

/-- The rules for sizes refuse other types of the operand than they know. -/
theorem loosens_size (hx : x = "len" ∨ x = "array_len" ∨ x = "arity") :
    LoosensExpr env env' (.call (.name x k) [a] n) := by
  intro want want' hw
  rcases hx with rfl | rfl | rfl
  all_goals
    refine ha.bind fun _ _ _ _ _ ha => ?_
    obtain ⟨htype, -⟩ := ha
    cases htype with
    | any h => cases h <;> first | exact loosens_settle hw ⟨.int, rfl⟩ | exact .refuse _
    | _ => first | exact loosens_settle hw ⟨.int, rfl⟩ | exact .refuse _

theorem loosens_any_len : LoosensExpr env env' (.call (.name "any_len" k) [a] n) := by
  intro want want' hw
  refine (ha _ _ (.type (.any .any))).bind fun _ _ _ _ => ?_
  exact loosens_settle hw ⟨.int, rfl⟩

variable (hi : LoosensExpr env env' i)
include hi

theorem loosens_array_load : LoosensExpr env env' (.call (.name "array_load" k) [a, i] n) := by
  intro want want' hw
  refine ha.bind fun _ _ _ _ _ ha => ?_
  refine hi.bind fun _ _ _ _ _ hi => .require hi.type .int ?_
  obtain ⟨htype, -⟩ := ha
  cases htype with
  | list h => exact loosens_settle hw ⟨h, rfl⟩
  | any h =>
    cases h with
    | list h => exact loosens_settle hw ⟨.any h, rfl⟩
    | any => exact loosens_settle hw ⟨.any .any, rfl⟩
    | _ => exact .refuse _
  | _ => exact .refuse _

theorem loosens_any_load : LoosensExpr env env' (.call (.name "any_load" k) [a, i] n) := by
  intro want want' hw
  refine (ha _ _ (.type (.any .any))).bind fun _ _ _ _ => ?_
  refine (hi _ _ (.type .int)).bind fun _ _ _ _ => ?_
  exact loosens_settle hw ⟨.any .any, rfl⟩

variable (hv : LoosensExpr env env' v)
include hv

theorem loosens_array_store :
    LoosensExpr env env' (.call (.name "array_store" k) [a, i, v] n) := by
  intro want want' hw
  refine ha.bind fun _ _ _ _ _ ha => hv.bind fun _ _ _ _ _ hv => ?_
  refine hi.bind fun _ _ _ _ _ hi => .require hi.type .int ?_
  obtain ⟨htype, -⟩ := ha
  cases htype with
  | list h => exact .require h hv.type (loosens_settle hw ⟨.void, rfl⟩)
  | any h =>
    cases h with
    | list h =>
      refine (loosens_consistent h.vague hv.type _ (.expr v)).after fun _ _ _ => ?_
      exact loosens_settle hw ⟨.void, rfl⟩
    | any => exact loosens_settle hw ⟨.void, rfl⟩
    | _ => exact .refuse _
  | _ => exact .refuse _

theorem loosens_any_store : LoosensExpr env env' (.call (.name "any_store" k) [a, i, v] n) := by
  intro want want' hw
  refine (ha _ _ (.type (.any .any))).bind fun _ _ _ _ => hv.bind fun _ _ _ _ _ _ => ?_
  refine (hi _ _ (.type .int)).bind fun _ _ _ _ => ?_
  exact loosens_settle hw ⟨.void, rfl⟩

end

/-- The call is checked by a rule of its own. -/
def isPrimitive : Expr → List Expr → Bool
  | .name "input_int" _, [] | .name "len" _, [_] | .name "array_len" _, [_]
  | .name "array_load" _, [_, _] | .name "array_store" _, [_, _, _] | .name "arity" _, [_]
  | .name "any_load" _, [_, _] | .name "any_store" _, [_, _, _] | .name "any_len" _, [_] => true
  | _, _ => false

/-- Check a call by the type of the function. -/
def gradualCall (want : Option Ty) (f : Expr) (args : List Expr) (n : Note) :
    Check (Expr × Ty) := do
  let (g, t) ← gradualExpr none f
  match t with
  | .function ps r _ => do
    let args ← gradualArgs ps args
    settle want (.call g args n, r)
  | .any => do
    let (args, _) ← gradualExprs args
    settle want (.call g args n, .any)
  | t => refuse (.unusable "type_check_exp: in call, unexpected " t)

theorem gradualExpr_call (h : isPrimitive f args = false) (want n) :
    gradualExpr want (.call f args n) = gradualCall want f args n := by
  unfold gradualCall
  delta gradualExpr gradualArgs gradualExprs
  conv => lhs; whnf
  split
  all_goals first | rfl | cases h

section

variable {args : List Expr} (hf : LoosensExpr env env' f)
  (hargs : ∀ a ∈ args, LoosensExpr env env' a)
  (hlen : ∀ ps r b, typeOf? env f = some (.function ps r b) → args.length ≤ ps.length)
include hf hargs hlen

theorem loosens_gradualCall (hw : Wants want want') (n) :
    Loosens env env' (gradualCall want f args n) (gradualCall want' f args n) Agrees := by
  refine hf.bind fun d s d' s' hs hf => ?_
  obtain ⟨htype, -⟩ := hf
  cases htype with
  | function hps hr =>
    refine (loosens_args hargs hps).bind fun _ _ _ _ => ?_
    exact loosens_settle hw ⟨hr, rfl⟩
  | any h =>
    cases h with
    | function hps hr =>
      refine (loosens_args_exprs hargs hps (hlen _ _ _ hs)).bind fun _ _ _ _ => ?_
      exact loosens_settle hw ⟨.any hr, rfl⟩
    | any =>
      refine (loosens_exprs hargs).bind fun _ _ _ _ => ?_
      exact loosens_settle hw ⟨.any .any, rfl⟩
    | _ => exact .refuse _
  | _ => exact .refuse _

theorem loosens_call (n) : LoosensExpr env env' (.call f args n) := by
  cases hprim : isPrimitive f args with
  | false =>
    intro want want' hw
    rw [gradualExpr_call hprim, gradualExpr_call hprim]
    exact loosens_gradualCall hf hargs hlen hw n
  | true =>
    unfold isPrimitive at hprim
    split at hprim
    · exact fun _ _ hw => loosens_settle hw ⟨.int, rfl⟩
    · exact loosens_size _ _ (hargs _ (.head _)) (.inl rfl)
    · exact loosens_size _ _ (hargs _ (.head _)) (.inr (.inl rfl))
    · exact loosens_array_load _ _ (hargs _ (.head _)) (hargs _ (.tail _ (.head _)))
    · exact loosens_array_store _ _ (hargs _ (.head _)) (hargs _ (.tail _ (.head _)))
        (hargs _ (.tail _ (.tail _ (.head _))))
    · exact loosens_size _ _ (hargs _ (.head _)) (.inr (.inr rfl))
    · exact loosens_any_load _ _ (hargs _ (.head _)) (hargs _ (.tail _ (.head _)))
    · exact loosens_any_store _ _ (hargs _ (.head _)) (hargs _ (.tail _ (.head _)))
        (hargs _ (.tail _ (.tail _ (.head _))))
    · exact loosens_any_len _ _ (hargs _ (.head _))
    · cases hprim

end

/-! ## All expressions -/

mutual

theorem gradualExpr_loosens (henv : Blurred env env') {e} (h : exactExpr env e) :
    LoosensExpr env env' e := by
  cases e with
  | const k n =>
    intro want want' hw
    cases k with
    | bool _ => exact loosens_settle hw ⟨.bool, rfl⟩
    | none => exact loosens_settle hw ⟨.void, rfl⟩
    | int _ _ => exact loosens_settle hw ⟨.int, rfl⟩
    | _ => exact .refuse _
  | name x n | funRef x k n =>
    intro want want' hw
    exact (loosens_lookup henv x).bind fun _ _ _ ht => loosens_settle hw ⟨ht, rfl⟩
  | lambda ps body n => exact loosens_lambda h body n
  | arith l op r n =>
    obtain ⟨hl, hr⟩ := and_eq_true_iff.mp h
    exact loosens_arith (gradualExpr_loosens henv hl) (gradualExpr_loosens henv hr) op n
  | unary op a n =>
    have ha : exactExpr env a := h
    exact loosens_unary (gradualExpr_loosens henv ha) op n
  | logic op es n =>
    have hes := gradualExprs_loosens henv h
    rcases es with _ | ⟨a, _ | ⟨b, es⟩⟩
    · exact fun _ _ _ => .refuse _
    · exact fun _ _ _ => .refuse _
    · exact loosens_logic (hes _ (.head _)) (hes _ (.tail _ (.head _))) op es n
  | cond test yes no n =>
    simp only [exactExpr, and_eq_true_iff] at h
    obtain ⟨⟨⟨htest, hyes⟩, hno⟩, hfits⟩ := h
    refine loosens_cond (gradualExpr_loosens henv htest) (gradualExpr_loosens henv hyes)
      (gradualExpr_loosens henv hno) (fun t u ht hu => ?_) n
    rwa [ht, hu] at hfits
  | compare l ops rs n =>
    obtain ⟨hl, hrs⟩ := and_eq_true_iff.mp h
    have hrs := gradualExprs_loosens henv hrs
    rcases ops with _ | ⟨op, _ | _⟩ <;> rcases rs with _ | ⟨r, _ | _⟩ <;> first
      | exact loosens_compare (gradualExpr_loosens henv hl) (hrs _ (.head _)) op n
      | exact fun _ _ _ => .refuse _
  | tuple es access n =>
    have hes := gradualExprs_loosens henv h
    cases access with
    | load => exact loosens_tuple hes n
    | _ => exact fun _ _ _ => .refuse _
  | list es access n =>
    obtain ⟨hes, hjoin⟩ := and_eq_true_iff.mp h
    have hes := gradualExprs_loosens henv hes
    cases access with
    | load =>
      refine loosens_list hes (fun t ts hts => ?_) n
      rwa [hts] at hjoin
    | _ => exact fun _ _ _ => .refuse _
  | subscript b i access n =>
    obtain ⟨hb, hi⟩ := and_eq_true_iff.mp h
    cases access with
    | load =>
      exact loosens_subscript (gradualExpr_loosens henv hb) (gradualExpr_loosens henv hi) n
    | _ => exact fun _ _ _ => .refuse _
  | call f args n =>
    obtain ⟨h, hlen⟩ := and_eq_true_iff.mp h
    obtain ⟨hf, hargs⟩ := and_eq_true_iff.mp h
    refine loosens_call (gradualExpr_loosens henv hf) (gradualExprs_loosens henv hargs)
      (fun ps r b ht => ?_) n
    rw [ht] at hlen
    exact of_decide_eq_true hlen
  | other t => exact fun _ _ _ _ _ hrun => (Vars.refuseTree_error hrun).elim
  | _ => exact fun _ _ _ => .refuse _

theorem gradualExprs_loosens (henv : Blurred env env') {es} (h : exactExprs env es) :
    ∀ e ∈ es, LoosensExpr env env' e := by
  cases es with
  | nil => exact fun e he => by cases he
  | cons e es =>
    obtain ⟨he, hes⟩ := and_eq_true_iff.mp h
    rw [forall_mem_cons]
    exact ⟨gradualExpr_loosens henv he, gradualExprs_loosens henv hes⟩

end

end

end CompilerKit.Gradual
