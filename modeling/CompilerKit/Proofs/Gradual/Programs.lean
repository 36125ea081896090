import CompilerKit.Proofs.Gradual.Exprs

/-!
# Programs with less precise hints

A program is made less precise by putting the unknown type in the place of hints or of parts of
them. If nothing is left out in the program, then the checker still accepts it.

* `gradualStmt_accepts`, `gradualStmts_accepts`: statements with coarser hints, by recursion.
* `gradualModule_refuses_coarser`: why nothing may be left out.
-/

namespace CompilerKit.Gradual

open Check Bindings Bool
open Ty (Ordinary Vague Vagues)

/-! ## Less precise programs -/

/-- The second header of a function has less precise types for the same parameters. -/
inductive Header : Params → Ty → Params → Ty → Prop where
  | hints
      (hps : List.Forall₂ (fun p p' => p'.name = p.name ∧ Hint.Blurs p.hint.toTerm p'.hint.toTerm)
        ps ps')
      (hr : Hint.Blurs r.toTerm r'.toTerm) (m m') :
      Header (.signature ps m) r (.signature ps' m') r'
  | types (hps : Blurred ps ps') (hr : Vague r r') : Header (.typed ps) r (.typed ps') r'

/-- The statement has no hints and no statements in it. -/
def isSimple : Stmt → Bool
  | .annAssign .. | .ite .. | .loop .. | .fundef .. => false
  | _ => true

mutual

/-- The second statement is the first with less precise hints. -/
inductive Coarser : Stmt → Stmt → Prop where
  | simple (s) (hs : isSimple s) : Coarser s s
  | annAssign (h : Hint.Blurs hint.toTerm hint'.toTerm) (target e : Expr) (k : Term) (n : Note) :
      Coarser (.annAssign target hint e k n) (.annAssign target hint' e k n)
  | ite (hyes : Coarsers yes yes') (hno : Coarsers no no') (test n) :
      Coarser (.ite test yes no n) (.ite test yes' no' n)
  | loop (hbody : Coarsers body body') (test no n) :
      Coarser (.loop test body no n) (.loop test body' no n)
  | fundef {ps ps' r r'} (hheader : Header ps r ps' r') {ss ss'} (hbody : Coarsers ss ss')
      (f ds k n) :
      Coarser (.fundef f ps (.stmts ss) ds r k n) (.fundef f ps' (.stmts ss') ds r' k n)
  | foreign {ps ps' r r'} (hheader : Header ps r ps' r') {body} (hbody : ∀ ss, body ≠ .stmts ss)
      (f ds k n) : Coarser (.fundef f ps body ds r k n) (.fundef f ps' body ds r' k n)

inductive Coarsers : List Stmt → List Stmt → Prop where
  | nil : Coarsers [] []
  | cons (hs : Coarser s s') (hss : Coarsers ss ss') : Coarsers (s :: ss) (s' :: ss')

end

/-! ## Programs in which nothing is left out -/

/-- The table after a check that succeeds. -/
def tableAfter {α : Type} (x : Check α) (env : TypeTable) : Option TypeTable :=
  match x.run env with
  | .ok (_, ρ) => some ρ
  | .error _ => none

/-- The table of the body of a function and the type of its result. -/
def bodyScope (env : TypeTable) (ps : Params) (r : Ty) : Option (TypeTable × Ty) :=
  match resolveHeader .gradual ps r with
  | .ok (params, t, _) => match scope params with
    | .ok table => some (putAll env table, t)
    | .error _ => none
  | .error _ => none

mutual

/-- Nothing is left out in the expressions of the statement. -/
def exactStmt (result : Ty) (env : TypeTable) : Stmt → Bool
  | .assign [.name _ _] e _ => exactExpr env e
  | .assign [.subscript b i _ _] e _ => exactExpr env b && exactExpr env i && exactExpr env e
  | .expr e _ => exactExpr env e
  | .ret e _ => exactExpr env e
  | .annAssign (.name x _) hint e _ _ => match hint.resolve .gradual with
    | .ok t => exactExpr (put env x t) e
    | .error _ => true
  | .ite test yes no _ => exactExpr env test && exactStmts result env yes &&
    (tableAfter (gradualStmts result yes) env).all fun ρ => exactStmts result ρ no
  | .loop test body _ _ => exactExpr env test && exactStmts result env body
  | .fundef _ ps (.stmts ss) _ r _ _ =>
    (bodyScope env ps r).all fun p => exactStmts p.2 p.1 ss
  | _ => true

def exactStmts (result : Ty) (env : TypeTable) : List Stmt → Bool
  | [] => true
  | s :: ss => exactStmt result env s &&
    (tableAfter (gradualStmt result s) env).all fun ρ => exactStmts result ρ ss

end

/-- Nothing is left out in the expressions of the program. -/
def exactModule (ss : List Stmt) : Bool :=
  match declare .gradual [] ss with
  | .ok env => exactStmts .int env ss
  | .error _ => true

/-! ## Computations that change the table -/

/-- Whatever the first computation accepts in its table, the second accepts in its own, and the
tables after them are related again. -/
def Accepts (env env' : TypeTable) {α β : Type} (x : Check α) (y : Check β) : Prop :=
  ∀ a ρ, x.run env = .ok (a, ρ) → ∃ b ρ', y.run env' = .ok (b, ρ') ∧ Blurred ρ ρ'

variable {ρ : TypeTable}

section

variable {env env' : TypeTable} {α β γ δ : Type}
variable {R : α → β → Prop}
variable {f : α → Check γ} {g : β → Check δ}

theorem tableAfter_eq (h : x.run env = .ok (a, ρ)) : tableAfter x env = some ρ := by
  rw [tableAfter, h]

namespace Accepts

theorem pure (henv : Blurred env env') (a : α) (b : β) :
    Accepts env env' (Pure.pure a) (Pure.pure b) := by
  rintro _ _ ⟨⟩
  exact ⟨b, env', rfl, henv⟩

theorem refuse (e) : Accepts env env' (refuse e : Check α) y := fun _ _ h => by cases h

theorem bind (hxy : Accepts env env' x y)
    (hfg : ∀ a b ρ ρ', x.run env = .ok (a, ρ) → Blurred ρ ρ' → Accepts ρ ρ' (f a) (g b)) :
    Accepts env env' (x >>= f) (y >>= g) := by
  intro c ρ h
  obtain ⟨a, σ, hx, hf⟩ := bind_ok h
  obtain ⟨b, σ', hy, hσ⟩ := hxy a σ hx
  obtain ⟨d, ρ', hg, hρ⟩ := hfg a b σ σ' hx hσ c ρ hf
  exact ⟨d, ρ', of_bind_ok hy hg, hρ⟩

theorem inScope (henv : Blurred env env') (h : Accepts (putAll env more) (putAll env' more') x y) :
    Accepts env env' (inScope more x) (inScope more' y) := by
  intro a ρ hrun
  obtain ⟨b, σ, hx, hrun⟩ :=
    bind_ok (show (x >>= fun a => do set env; Pure.pure a).run _ = _ from hrun)
  cases hrun
  obtain ⟨b, σ', hy, -⟩ := h _ _ hx
  exact ⟨b, env', of_bind_ok hy rfl, henv⟩

end Accepts

/-- The table does not change in the first steps. -/
theorem Loosens.then (hxy : Loosens env env' x y R)
    (hfg : ∀ a b, R a b → Accepts env env' (f a) (g b)) : Accepts env env' (x >>= f) (y >>= g) := by
  intro c ρ h
  obtain ⟨a, σ, hx, hf⟩ := bind_ok h
  obtain ⟨rfl, b, hy, hab⟩ := hxy a σ hx
  obtain ⟨d, ρ', hg, hρ⟩ := hfg a b hab c ρ hf
  exact ⟨d, ρ', of_bind_ok hy hg, hρ⟩

theorem loosens_lift {x : Except CheckError α} {y : Except CheckError β}
    (h : ∀ a, x = .ok a → ∃ b, y = .ok b ∧ R a b) : Loosens env env' (liftM x) (liftM y) R := by
  intro a ρ hrun
  cases x with
  | error e => cases hrun
  | ok a =>
    cases hrun
    obtain ⟨b, rfl, hab⟩ := h a rfl
    exact ⟨rfl, b, rfl, hab⟩

theorem loosens_ofExcept {x : Except Fault α} {y : Except Fault β}
    (h : ∀ a, x = .ok a → ∃ b, y = .ok b ∧ R a b) :
    Loosens env env' (ofExcept x) (ofExcept y) R := by
  intro a ρ hrun
  cases x with
  | error e => cases hrun
  | ok a =>
    cases hrun
    obtain ⟨b, rfl, hab⟩ := h a rfl
    exact ⟨rfl, b, rfl, hab⟩

/-! ## Headers -/

/-- Parameters with less precise types. -/
abbrev BlurredParams : List (Term × Ty) → List (Term × Ty) → Prop :=
  List.Forall₂ fun d d' => d'.1 = d.1 ∧ Vague d.2 d'.2

theorem BlurredParams.types (h : BlurredParams ds ds') : Vagues (ds.map (·.2)) (ds'.map (·.2)) := by
  induction h with
  | nil => exact .nil
  | cons h _ ih => exact .cons h.2 ih

theorem BlurredParams.scope_ok (h : BlurredParams ds ds') (htable : scope ds = .ok table) :
    ∃ table', scope ds' = .ok table' ∧ Blurred table table' := by
  induction h generalizing table with
  | nil =>
    cases htable
    exact ⟨[], rfl, .nil⟩
  | @cons d d' ds ds' hd _ ih =>
    obtain ⟨k, t⟩ := d
    obtain ⟨k', t'⟩ := d'
    obtain ⟨rfl, ht⟩ : k' = k ∧ Vague t t' := hd
    by_cases hk : ∃ x, k' = .str x
    · obtain ⟨x, rfl⟩ := hk
      obtain ⟨rest, hrest, htable⟩ := ok_of_bind htable
      cases htable
      obtain ⟨rest', hrest', hblurred⟩ := ih hrest
      exact ⟨(x, t') :: rest', of_bind_ok hrest' rfl, .cons ⟨rfl, ht⟩ hblurred⟩
    · have hskip (u : Ty) (rest : List (Term × Ty)) : scope ((k', u) :: rest) =
          if k'.hashable then scope rest else .error .wrongKind :=
        Check.scope.eq_3 k' u rest fun x hx => hk ⟨x, hx⟩
      rw [hskip] at htable ⊢
      split at htable
      · next hkey =>
        rw [if_pos hkey]
        exact ih htable
      · cases htable

theorem BlurredParams.loosens (h : BlurredParams ds ds') :
    Loosens env env' (ofExcept (scope ds)) (ofExcept (scope ds')) fun table table' =>
      scope ds = .ok table ∧ Blurred table table' := by
  refine loosens_ofExcept fun table htable => ?_
  obtain ⟨table', htable', hblurred⟩ := h.scope_ok htable
  exact ⟨table', htable', htable, hblurred⟩

namespace Header

variable (h : Header ps r ps' r')
include h

theorem params (hds : resolveParams .gradual ps = .ok ds) :
    ∃ ds', resolveParams .gradual ps' = .ok ds' ∧ BlurredParams ds ds' := by
  cases h with
  | hints hps _ =>
    dsimp only [resolveParams] at hds ⊢
    induction hps generalizing ds with
    | nil =>
      cases hds
      exact ⟨[], rfl, .nil⟩
    | @cons p p' ps ps' hp _ ih =>
      rw [List.mapM_cons] at hds ⊢
      obtain ⟨d, hd, hds⟩ := ok_of_bind hds
      obtain ⟨t, ht, hd⟩ := ok_of_bind hd
      cases hd
      obtain ⟨rest, hrest, hds⟩ := ok_of_bind hds
      cases hds
      obtain ⟨t', ht', hvague⟩ := hp.2.resolve ht
      obtain ⟨rest', hrest', hblurred⟩ := ih hrest
      exact ⟨(.str p'.name, t') :: rest', of_bind_ok (of_bind_ok ht' rfl) (of_bind_ok hrest' rfl),
        .cons ⟨congrArg Term.str hp.1, hvague⟩ hblurred⟩
  | @types ps ps' _ _ hps _ =>
    cases hds
    refine ⟨_, rfl, ?_⟩
    induction hps with
    | nil => exact .nil
    | cons h _ ih => exact .cons ⟨congrArg Term.str h.1, h.2⟩ ih

theorem resolve (hrun : resolveHeader .gradual ps r = .ok (ds, t, qs)) :
    ∃ ds' t' qs', resolveHeader .gradual ps' r' = .ok (ds', t', qs') ∧ BlurredParams ds ds' ∧
      Vague t t' := by
  obtain ⟨ds, hds, hrun⟩ := ok_of_bind hrun
  obtain ⟨ds', hds', hblurred⟩ := h.params hds
  cases h with
  | hints _ hr =>
    obtain ⟨t, ht, hrun⟩ := ok_of_bind hrun
    cases hrun
    obtain ⟨t', ht', hvague⟩ := hr.resolve ht
    exact ⟨ds', t', _, of_bind_ok hds' (of_bind_ok ht' rfl), hblurred, hvague⟩
  | types _ hr =>
    cases hrun
    exact ⟨ds', r', _, of_bind_ok hds' rfl, hblurred, hr⟩

theorem loosens : Loosens env env' (liftM (resolveHeader .gradual ps r))
      (liftM (resolveHeader .gradual ps' r')) fun q q' => resolveHeader .gradual ps r = .ok q ∧
        BlurredParams q.1 q'.1 ∧ Vague q.2.1 q'.2.1 := by
  refine loosens_lift fun q hq => ?_
  obtain ⟨params', t', qs', hrun', hparams, ht⟩ := h.resolve hq
  exact ⟨_, hrun', hq, hparams, ht⟩

end Header

/-- The functions of a program are declared with less precise types. -/
theorem declare_blurred (h : Coarsers ss ss') (henv : Blurred env env')
    (hρ : declare .gradual env ss = .ok ρ) :
    ∃ ρ', declare .gradual env' ss' = .ok ρ' ∧ Blurred ρ ρ' := by
  induction ss generalizing ss' env env' with
  | nil =>
    cases h
    cases hρ
    exact ⟨env', rfl, henv⟩
  | cons s ss ih =>
    have hfundef {ps ps' r r'} (hheader : Header ps r ps' r') {ss'} (hss : Coarsers ss ss')
        (f b b' ds k n) (hρ : declare .gradual env (.fundef f ps b ds r k n :: ss) = .ok ρ) :
        ∃ ρ', declare .gradual env' (.fundef f ps' b' ds r' k n :: ss') = .ok ρ' ∧
          Blurred ρ ρ' := by
      rw [declare_fundef rfl rfl] at hρ ⊢
      obtain ⟨⟨params, t, qs⟩, hrun, hρ⟩ := ok_of_bind hρ
      obtain ⟨params', t', qs', hrun', hblurred, hvague⟩ := hheader.resolve hrun
      have hfunction : Vague (.function (params.map (·.2)) t) (.function (params'.map (·.2)) t') :=
        .function hblurred.types hvague
      obtain ⟨ρ', hρ', hρblurred⟩ := ih hss (henv.put f hfunction) hρ
      exact ⟨ρ', of_bind_ok hrun' hρ', hρblurred⟩
    cases h with
    | cons hs hss =>
      cases hs with
      | simple s hs =>
        cases s with
        | annAssign | ite | loop | fundef => cases hs
        | _ => exact (ih hss henv hρ :)
      | annAssign _ | ite _ _ | loop _ => exact (ih hss henv hρ :)
      | fundef hheader _ f | foreign hheader _ f => exact hfundef hheader hss f _ _ _ _ _ hρ

/-! ## Statements -/

theorem LoosensExpr.then (ha : LoosensExpr env env' a) {f g : Expr × Ty → Check γ}
    (hfg : ∀ d t d' t', Agrees (d, t) (d', t') → Accepts env env' (f (d, t)) (g (d', t'))) :
    Accepts env env' (gradualExpr none a >>= f) (gradualExpr none a >>= g) :=
  Loosens.then (ha _ _ .nothing) fun _ _ h => hfg _ _ _ _ h

theorem Accepts.require (hs : Vague s s') (ht : Vague t t')
    {f g : Unit → Check γ} (hfg : Accepts env env' (f ()) (g ())) :
    Accepts env env' (requireConsistent s t p >>= f) (requireConsistent s' t' p' >>= g) :=
  (loosens_consistent hs ht p p').then fun _ _ _ => hfg

theorem Accepts.after (hx : Loosens env env' x y R)
    (hf : ∀ a b, R a b → Accepts env env' (f a) z) : Accepts env env' (x >>= f) z := by
  intro c ρ h
  obtain ⟨a, σ, hx', hf'⟩ := bind_ok h
  obtain ⟨rfl, b, -, hab⟩ := hx a σ hx'
  exact hf a b hab c ρ hf'

section

variable (henv : Blurred env env') {e : Expr}

include henv

theorem accepts_assign (x m) (he : LoosensExpr env env' e) (n) :
    Accepts env env' (gradualStmt result (.assign [.name x m] e n))
      (gradualStmt result' (.assign [.name x m] e n)) := by
  refine he.then fun d t d' t' he => ?_
  refine (loosens_find? henv x).then fun o o' ho => ?_
  cases ho with
  | none =>
    rintro _ _ ⟨⟩
    exact ⟨_, _, rfl, henv.put x he.type⟩
  | some hu => exact .require hu he.type (.pure henv _ _)

theorem accepts_store (hb : LoosensExpr env env' b) (hi : LoosensExpr env env' i)
    (he : LoosensExpr env env' e) (m n) :
    Accepts env env' (gradualStmt result (.assign [.subscript b i .store m] e n))
      (gradualStmt result' (.assign [.subscript b i .store m] e n)) := by
  refine hb.then fun _ _ _ _ hb => he.then fun _ _ _ _ he => hi.then fun j _ j' _ hi => ?_
  refine .require hi.type .int ?_
  obtain ⟨-, hconst⟩ := hi
  obtain ⟨htype, -⟩ := hb
  cases htype with
  | tuple h =>
    cases j with
    | const k =>
      cases j' with
      | const =>
        cases hconst
        exact (loosens_typeAtValue h k).then fun _ _ ht => .require ht he.type (.pure henv _ _)
      | _ => cases hconst
    | _ => exact .refuse _
  | list h => exact .require h he.type (.pure henv _ _)
  | any h =>
    cases h with
    | tuple h =>
      cases j with
      | const k =>
        refine .after (loosens_typeAtValue (.refl fun t ht => (h t ht).vague) k) fun _ _ ht => ?_
        exact .after (loosens_consistent ht he.type _ (.expr e)) fun _ _ _ => .pure henv _ _
      | _ => exact .refuse _
    | list h =>
      exact .after (loosens_consistent h.vague he.type _ (.expr e)) fun _ _ _ => .pure henv _ _
    | any => exact .pure henv _ _
    | _ => exact .refuse _
  | _ => exact .refuse _

theorem accepts_ret (hresult : Vague result result') (he : LoosensExpr env env' e) (n) :
    Accepts env env' (gradualStmt result (.ret e n)) (gradualStmt result' (.ret e n)) :=
  (he _ _ (.type hresult)).then fun _ _ _ => .pure henv _ _

/-- The statement prints a number. -/
def isPrint : Expr → Bool
  | .call (.name "print" _) [_] _ => true
  | _ => false

omit henv in
theorem gradualStmt_expr (h : isPrint e = false) (result n) :
    gradualStmt result (.expr e n) = (gradualExpr none e >>= fun r => pure (.expr r.1 n)) := by
  rw [gradualStmt]
  rintro a k m rfl
  cases h

theorem accepts_expr (he : exactExpr env e) (n) :
    Accepts env env' (gradualStmt result (.expr e n)) (gradualStmt result' (.expr e n)) := by
  cases hprint : isPrint e with
  | false =>
    rw [gradualStmt_expr hprint, gradualStmt_expr hprint]
    exact (gradualExpr_loosens henv he).then fun _ _ _ _ _ => .pure henv _ _
  | true =>
    unfold isPrint at hprint
    split at hprint
    · obtain ⟨he, -⟩ := and_eq_true_iff.mp he
      obtain ⟨-, hargs⟩ := and_eq_true_iff.mp he
      have ha := gradualExprs_loosens henv hargs _ (.head _)
      exact ha.then fun _ _ _ _ ha => .require ha.type .int (.pure henv _ _)
    · cases hprint

theorem accepts_simple (hs : isSimple s) (hresult : Vague result result')
    (hexact : exactStmt result env s) :
    Accepts env env' (gradualStmt result s) (gradualStmt result' s) := by
  cases s with
  | expr e n => exact accepts_expr henv hexact n
  | ret e n => exact accepts_ret henv hresult (gradualExpr_loosens henv hexact) n
  | assign targets e n =>
    cases targets with
    | nil => exact .refuse _
    | cons target targets =>
      cases targets with
      | cons _ _ =>
        cases target with
        | subscript b i access m => cases access <;> exact .refuse _
        | _ => exact .refuse _
      | nil =>
        cases target with
        | name x m => exact accepts_assign henv x m (gradualExpr_loosens henv hexact) n
        | subscript b i access m =>
          obtain ⟨hexact, he⟩ := and_eq_true_iff.mp hexact
          obtain ⟨hb, hi⟩ := and_eq_true_iff.mp hexact
          cases access with
          | store =>
            exact accepts_store henv (gradualExpr_loosens henv hb) (gradualExpr_loosens henv hi)
              (gradualExpr_loosens henv he) m n
          | _ => exact .refuse _
        | _ => exact .refuse _
  | annAssign | ite | loop | fundef => cases hs
  | _ => exact .refuse _

theorem accepts_annAssign {hint hint' : Ty} (hhint : Hint.Blurs hint.toTerm hint'.toTerm)
    (target k n) (hexact : exactStmt result env (.annAssign target hint e k n)) :
    Accepts env env' (gradualStmt result (.annAssign target hint e k n))
      (gradualStmt result' (.annAssign target hint' e k n)) := by
  cases target with
  | name x m =>
    have hresolve : Loosens env env' (liftM (hint.resolve .gradual))
        (liftM (hint'.resolve .gradual)) fun t t' =>
          exactExpr (put env x t) e ∧ Vague t t' := by
      refine loosens_lift fun t ht => ?_
      obtain ⟨t', ht', hvague⟩ := hhint.resolve ht
      unfold exactStmt at hexact
      rw [ht] at hexact
      exact ⟨t', ht', hexact, hvague⟩
    refine hresolve.then fun t t' ht => (loosens_find? henv x).then fun o o' ho => ?_
    obtain ⟨hexact, hvague⟩ := ht
    cases ho with
    | some _ => exact .refuse _
    | none =>
      have hbind : Accepts env env' (bind x t) (bind x t') := by
        rintro _ _ ⟨⟩
        exact ⟨(), _, rfl, henv.put x hvague⟩
      refine hbind.bind fun _ _ ρ ρ' hρ hblurred => ?_
      cases hρ
      have he := gradualExpr_loosens hblurred hexact
      exact (he _ _ (.type hvague)).then fun _ _ _ => .pure hblurred _ _
  | _ => exact .refuse _

omit henv in
theorem loosens_foreignStmts (body) :
    Loosens env env' (foreignStmts body) (foreignStmts body) fun _ _ => True := by
  cases body with
  | stmts ss => exact .pure trivial
  | blocks bs =>
    cases bs with
    | nil => exact .pure trivial
    | cons _ _ => exact .refuse _
  | other t =>
    refine (loosens_ofExcept fun ts hts => ⟨ts, hts, rfl⟩).bind (R := Eq) fun ts _ _ hts => ?_
    subst hts
    cases ts with
    | nil => exact .pure trivial
    | cons _ _ => exact .refuse _

theorem accepts_fundef (hheader : Header ps r ps' r')
    (hbody : ∀ ρ ρ' t t', bodyScope env ps r = some (ρ, t) → Blurred ρ ρ' → Vague t t' →
      Accepts ρ ρ' (gradualStmts t ss) (gradualStmts t' ss'))
    (f : String) (ds k : Term) (n : Note) :
    Accepts env env' (gradualStmt result (.fundef f ps (.stmts ss) ds r k n))
      (gradualStmt result' (.fundef f ps' (.stmts ss') ds r' k n)) := by
  refine hheader.loosens.then ?_
  rintro ⟨params, t, qs⟩ ⟨params', t', qs'⟩ ⟨hrun, hparams, ht⟩
  refine hparams.loosens.then fun table table' htable => ?_
  obtain ⟨htable, hblurred⟩ := htable
  have hscope : bodyScope env ps r = some (putAll env table, t) := by
    simp only [bodyScope, hrun, htable]
  have hss := hbody _ _ _ _ hscope (henv.putAll hblurred) ht
  exact (Accepts.inScope henv hss).bind fun _ _ _ _ _ hρ => .pure hρ _ _

theorem accepts_foreign (hheader : Header ps r ps' r') (hbody : ∀ ss, body ≠ .stmts ss) (f ds k n) :
    Accepts env env' (gradualStmt result (.fundef f ps body ds r k n))
      (gradualStmt result' (.fundef f ps' body ds r' k n)) := by
  cases body with
  | stmts ss => exact absurd rfl (hbody ss)
  | _ =>
    refine hheader.loosens.then fun q q' hq => hq.2.1.loosens.then fun table table' _ => ?_
    exact (loosens_foreignStmts _).then fun _ _ _ => .pure henv _ _

end

end

mutual

/-- A statement with less precise hints is accepted in a less precise table. -/
theorem gradualStmt_accepts {s s'} (h : Coarser s s') {env env'} (henv : Blurred env env')
    {result result'} (hresult : Vague result result') (hexact : exactStmt result env s) :
    Accepts env env' (gradualStmt result s) (gradualStmt result' s') := by
  cases h with
  | simple s hs => exact accepts_simple henv hs hresult hexact
  | annAssign hhint target e k n => exact accepts_annAssign henv hhint target k n hexact
  | ite hyes hno test n =>
    simp only [exactStmt, and_eq_true_iff] at hexact
    obtain ⟨⟨htest, hyes'⟩, hno'⟩ := hexact
    refine (gradualExpr_loosens henv htest).then fun _ _ _ _ htest => .require .bool htest.type ?_
    refine (gradualStmts_accepts hyes henv hresult hyes').bind fun _ _ ρ ρ' hrun hρ => ?_
    rw [tableAfter_eq hrun] at hno'
    exact (gradualStmts_accepts hno hρ hresult hno').bind fun _ _ _ _ _ hρ => .pure hρ _ _
  | loop hbody test no n =>
    obtain ⟨htest, hbody'⟩ := and_eq_true_iff.mp hexact
    cases no with
    | cons _ _ => exact .refuse _
    | nil =>
      refine (gradualExpr_loosens henv htest).then fun _ _ _ _ htest => .require .bool htest.type ?_
      exact (gradualStmts_accepts hbody henv hresult hbody').bind fun _ _ _ _ _ hρ => .pure hρ _ _
  | fundef hheader hbody f ds k n =>
    refine accepts_fundef henv hheader (fun ρ ρ' t t' hscope hρ ht => ?_) f ds k n
    unfold exactStmt at hexact
    rw [hscope] at hexact
    exact gradualStmts_accepts hbody hρ ht hexact
  | foreign hheader hbody f ds k n => exact accepts_foreign henv hheader hbody f ds k n

theorem gradualStmts_accepts {ss ss'} (h : Coarsers ss ss') {env env'} (henv : Blurred env env')
    {result result'} (hresult : Vague result result') (hexact : exactStmts result env ss) :
    Accepts env env' (gradualStmts result ss) (gradualStmts result' ss') := by
  cases h with
  | nil => exact .pure henv _ _
  | cons hs hss =>
    obtain ⟨hs', hss'⟩ := and_eq_true_iff.mp hexact
    refine (gradualStmt_accepts hs henv hresult hs').bind fun _ _ ρ ρ' hrun hρ => ?_
    rw [tableAfter_eq hrun] at hss'
    exact (gradualStmts_accepts hss hρ hresult hss').bind fun _ _ _ _ _ hρ => .pure hρ _ _

end

/-! ## Programs -/

/-- Every program that is accepted, and in which nothing is left out, is accepted with less precise
hints. -/
theorem gradualModule_coarser {ss ss' : List Stmt} (h : Coarsers ss ss')
    (hexact : exactModule ss = true) (n n' : Note)
    (haccepted : ∃ q, gradualModule (.module ss n) = .ok q) :
    ∃ q', gradualModule (.module ss' n') = .ok q' := by
  obtain ⟨q, hq⟩ := haccepted
  obtain ⟨env, henv, hq⟩ := ok_of_bind hq
  obtain ⟨⟨qs, ρ⟩, hrun, -⟩ := ok_of_bind hq
  obtain ⟨env', henv', hblurred⟩ := declare_blurred h (.nil : Blurred [] []) henv
  rw [exactModule, henv] at hexact
  obtain ⟨qs', ρ', hrun', -⟩ := gradualStmts_accepts h hblurred .int hexact qs ρ hrun
  exact ⟨.module qs' n', of_bind_ok henv' (of_bind_ok hrun' rfl)⟩

/-- A function of a function and a pair, and a call of it. -/
def callsWith (g p y r : Ty) : List Stmt :=
  [ Stmt.fundef "next" (.signature [⟨"n", .int, {}⟩] {})
      (.stmts [.ret (.arith (.name "n" {}) .add (.const (.int 1 0) {}) {}) {}])
      (.list []) .int .null {},
    Stmt.fundef "first" (.signature [⟨"g", g, {}⟩, ⟨"p", p, {}⟩] {})
      (.stmts [
        .annAssign (.name "y" {}) y (.call (.name "g" {})
          [.subscript (.name "p" {}) (.const (.int 0 0) {}) .load {}] {}) .null {},
        .ite (.compare (.name "y" {}) [.eq] [.const (.int 0 0) {}] {})
          [.ret (.call (.name "g" {}) [.name "y" {}] {}) {}]
          [.ret (.subscript (.name "p" {}) (.const (.int 1 0) {}) .load {}) {}] {}])
      (.list []) r .null {},
    .expr (.call (.name "print" {}) [.call (.name "first" {}) [.name "next" {},
      .tuple [.const (.int 1 0) {}, .const (.int 2 0) {}] .load {}] {}] {}) {}]

theorem gradualModule_coarser_callsWith :
    exactModule (callsWith (.function [.int] .int) (.tuple [.int, .int]) .int .int) = true ∧
      ∃ q, gradualModule (.module (callsWith .any (.tuple [.int, .any]) .any .any) {}) = .ok q := by
  have hexact : exactModule
      (callsWith (.function [.int] .int) (.tuple [.int, .int]) .int .int) = true := by decide
  have hpair : Hint.Blurs (Ty.tuple [.int, .int]).toTerm (Ty.tuple [.int, .any]).toTerm :=
    .tupleType (.list (.cons (.same _) (.cons (.anyType _ _ _) .nil))) _
  have hcoarser : Coarsers (callsWith (.function [.int] .int) (.tuple [.int, .int]) .int .int)
      (callsWith .any (.tuple [.int, .any]) .any .any) := by
    refine .cons (.fundef (.hints (.cons ⟨rfl, .same _⟩ .nil) (.same _) _ _)
      (.cons (.simple _ rfl) .nil) _ _ _ _) (.cons (.fundef (.hints ?_ ?_ _ _) (.cons
      (.annAssign ?_ _ _ _ _) (.cons (.ite (.cons (.simple _ rfl) .nil) (.cons (.simple _ rfl) .nil)
      _ _) .nil)) _ _ _ _) (.cons (.simple _ rfl) .nil))
    · exact .cons ⟨rfl, .anyType _ _ _⟩ (.cons ⟨rfl, hpair⟩ .nil)
    · exact .anyType _ _ _
    · exact .anyType _ _ _
  exact ⟨hexact, gradualModule_coarser hcoarser hexact {} {} ⟨_, rfl⟩⟩

/-- A call with more arguments than the type of the function has. -/
def passesMore (g : Ty) : List Stmt :=
  [ Stmt.fundef "f" (.signature [⟨"g", g, {}⟩] {})
    (.stmts [.ret (.call (.name "g" {}) [.name "y" {}] {}) {}]) (.list []) .int .null {}]

/-- A join of tuples of different widths, compared with a third one. -/
def joinsWith (y : Ty) : List Stmt :=
  [ Stmt.fundef "f" (.signature [⟨"c", .bool, {}⟩,
      ⟨"x", .tuple [.int, .bool], {}⟩, ⟨"y", y, {}⟩,
      ⟨"z", .tuple [.int, .int], {}⟩] {})
    (.stmts [.ret (.compare (.name "z" {}) [.eq]
      [.cond (.name "c" {}) (.name "x" {}) (.name "y" {}) {}] {}) {}]) (.list []) .bool .null {}]

/-- Where something is left out, less precise hints can lead to a refusal. -/
theorem gradualModule_refuses_coarser :
    (Coarsers (passesMore (.function [] .int)) (passesMore .any) ∧
      (∃ q, gradualModule (.module (passesMore (.function [] .int)) {}) = .ok q) ∧
      ∃ e, gradualModule (.module (passesMore .any) {}) = .error e) ∧
    Coarsers (joinsWith (.tuple [.int])) (joinsWith .any) ∧
      (∃ q, gradualModule (.module (joinsWith (.tuple [.int])) {}) = .ok q) ∧
      ∃ e, gradualModule (.module (joinsWith .any) {}) = .error e := by
  refine ⟨⟨.cons (.fundef (.hints ?_ (.same _) _ _) (.cons (.simple _ rfl) .nil) _ _ _ _) .nil,
    ⟨_, rfl⟩, _, rfl⟩, .cons (.fundef (.hints ?_ (.same _) _ _) (.cons (.simple _ rfl) .nil)
    _ _ _ _) .nil, ⟨_, rfl⟩, _, rfl⟩
  · exact .cons ⟨rfl, .anyType _ _ _⟩ .nil
  · exact .cons ⟨rfl, .same _⟩ (.cons ⟨rfl, .same _⟩ (.cons ⟨rfl, .anyType _ _ _⟩
      (.cons ⟨rfl, .same _⟩ .nil)))

end CompilerKit.Gradual
