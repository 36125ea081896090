import CompilerKit.Proofs.Lambdas.Settled

/-!
# Programs that have been checked

A program in which types have been recorded is checked once more with the same result: hints have
become the types that they denote, functions are declared with the types that they had, and every
statement is returned as it is.

* `settlesStmts_fundef` and its like: a rule for each statement, under what is known of its parts.
* `settles`, `settlesStmts`: all expressions and statements, by recursion on them.
-/

namespace CompilerKit.Lambdas

open Check List
open Functions (IsValueType inScope_run ofExcept_run resolve_self
  ofTerm_toTerm ofPairs_eq_written)

variable {want : Option Ty} {env ρ : TypeTable}
variable {params : List (Term × Ty)}
variable {ps : Params} {result : Ty} {ss : List Stmt}

/-! ## Hints and headers -/

theorem hintTypes_value : HintTypes .lambdas IsValueType where
  noGenerics := rfl
  noProxies := rfl
  int := .int
  bool := .bool
  void := .void
  any h := by cases h
  tuple := .tuple
  list := .list
  function := .function

theorem resolve_again {hint t : Ty} (h : hint.resolve .lambdas = .ok t) :
    t.resolve .lambdas = .ok t :=
  resolve_self .lambdas (resolve_types hintTypes_value h)

theorem forall_of_mapM {ε α β : Type} {f : α → Except ε β} {P : β → Prop}
    (hf : ∀ a b, f a = .ok b → P b) {xs : List α} {ys : List β} (h : xs.mapM f = .ok ys) :
    ∀ y ∈ ys, P y := by
  induction xs generalizing ys with
  | nil =>
    cases h
    simp
  | cons x xs ih =>
    rw [mapM_cons] at h
    obtain ⟨y, hy, h⟩ := ok_of_bind h
    obtain ⟨zs, hzs, h⟩ := ok_of_bind h
    cases h
    exact forall_mem_cons.mpr ⟨hf x y hy, ih hzs⟩

/-- Declared parameters have the types of their hints. -/
theorem isValueType_of_declared (hdeclared : ps.areDeclared)
    (h : resolveParams .lambdas ps = .ok params) : ∀ p ∈ params, IsValueType p.2 := by
  unfold resolveParams at h
  split at h
  · refine forall_of_mapM (fun q p hp => ?_) h
    obtain ⟨t, ht, hp⟩ := ok_of_bind hp
    cases hp
    exact resolve_types hintTypes_value ht
  · obtain ⟨ts, -, h⟩ := ok_of_bind h
    refine forall_of_mapM (fun q p hp => ?_) h
    unfold resolveDeclaration at hp
    split at hp
    · obtain ⟨t, ht, hp⟩ := ok_of_bind hp
      cases hp
      exact resolve_types hintTypes_value ht
    · cases hp
  · unfold Params.areDeclared at hdeclared
    split at hdeclared
    · cases h
    · cases h
    · cases hdeclared

theorem areDeclared_ofItems (ts) : (Params.ofItems ts).areDeclared = false := by
  unfold Params.ofItems
  split
  · rfl
  · split <;> rfl

theorem pairs_items (h : ∀ p ∈ params, IsValueType p.2) :
    Params.pairs (.other (.list (params.map fun p => .tuple [p.1, p.2.toTerm]))) = .ok params := by
  have hpairs : (params.map fun p => Term.tuple [p.1, p.2.toTerm]).mapM Term.pair =
      .ok (params.map fun p => (p.1, p.2.toTerm)) := by
    induction params with
    | nil => rfl
    | cons p params ih =>
      rw [forall_mem_cons] at h
      rw [map_cons, mapM_cons]
      exact of_bind_ok rfl (of_bind_ok (ih h.2) rfl)
  refine of_bind_ok rfl (of_bind_ok hpairs ?_)
  rw [map_map]
  refine congrArg Except.ok ((map_congr_left fun p hp => ?_).trans (map_id params))
  exact congrArg (Prod.mk p.1) (ofTerm_toTerm (h p hp))

theorem resolveParams_ofItems (h : ∀ p ∈ params, IsValueType p.2) :
    resolveParams .lambdas (.ofItems (params.map fun p => .tuple [p.1, p.2.toTerm])) =
      .ok params := by
  cases params with
  | nil => rfl
  | cons p params =>
    have hnames : Ty.names? ((p :: params).map fun p => .tuple [p.1, p.2.toTerm]) = none := rfl
    rw [Params.ofItems, hnames]
    cases htable : TypeTable.ofPairs? ((p :: params).map fun p => .tuple [p.1, p.2.toTerm]) with
    | none => exact congrArg CheckError.ofExcept (pairs_items h)
    | some table =>
      rw [ofPairs_eq_written h htable]
      rfl

theorem resolveHeader_again (h : resolveHeader .lambdas ps result = .ok (params, t, ps')) :
    resolveHeader .lambdas ps' t = .ok (params, t, ps') := by
  obtain ⟨hparams, ⟨hdeclared, -, rfl⟩ | ⟨-, rfl, rfl⟩⟩ := resolveHeader_ok h
  · refine of_bind_ok (resolveParams_ofItems (isValueType_of_declared hdeclared hparams)) ?_
    rw [areDeclared_ofItems]
    rfl
  · exact h

/-! ## Statements -/

/-- The statements `ss'` are what the checker has returned for `ss`. They are returned again, and
they declare the same functions. -/
structure SettledStmts (want : Option Ty) (env : TypeTable) (ss ss' : List Stmt) (t : Ty)
    (ρ : TypeTable) : Prop where
  again : (checkStmts .lambdas want ss').run env = .ok ((ss', t), ρ)
  empty : ss'.isEmpty = ss.isEmpty
  declared (table : TypeTable) : declare .lambdas table ss' = declare .lambdas table ss

/-- Whatever the checker returns for the statements is settled. -/
def SettlesStmts (ss : List Stmt) : Prop :=
  ∀ ⦃want : Option Ty⦄ ⦃env ρ : TypeTable⦄ ⦃ss' : List Stmt⦄ ⦃t : Ty⦄,
    (checkStmts .lambdas want ss).run env = .ok ((ss', t), ρ) → SettledStmts want env ss ss' t ρ

theorem settlesStmts_nil : SettlesStmts [] := by
  intro want env ρ ss' t h
  cases h
  exact ⟨rfl, rfl, fun _ => rfl⟩

section Rules

variable {rest : List Stmt}
variable {ss' : List Stmt} {t : Ty}

/-- Check the statements that follow one that has been checked. -/
def follow (s : Stmt) (want : Option Ty) (rest : List Stmt) : Check (List Stmt × Ty) := do
  let (rest, t) ← checkStmts .lambdas want rest
  pure (s :: rest, t)

theorem SettlesStmts.parted (hss : SettlesStmts ss) {f : List Stmt × Ty → Check α}
    (h : (checkStmts .lambdas want ss >>= f).run env = .ok r) :
    Parted (fun p => checkStmts .lambdas want p.1) f env r := by
  obtain ⟨p, ρ, hrun, h⟩ := bind_ok h
  exact ⟨fun _ _ _ => run_bind (hss hrun).again, h⟩

/-- The statement defines a function. -/
def declares : Stmt → Bool
  | .fundef _ _ _ _ _ _ _ => true
  | _ => false

theorem declare_rest (hs : declares s = false) (table rest) :
    declare .lambdas table (s :: rest) = declare .lambdas table rest := by
  cases s with
  | fundef => cases hs
  | _ => rfl

theorem settlesStmts_ret (he : Settles e) (rest n) : SettlesStmts (.ret e n :: rest) := by
  intro want env ρ ss' t h
  obtain ⟨he, h⟩ := he.parted h
  cases h
  exact ⟨he rfl, rfl, fun _ => rfl⟩

/-- An index that is no constant is always stored at by the same rule. -/
theorem checkStmts_store (hi : isConst i = false) (w m n) :
    checkStmts .lambdas (some w) (.assign [.subscript b i .store m] e n :: rest) =
      checkStmts .lambdas none (.assign [.subscript b i .store m] e n :: rest) := by
  cases i with
  | const => cases hi
  | _ => rfl

variable (hrest : SettlesStmts rest)
include hrest

theorem follow_ok
    (h : (follow s want rest).run env = .ok ((ss', t), ρ)) :
    ∃ rest', ss' = s :: rest' ∧ (follow s want rest').run env = .ok ((s :: rest', t), ρ) ∧
      ∀ table, declare .lambdas table rest' = declare .lambdas table rest := by
  obtain ⟨⟨rest', u⟩, ρ1, hrest1, h⟩ := bind_ok h
  cases h
  have hsettled := hrest hrest1
  exact ⟨rest', rfl, run_bind hsettled.again rfl, hsettled.declared⟩

theorem SettlesStmts.followed
    (h : (follow s' w rest).run env' = .ok ((ss', t), ρ)) (hs : declares s = false)
    (hs' : declares s' = false)
    (hrun : ∀ ⦃rest r⦄, (follow s' w rest).run env' = .ok r →
      (checkStmts .lambdas want (s' :: rest)).run env = .ok r) :
    SettledStmts want env (s :: rest) ss' t ρ := by
  obtain ⟨rest', rfl, hnext, hdeclared⟩ := follow_ok hrest h
  refine ⟨hrun hnext, rfl, fun table => ?_⟩
  rw [declare_rest hs, declare_rest hs', hdeclared]

/-- A variable keeps the type that it has been given first. -/
theorem settlesStmts_assign (he : Settles e) (x m n) :
    SettlesStmts (.assign [.name x m] e n :: rest) := by
  intro want env ρ ss' t h
  cases want with
  | none =>
    obtain ⟨he, h⟩ := he.parted h
    obtain @⟨found, _, hfound, h⟩ := parted h
    cases found with
    | some u | none =>
      obtain ⟨hx, h⟩ := parted h
      exact hrest.followed h rfl rfl fun _ _ hnext => he (hfound (hx hnext))
  | some w =>
    obtain @⟨found, _, hfound, h⟩ := parted h
    cases found with
    | some u | none =>
      obtain ⟨he, h⟩ := he.parted h
      obtain ⟨hx, h⟩ := parted h
      exact hrest.followed h rfl rfl fun _ _ hnext => hfound (he (hx hnext))

/-- A conditional has the type of its branches only if it comes last. -/
theorem settlesStmts_ite (htest : Settles test) (hyes : SettlesStmts yes)
    (hno : SettlesStmts no) (n) :
    SettlesStmts (.ite test yes no n :: rest) := by
  intro want env ρ ss' t h
  rcases rest with _ | ⟨s1, rest⟩ <;> obtain ⟨htest, h⟩ := htest.parted h <;>
    obtain ⟨hr, h⟩ := parted h <;> obtain ⟨hyes, h⟩ := hyes.parted h <;>
    obtain ⟨hno, h⟩ := hno.parted h <;> obtain ⟨hsu, h⟩ := parted h
  · cases h
    exact ⟨htest (hr (hyes (hno (hsu rfl)))), rfl, fun _ => rfl⟩
  · obtain ⟨⟨rest', v⟩, ρ6, hrest1, h⟩ := bind_ok h
    cases h
    have hsettled := hrest hrest1
    cases rest' with
    | nil => cases hsettled.empty
    | cons s2 rest' =>
      exact ⟨htest (hr (hyes (hno (hsu (run_bind hsettled.again rfl))))), rfl, hsettled.declared⟩

theorem settlesStmts_loop (htest : Settles test) (hbody : SettlesStmts body) (n) :
    SettlesStmts (.loop test body [] n :: rest) := by
  intro want env ρ ss' t h
  obtain ⟨htest, h⟩ := htest.parted h
  obtain ⟨hr, h⟩ := parted h
  obtain ⟨hbody, h⟩ := hbody.parted h
  exact hrest.followed h rfl rfl fun _ _ hnext => htest (hr (hbody hnext))

theorem settlesStmts_print (ha : Settles a) (k m n) :
    SettlesStmts (.expr (.call (.name "print" k) [a] m) n :: rest) := by
  intro want env ρ ss' t h
  obtain ⟨_, ρ1, hprinted, h⟩ := bind_ok h
  obtain ⟨ha, hprinted⟩ := ha.parted hprinted
  obtain ⟨hs, hprinted⟩ := parted hprinted
  cases hprinted
  exact hrest.followed h rfl rfl fun _ _ hnext => run_bind (ha (hs rfl)) hnext

theorem settlesStmts_expr (he : Settles e) (n)
    (hprint : ¬∃ k a m, e = .call (.name "print" k) [a] m) : SettlesStmts (.expr e n :: rest) := by
  intro want env ρ ss' t h
  have hrule (want e rest) := checkStmts_expression (c := .lambdas) (by simp) want e n rest
  rw [(hrule ..).resolve_left hprint] at h
  obtain ⟨⟨e', s⟩, ρ1, he1, h⟩ := bind_ok h
  have hself := (he he1).self
  have hprint' : ¬∃ k a m, e' = .call (.name "print" k) [a] m := by
    rintro ⟨k, a, m, rfl⟩
    cases hself
  refine hrest.followed h rfl rfl fun _ _ hnext => ?_
  rw [(hrule ..).resolve_left hprint']
  exact run_bind hself hnext

theorem store_again (hb : Settles b) (hi : Settles i) (he : Settles e)
    (h : (checkStmts .lambdas none (.assign [.subscript b i .store m] e n :: rest)).run env =
      .ok ((ss', t), ρ)) :
    ∃ b' i' e' rest', ss' = .assign [.subscript b' i' .store m] e' n :: rest' ∧
      isConst i' = isConst i ∧
      SettledStmts none env (.assign [.subscript b i .store m] e n :: rest) ss' t ρ := by
  obtain ⟨⟨b', s⟩, ρ1, hb1, h⟩ := checked b h
  obtain ⟨he, h⟩ := he.parted h
  obtain ⟨⟨i', v⟩, ρ3, hi1, h⟩ := bind_ok h
  obtain ⟨hv, h⟩ := parted h
  obtain ⟨b'', hb'', hsame⟩ := (hb hb1).withType s
  have hconst := (hi hi1).const
  -- the aggregate comes back with another type at its top, which is recorded over
  rw [← hsame s] at h hb''
  cases s with
  | tuple ts f =>
    cases i' with
    | const k l =>
      cases k with
      | int k id =>
        dsimp only at h
        split at h
        · next hk =>
          obtain ⟨hw, h⟩ := parted h
          obtain ⟨hwu, h⟩ := parted h
          obtain ⟨rest', rfl, -⟩ := follow_ok hrest h
          refine ⟨_, _, _, _, rfl, hconst, hrest.followed h rfl rfl fun _ _ hnext => ?_⟩
          refine run_bind hb'' (he (run_bind (hi hi1).self (hv ?_)))
          dsimp only
          rw [if_pos hk]
          exact hw (hwu hnext)
        · cases h
      | _ => cases h
    | _ => cases h
  | list w =>
    obtain ⟨hwu, h⟩ := parted h
    obtain ⟨rest', rfl, -⟩ := follow_ok hrest h
    exact ⟨_, _, _, _, rfl, hconst, hrest.followed h rfl rfl fun _ _ hnext =>
      run_bind hb'' (he (run_bind (hi hi1).self (hv (hwu hnext))))⟩
  | bottom =>
    obtain ⟨rest', rfl, -⟩ := follow_ok hrest h
    exact ⟨_, _, _, _, rfl, hconst, hrest.followed h rfl rfl fun _ _ hnext =>
      run_bind hb'' (he (run_bind (hi hi1).self (hv hnext)))⟩
  | _ => cases h

/-- The part of a tuple at a constant index is stored against its type. -/
theorem settlesStmts_store (hb : Settles b) (hi : Settles i) (he : Settles e)
    (m n) :
    SettlesStmts (.assign [.subscript b i .store m] e n :: rest) := by
  intro want env ρ ss' t h
  cases want with
  | none =>
    obtain ⟨b', i', e', rest', rfl, -, hsettled⟩ := store_again hrest hb hi he h
    exact hsettled
  | some w =>
    cases hconst : isConst i with
    | false =>
      rw [checkStmts_store hconst] at h
      obtain ⟨b', i', e', rest', rfl, hi', hsettled⟩ := store_again hrest hb hi he h
      refine { hsettled with again := ?_ }
      rw [checkStmts_store (hi'.trans hconst)]
      exact hsettled.again
    | true =>
      cases i with
      | const k l =>
        obtain @⟨⟨b', s⟩, _, hb, h⟩ := hb.parted h
        cases s with
        | tuple ts f =>
          obtain ⟨hv, h⟩ := parted h
          obtain ⟨he, h⟩ := he.parted h
          exact hrest.followed h rfl rfl fun _ _ hnext => hb (hv (he hnext))
        | bottom => exact hrest.followed h rfl rfl fun _ _ hnext => hb hnext
        | _ => cases h
      | _ => cases hconst

theorem settlesStmts_annAssign (he : Settles e) (x) (hint : Ty) (k m n) :
    SettlesStmts (.annAssign (.name x m) hint e k n :: rest) := by
  intro want env ρ ss' t h
  cases want with
  | none => cases h
  | some w =>
    obtain ⟨u, ρ1, hhint, h⟩ := bind_ok h
    have hresolve := (lift_ok hhint).1
    have hu : (liftM (u.resolve .lambdas) : Check Ty).run env = .ok (u, ρ1) := by
      rwa [resolve_again hresolve, ← hresolve]
    obtain @⟨found, _, hfound, h⟩ := parted h
    cases found with
    | some _ => cases h
    | none =>
      obtain ⟨hbind, h⟩ := parted h
      obtain ⟨he, h⟩ := he.parted h
      exact hrest.followed h rfl rfl fun _ _ hnext => run_bind hu (hfound (hbind (he hnext)))

/-- The end of the rule for functions. -/
def define (s : Stmt) (want : Option Ty) (t r : Ty) (rest : List Stmt) :
    Check (List Stmt × Ty) :=
  if want.isNone then do
    equal .lambdas t r (.stmt s)
    follow s want rest
  else follow s want rest

theorem define_ok
    (h : (define s want t r rest).run env = .ok ((ss', u), ρ)) :
    ∃ rest', ss' = s :: rest' ∧ (define s want t r rest').run env = .ok ((s :: rest', u), ρ) ∧
      ∀ table, declare .lambdas table rest' = declare .lambdas table rest := by
  cases want with
  | none =>
    obtain ⟨heq, h⟩ := parted h
    obtain ⟨rest', rfl, hnext, hdeclared⟩ := follow_ok hrest h
    exact ⟨rest', rfl, heq hnext, hdeclared⟩
  | some w => exact follow_ok hrest h

/-- The beginning of the rule for functions. -/
abbrev headed (want : Option Ty) (ps : Params) (result : Ty) (message : Heap → Printed)
    (rule : List (Term × Ty) × Ty × Params → TypeTable → Check α) : Check α := do
  let header ← liftM (resolveHeader .lambdas ps result)
  let table ← ofExcept (scope header.1)
  if want.isNone && hasRepeats (header.1.map (·.1)) then tell message else rule header table

omit hrest in
/-- A checked header is checked again, and whatever comes after it is run as before. -/
theorem header_again {rule : _ → _ → Check α}
    (h : (headed want ps result message rule).run env = .ok q) :
    ∃ params t ps' table, resolveHeader .lambdas ps result = .ok (params, t, ps') ∧
      scope params = .ok table ∧ (rule (params, t, ps') table).run env = .ok q ∧
      ∀ {rule' : _ → _ → Check α} {q'}, (rule' (params, t, ps') table).run env = .ok q' →
        (headed want ps' t message rule').run env = .ok q' := by
  obtain ⟨⟨params, t, ps'⟩, hresolved, h1⟩ := bind_lift_ok h
  obtain ⟨table, ρ2, htable, h2⟩ := bind_ok h1
  obtain ⟨hscope, rfl⟩ := ofExcept_run htable
  split at h2
  · cases h2
  · next hdistinct =>
    refine ⟨params, t, ps', table, hresolved, hscope, h2, fun hrule => ?_⟩
    rw [headed, resolveHeader_again hresolved]
    refine run_bind rfl (run_bind htable ?_)
    rwa [if_neg hdistinct]

theorem settlesStmts_fundef {body} (hbody : ∀ ss, body = .stmts ss → SettlesStmts ss)
    (f ps ds result k n) :
    SettlesStmts (.fundef f ps body ds result k n :: rest) := by
  intro want env ρ ss' u h
  have hdefined {params t ps'} (hheader : resolveHeader .lambdas ps result = .ok (params, t, ps'))
      (body') {rest'}
      (hdeclared : ∀ table, declare .lambdas table rest' = declare .lambdas table rest)
      (table) : declare .lambdas table (.fundef f ps' body' ds t k n :: rest') =
        declare .lambdas table (.fundef f ps body ds result k n :: rest) := by
    rw [declare_fundef rfl rfl, declare_fundef rfl rfl, hheader, resolveHeader_again hheader]
    exact hdeclared _
  cases body with
  | stmts ss =>
    obtain ⟨params, t, ps', table, hheader, -, h, hagain⟩ := header_again h
    obtain ⟨⟨ss1, r⟩, ρ1, hin, h⟩ := bind_ok h
    obtain ⟨rest', rfl, hnext, hdeclared⟩ := define_ok hrest h
    have hin' : (inScope table (checkStmts .lambdas (want.map fun _ => t) ss1)).run env =
        .ok ((ss1, r), ρ1) := by
      obtain ⟨rfl, Θ, hrun⟩ := inScope_run hin
      exact run_inScope (hbody ss rfl hrun).again
    exact ⟨hagain (run_bind hin' hnext), rfl, hdefined hheader _ hdeclared⟩
  | _ =>
    obtain ⟨params, t, ps', table, hheader, -, h, hagain⟩ := header_again h
    obtain ⟨hforeign, h⟩ := parted h
    obtain ⟨rest', rfl, hnext, hdeclared⟩ := define_ok hrest h
    exact ⟨hagain (hforeign hnext), rfl, hdefined hheader _ hdeclared⟩

omit hrest in
theorem settles_block (hss : SettlesStmts ss) (he : Settles e) (n) : Settles (.block ss e n) := by
  intro want env ρ e' t h
  obtain ⟨hss, h⟩ := hss.parted h
  obtain ⟨he, h⟩ := he.parted h
  exact .kept h rfl rfl fun _ hfin => hss (he hfin)

end Rules

/-! ## Whole expressions and statements -/

theorem settles_refused (h : ∀ want env r, (checkExpr .lambdas want e).run env ≠ .ok r) :
    Settles e :=
  fun _ _ _ _ _ he => (h _ _ _ he).elim

theorem settlesStmts_refused (h : ∀ want env r, (checkStmts .lambdas want ss).run env ≠ .ok r) :
    SettlesStmts ss :=
  fun _ _ _ _ _ hss => (h _ _ _ hss).elim

mutual

theorem settles (e) : Settles e := by
  cases e with
  | name x n => exact settles_name x n
  | const k n => exact settles_const k n
  | arith a op b n => exact settles_arith (settles a) (settles b) op n
  | logic op es n =>
    rcases es with _ | ⟨a, _ | ⟨b, more⟩⟩
    · exact settles_refused nofun
    · exact settles_refused nofun
    · exact settles_logic (settles a) (settles b) op more n
  | unary op a n => exact settles_unary (settles a) op n
  | call f args n => exact settles_call (settles f) fun a _ => settles a
  | cond test yes no n => exact settles_cond (settles test) (settles yes) (settles no) n
  | compare a ops rs n =>
    rcases ops with _ | ⟨op, _ | ⟨op', ops⟩⟩
    · exact settles_refused nofun
    · rcases rs with _ | ⟨b, _ | ⟨b', rs⟩⟩
      · exact settles_refused nofun
      · exact settles_compare (settles a) (settles b) op n
      · exact settles_refused nofun
    · exact settles_refused nofun
  | tuple es access n =>
    cases access with
    | load => exact settles_tuple (fun a _ => settles a) n
    | _ => exact settles_refused nofun
  | list es access n =>
    cases access with
    | load => exact settles_list (fun a _ => settles a) n
    | _ => exact settles_refused nofun
  | subscript b i access n =>
    cases access with
    | load => exact settles_subscript (settles b) (settles i) n
    | _ => exact settles_refused nofun
  | lambda ps body n => exact settles_lambda (settles body) ps n
  | block ss a n => exact settles_block (settlesStmts ss) (settles a) n
  | uncheckedCast a t n => exact settles_uncheckedCast (settles a) t n
  | funRef x a n => exact settles_funRef x a n
  | closure a es n => exact settles_closure (fun a _ => settles a) a n
  | allocate l t n => exact settles_allocate l t n
  | global | allocateArray | allocateClosure | uninitialized =>
    exact settles_plain fun _ _ => rfl
  | other t => exact settles_refused (e := .other t) fun want env r => Vars.refuseTree_error
  | _ => exact settles_refused nofun
termination_by sizeOf e

theorem settlesStmts (ss) : SettlesStmts ss := by
  cases ss with
  | nil => exact settlesStmts_nil
  | cons s rest =>
    have hrest : SettlesStmts rest := settlesStmts rest
    cases s with
    | pass n | collect a n => exact fun _ _ _ _ _ h => hrest.followed h rfl rfl fun _ _ => id
    | ret e n => exact settlesStmts_ret (settles e) rest n
    | assign ts e n =>
      rcases ts with _ | ⟨t, _ | ⟨t', ts⟩⟩
      · exact settlesStmts_refused nofun
      · cases t with
        | name x m => exact settlesStmts_assign hrest (settles e) x m n
        | subscript b i access m =>
          cases access with
          | store => exact settlesStmts_store hrest (settles b) (settles i) (settles e) m n
          | _ => exact settlesStmts_refused nofun
        | _ => exact settlesStmts_refused nofun
      · cases t with
        | subscript b i access m =>
          exact settlesStmts_refused fun want env r h => by cases access <;> cases h
        | _ => exact settlesStmts_refused nofun
    | annAssign t hint e k n =>
      cases t with
      | name x m => exact settlesStmts_annAssign hrest (settles e) x hint k m n
      | _ => exact settlesStmts_refused nofun
    | expr e n =>
      by_cases hprint : ∃ k a m, e = .call (.name "print" k) [a] m
      · obtain ⟨k, a, m, rfl⟩ := hprint
        exact settlesStmts_print hrest (settles a) k m n
      · exact settlesStmts_expr hrest (settles e) n hprint
    | ite test yes no n =>
      exact settlesStmts_ite hrest (settles test) (settlesStmts yes) (settlesStmts no) n
    | loop test body no n =>
      cases no with
      | nil => exact settlesStmts_loop hrest (settles test) (settlesStmts body) n
      | cons s no => exact settlesStmts_refused nofun
    | fundef f ps body ds t k n =>
      refine settlesStmts_fundef hrest ?_ f ps ds t k n
      rintro ss rfl
      exact settlesStmts ss
    | _ => exact settlesStmts_refused nofun
termination_by sizeOf ss

end

/-! ## Programs -/

/-- A program that has been checked is checked again with the same result. -/
theorem checkModule_again {p q : Program} (h : checkModule .lambdas p = .ok q) :
    checkModule .lambdas q = .ok q := by
  have hagain := h
  unfold checkModule at h
  split at h
  · next ss n =>
    obtain ⟨env, hdeclare, h⟩ := ok_of_bind h
    obtain ⟨⟨⟨ss', t⟩, ρ⟩, hrun, h⟩ := ok_of_bind h
    cases h
    have hsettled : SettledStmts (some .int) env ss ss' t ρ := settlesStmts ss hrun
    have hdeclare' : declare .lambdas [] ss' = .ok env := (hsettled.declared []).trans hdeclare
    exact of_bind_ok hdeclare' (of_bind_ok hsettled.again rfl)
  · obtain ⟨_, -, h⟩ := ok_of_bind h
    obtain ⟨_, -, h⟩ := ok_of_bind h
    cases h
    exact hagain
  · cases h

/-- A function that gives back a lambda, applied to a part of a tuple. -/
def curried : Program :=
  let int : Term := .leaf .name [.str "int"]
  let step : Ty := .other (.leaf .subscript [.leaf .name [.str "Callable"],
    .leaf .tuple [.list [.leaf .list [.list [int]], int]]])
  .module [
    Stmt.fundef "add" (.signature [⟨"x", .other int, {}⟩] {})
      (.stmts [
        .annAssign (.name "f" {}) step (.lambda (.signature [⟨"y", .absent, {}⟩] {})
          (.arith (.name "x" {}) .add (.name "y" {}) {}) {}) .null {},
        .ret (.name "f" {}) {}]) (.list []) step .null {},
    .assign [.name "p" {}] (.tuple [.const (.int 1 0) {}, .const (.int 2 0) {}] .load {}) {},
    .expr (.call (.name "print" {}) [.call (.call (.name "add" {})
      [.subscript (.name "p" {}) (.const (.int 0 0) {}) .load {}] {})
      [.const (.int 3 0) {}] {}] {}) {}] {}

theorem checkModule_again_curried :
    ∃ q, checkModule .lambdas curried = .ok q ∧ checkModule .lambdas q = .ok q :=
  ⟨_, rfl, checkModule_again (p := curried) rfl⟩

end CompilerKit.Lambdas
