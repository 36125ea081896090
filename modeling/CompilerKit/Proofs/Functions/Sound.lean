import CompilerKit.Proofs.Calls
import CompilerKit.Proofs.Functions.Store

/-!
# Soundness of the type system of the language of functions

A typed program runs in stores that fit a world. Each rule of evaluation keeps that, and gives a
value of the type that the checker has found, with what the rule is built from doing so for one step
less.

* `kept_evalExpr`, `kept_evalStmt`, `kept_applyValue`: the rules, with a case for each form.
* `soundAt`: all of them together, by induction on the fuel.
* `accepted_program_sound`: the run of an accepted program, from the store that it starts in.
-/

namespace CompilerKit.Functions

open Run List Bindings EStateM

/-! ## Statements in sequence -/

variable {i : Nat} {test : Expr} {k : Note} {ss : List Stmt}

namespace Mode

/-- What the value of the statements has to be. -/
def Gives (ds : List Def) (w : World) : Mode → Value → Prop
  | body t, v => HasTy ds w v t
  | _, _ => True

/-- The environment that the statements are run in: a program is run in that of the main program. -/
def RunsIn (ds : List Def) (w : World) (i : Nat) : Mode → Prop
  | main ds' => ds' = ds ∧ i = w.top
  | _ => True

variable {m : Mode}

theorem RunsIn.mono (h : m.RunsIn ds w i) (hw : w.Grows w') : m.RunsIn ds w' i := by
  cases m with
  | main ds' => exact ⟨h.1, h.2.trans hw.top.symm⟩
  | _ => trivial

theorem Allows.of_parts (h : m.Allows s) (hs : stmtParts s' ⊆ stmtParts s) : m.Allows s' := by
  cases m with
  | body t => exact h.imp_right fun h p hp => h p (hs hp)
  | _ => trivial

theorem Allows.gives_none {ds w body} (h : m.Allows (.loop test body [] k)) :
    m.Gives ds w .none := by
  cases m with
  | body t =>
    rcases h with rfl | hloop
    · exact .none
    · cases hloop _ mem_cons_self
  | _ => trivial

end Mode

theorem stmtParts_subset (hs : s ∈ ss) : stmtParts s ⊆ stmtsParts ss := by
  induction ss with
  | nil => cases hs
  | cons t ss ih =>
    rcases mem_cons.mp hs with rfl | hs
    · exact subset_append_left _ _
    · exact Subset.trans (ih hs) (subset_append_right _ _)

theorem TypedStmts.append (hss : TypedStmts Γ (.block m.result) ss)
    (hm : ∀ s ∈ ss, m.Allows s) (hrest : TypedStmts Γ m rest) : TypedStmts Γ m (ss ++ rest) := by
  induction ss with
  | nil => exact hrest
  | cons s ss ih =>
    rw [forall_mem_cons] at hm
    cases hss with
    | cons hs _ hss => exact .cons hs hm.1 (ih hss hm.2)
    | ret n _ he hret => exact .ret n _ he hret

/-- The statements in a conditional or in a loop are in lists, so they can be run. -/
theorem of_hasLists (h : hasLists k) :
    k.tuples.contains 1 = false ∧ k.tuples.contains 2 = false := by
  rwa [hasLists, Bool.and_eq_true, Bool.not_eq_true', Bool.not_eq_true'] at h

theorem Def.of_ofStmt? (h : Def.ofStmt? s = some d) :
    ∃ ps ds l k, s = .fundef d.name ps (.stmts d.body) ds d.result l k ∧
      paramTable? ps = some d.params := by
  cases s with
  | fundef f ps body ds r l k =>
    cases body with
    | stmts ss =>
      obtain ⟨params, hps, rfl⟩ := Option.map_eq_some_iff.mp h
      exact ⟨ps, ds, l, k, rfl, hps⟩
    | _ => cases h
  | _ => cases h

/-! ## Rules -/

/-- What evaluation does with some fuel: it gives values of the types that the checker has found, in
stores that fit larger worlds. -/
structure SoundAt (table : TypeTable) (ss : List Stmt) (n : Nat) : Prop where
  expr : ∀ {i}, Fits table ss w σ → w.envs i = some Γ → Typed Γ e t →
    KeptTy table ss w t ((evalExpr .functions n i e).run σ)
  logic : ∀ {i} (op : LogicOp), Fits table ss w σ → w.envs i = some Γ → Typed Γ a .bool →
    Typed Γ b .bool → KeptTy table ss w .bool ((evalLogic .functions n i op a b).run σ)
  call : ∀ {i m k}, Fits table ss w σ → w.envs i = some Γ → Typed Γ (.call (.name f m) args k) t →
    KeptTy table ss w t ((evalCall .functions n i (.call (.name f m) args k) f args).run σ)
  apply : ∀ (id : Nat), Fits table ss w σ → d ∈ defs ss →
    ArgsTyped (defs ss) w vs (d.params.map Prod.snd) →
    KeptTy table ss w d.result ((applyValue .functions n (d.value w.top id) vs).run σ)
  stmt : ∀ {i m}, Fits table ss w σ → w.envs i = some Γ → m.RunsIn (defs ss) w i →
    TypedStmts Γ m (s :: rest) →
    Kept table ss w (fun w v => m.Gives (defs ss) w v) ((evalStmt .functions n i s rest).run σ)
  stmts : ∀ {i m}, Fits table ss w σ → w.envs i = some Γ → m.RunsIn (defs ss) w i →
    TypedStmts Γ m ts →
    Kept table ss w (fun w v => m.Gives (defs ss) w v) ((evalStmts .functions n i ts).run σ)

section

variable {n : Nat} {w : World} {σ : Store}

variable {vs : List Value} {m : Mode} {rest : List Stmt}
variable {d : Def}

theorem soundAt_zero (table ss) : SoundAt table ss 0 where
  expr _ _ _ := .error .outOfFuel
  logic _ _ _ _ _ := .error .outOfFuel
  call _ _ _ := .error .outOfFuel
  apply _ _ _ _ := .error .outOfFuel
  stmt _ _ _ _ := .error .outOfFuel
  stmts _ _ _ _ := .error .outOfFuel

theorem hasTy_const (hc : constantType? .functions c = some t) : HasTy (defs ss) w c t := by
  cases c with
  | int k id =>
    cases hc
    exact .int k id
  | bool b =>
    cases hc
    exact .bool b
  | none =>
    cases hc
    exact .none
  | _ => cases hc

theorem seqTyped_tuple (hvs : HasTys (defs ss) w vs ts) :
    SeqTyped (defs ss) w ⟨true, vs.toArray⟩ (.tuple ts) where
  isList := rfl
  size us b hus := by
    cases hus
    exact hvs.length_eq
  cells j v hv := hvs.get (by simpa using hv)

theorem seqTyped_list (hvs : HasTys (defs ss) w vs ts) (hts : ∀ u ∈ ts, u = t) :
    SeqTyped (defs ss) w ⟨true, vs.toArray⟩ (.list t) where
  isList := rfl
  size us b hus := by cases hus
  cells j v hv := by
    obtain ⟨u, hu, htyped⟩ := hvs.get (i := j) (by simpa using hv)
    rw [hts u (mem_of_getElem? hu)] at htyped
    exact ⟨t, rfl, htyped⟩

theorem evalExpr_call (args k) (hf : name? f = none) :
    evalExpr .functions (n + 1) i (.call f args k) = (do
      let g ← evalExpr .functions n i f
      let vs ← args.mapM (evalExpr .functions n i)
      applyValue .functions n g vs) := by
  cases f with
  | name x m => cases hf
  | _ => rfl

theorem declared_of_paramTable (h : paramTable? ps = some params) :
    ps.declared = .ok (.names (params.map Prod.fst)) := by
  cases ps with
  | typed qs =>
    cases h
    rfl
  | names xs =>
    cases xs with
    | nil =>
      cases h
      rfl
    | cons x xs => cases h
  | _ => cases h

theorem Typed.ne_print (he : Typed Γ e t) (l a m) : e ≠ .call (.name "print" l) [a] m := by
  intro h
  generalize hcall : Expr.call (.name "print" l) [a] m = b at h
  subst h
  cases he with
  | call _ _ hcallee _ _ =>
    cases hcall
    cases hcallee "print" rfl
  | _ => simp at hcall

variable (hn : SoundAt table ss n) (hσ : Fits table ss w σ) (hi : w.envs i = some Γ)
include hn hσ hi

theorem kept_exprs (hes : TypedExprs Γ es ts) :
    Kept table ss w (fun w vs => HasTys (defs ss) w vs ts)
      ((es.mapM (evalExpr .functions n i)).run σ) := by
  induction es generalizing w σ ts with
  | nil =>
    cases hes
    exact .ok (.refl w) .nil hσ
  | cons e es ih =>
    cases hes with
    | cons he hes =>
      rw [mapM_cons]
      refine (hn.expr hσ hi he).bind fun v w1 σ1 hw1 hv hσ1 => ?_
      refine (ih hσ1 (hw1.envs i Γ hi) hes).bind fun vs w2 σ2 hw2 hvs hσ2 => ?_
      exact .ok (.refl w2) (.cons (hv.mono hw2) hvs) hσ2

/-- Two operands, and what is done with their values. -/
theorem kept_pair {P : World → α → Prop} {f : Value → Value → Run α} (ha : Typed Γ a t)
    (hb : Typed Γ b u) (hf : ∀ x y w' σ', w.Grows w' → HasTy (defs ss) w' x t →
      HasTy (defs ss) w' y u → Fits table ss w' σ' → Kept table ss w' P ((f x y).run σ')) :
    Kept table ss w P ((do
      let x ← evalExpr .functions n i a
      let y ← evalExpr .functions n i b
      f x y).run σ) := by
  refine (hn.expr hσ hi ha).bind fun x w1 σ1 hw1 hx hσ1 => ?_
  refine (hn.expr hσ1 (hw1.envs i Γ hi) hb).bind fun y w2 σ2 hw2 hy hσ2 => ?_
  exact hf x y w2 σ2 (hw1.trans hw2) (hx.mono hw2) hy hσ2

theorem kept_evalLogic (op) (ha : Typed Γ a .bool) (hb : Typed Γ b .bool) :
    KeptTy table ss w .bool ((evalLogic .functions (n + 1) i op a b).run σ) := by
  refine (hn.expr hσ hi ha).bind fun x w1 σ1 hw1 hx hσ1 => ?_
  have hb := hn.expr hσ1 (hw1.envs i Γ hi) hb
  obtain ⟨c, rfl⟩ := hx.exists_bool
  cases op with
  | and =>
    cases c with
    | true => exact hb
    | false => exact .ok (.refl w1) (.bool false) hσ1
  | or =>
    cases c with
    | true => exact .ok (.refl w1) (.bool true) hσ1
    | false => exact hb

omit hn hi in
theorem kept_const (c m) :
    Kept table ss w (fun _ v => v = c) ((evalExpr .functions n i (.const c m)).run σ) := by
  cases n with
  | zero => exact .error .outOfFuel
  | succ n => exact .ok (.refl w) rfl hσ

omit hn hi in
theorem kept_load (hv : HasTy (defs ss) w v t) (hx : HasTy (defs ss) w x .int)
    (hcell : ∀ k id, x = .int k id → CellAt t k u) :
    KeptTy table ss w u ((do checkIndex v x; plainItem v x : Run Value).run σ) := by
  obtain ⟨k, id, rfl⟩ := hx.exists_int
  have hcell := hcell k id rfl
  refine (kept_checkIndex hσ hv hcell.isAggregate k id).bind fun _ w1 σ1 hw1 _ hσ1 => ?_
  exact kept_item hσ1 (hv.mono hw1) hcell id

theorem kept_store {P : World → α → Prop} {f : Unit → Run α}
    (hv : HasTy (defs ss) w v t) (hx : HasTy (defs ss) w x .int)
    (hcell : ∀ k id, x = .int k id → CellAt t k u) (he : Typed Γ e u)
    (hf : ∀ r w' σ', w.Grows w' → Fits table ss w' σ' → Kept table ss w' P ((f r).run σ')) :
    Kept table ss w P ((do
      checkIndex v x
      let c ← evalExpr .functions n i e
      let r ← plainSetItem v x c
      f r : Run α).run σ) := by
  obtain ⟨k, id, rfl⟩ := hx.exists_int
  have hcell := hcell k id rfl
  refine (kept_checkIndex hσ hv hcell.isAggregate k id).bind fun _ w1 σ1 hw1 _ hσ1 => ?_
  refine (hn.expr hσ1 (hw1.envs i Γ hi) he).bind fun c w2 σ2 hw2 hc hσ2 => ?_
  have hset := kept_setItem hσ2 ((hv.mono hw1).mono hw2) hcell id hc
  exact hset.bind fun r w3 σ3 hw3 _ hσ3 => hf r w3 σ3 ((hw1.trans hw2).trans hw3) hσ3

theorem kept_apply (hf : Typed Γ f (.function ps r b))
    (hargs : TypedExprs Γ args ts) (hts : ∀ p ∈ ts.zip ps, p.1 = p.2) :
    KeptTy table ss w r ((do
      let g ← evalExpr .functions n i f
      let vs ← args.mapM (evalExpr .functions n i)
      applyValue .functions n g vs).run σ) := by
  refine (hn.expr hσ hi hf).bind fun g w1 σ1 hw1 hg hσ1 => ?_
  refine (kept_exprs hn hσ1 (hw1.envs i Γ hi) hargs).bind fun vs w2 σ2 hw2 hvs hσ2 => ?_
  obtain ⟨d, hd, id, rfl, rfl, rfl⟩ := (hg.mono hw2).exists_def
  exact hn.apply id hσ2 hd (hvs.argsTyped hts)

theorem kept_evalExpr (he : Typed Γ e t) :
    KeptTy table ss w t ((evalExpr .functions (n + 1) i e).run σ) := by
  have htyped := he
  cases he with
  | name _ hx | funRef _ _ hx => exact kept_lookup hσ hi hx
  | const m hc => exact .ok (.refl w) (hasTy_const hc) hσ
  | global x m => exact keptTy_plainly hσ (Loops.plainly_number σ 0)
  | neg m ha =>
    refine (hn.expr hσ hi ha).bind fun x w1 σ1 hw1 hx hσ1 => ?_
    exact keptTy_plainly hσ1 (Loops.plainly_neg σ1 hx.isInt)
  | not m ha =>
    refine (hn.expr hσ hi ha).bind fun x w1 σ1 hw1 hx hσ1 => ?_
    exact keptTy_plainly hσ1 (Loops.plainly_not σ1 x)
  | @arith a b op m hop ha hb =>
    change KeptTy table ss w .int
      ((if hasArith .functions op = true then _ else _ : Run Value).run σ)
    rw [if_pos hop]
    refine kept_pair hn hσ hi ha hb fun x y w1 σ1 _ hx hy hσ1 => ?_
    exact keptTy_plainly hσ1 (Loops.plainly_arithValues σ1 rfl hop hx.isInt hy.isInt)
  | logic op more m ha hb => exact hn.logic op hσ hi ha hb
  | cond m htest hyes hno =>
    refine (hn.expr hσ hi htest).bind fun x w1 σ1 hw1 hx hσ1 => ?_
    obtain ⟨c, rfl⟩ := hx.exists_bool
    cases c with
    | true => exact hn.expr hσ1 (hw1.envs i Γ hi) hyes
    | false => exact hn.expr hσ1 (hw1.envs i Γ hi) hno
  | compare m hop ht ha hb =>
    refine kept_pair hn hσ hi ha hb fun x y w1 σ1 _ hx hy hσ1 => ?_
    exact kept_compareValues hσ1 hop ht hx hy
  | block m hss hr =>
    refine (hn.stmts (m := .block none) hσ hi trivial hss).bind fun _ w1 σ1 hw1 _ hσ1 => ?_
    exact hn.expr hσ1 (hw1.envs i Γ hi) hr
  | tuple m hes =>
    refine (kept_exprs hn hσ hi hes).bind fun vs w1 σ1 hw1 hvs hσ1 => ?_
    exact kept_newList hσ1 (.tuple _ _) (seqTyped_tuple hvs)
  | list m hes hts =>
    refine (kept_exprs hn hσ hi hes).bind fun vs w1 σ1 hw1 hvs hσ1 => ?_
    exact kept_newList hσ1 (.list _) (seqTyped_list hvs (forall_mem_cons.mpr ⟨rfl, hts⟩))
  | part id l m hb hk =>
    refine (hn.expr hσ hi hb).bind fun v w1 σ1 hw1 hv hσ1 => ?_
    refine (kept_const hσ1 _ l).bind fun x w2 σ2 hw2 hx hσ2 => ?_
    subst hx
    exact kept_load hσ2 (hv.mono hw2) (.int _ id) fun k id hx => by cases hx; exact .part hk
  | item m hb hx =>
    refine kept_pair hn hσ hi hb hx fun v x w1 σ1 _ hv hx hσ1 => ?_
    exact kept_load hσ1 hv hx fun k id _ => .item _ k
  | input | len | arrayLen | arrayLoad | arrayStore => exact hn.call hσ hi htyped
  | @call f args ps ts r b k hf hcallee hargs hts =>
    cases hname : name? f with
    | none =>
      rw [evalExpr_call args k hname]
      exact kept_apply hn hσ hi hf hargs hts
    | some x =>
      cases f with
      | name y m => exact hn.call hσ hi (.call k hf hcallee hargs hts)
      | _ => cases hname

theorem kept_evalCall {f m} (he : Typed Γ (.call (.name f m) args k) t) :
    KeptTy table ss w t
      ((evalCall .functions (n + 1) i (.call (.name f m) args k) f args).run σ) := by
  cases he with
  | input m k =>
    refine (keptTy_plainly hσ (Loops.plainly_readInt σ)).bind fun v w1 σ1 hw1 hv hσ1 => ?_
    exact .ok (.refl w1) hv hσ1
  | len m k hb ht =>
    refine (hn.expr hσ hi hb).bind fun v w1 σ1 hw1 hv hσ1 => ?_
    exact kept_len hσ1 hv ht
  | arrayLen m k hb =>
    refine (hn.expr hσ hi hb).bind fun v w1 σ1 hw1 hv hσ1 => ?_
    exact kept_len hσ1 hv (.list _)
  | arrayLoad m k hb hx =>
    refine kept_pair hn hσ hi hb hx fun v x w1 σ1 _ hv hx hσ1 => ?_
    exact kept_load hσ1 hv hx fun k id _ => .item _ k
  | arrayStore m k hb hx hc =>
    refine kept_pair hn hσ hi hb hx fun v x w1 σ1 hw1 hv hx hσ1 => ?_
    refine kept_store hn hσ1 (hw1.envs i Γ hi) hv hx (fun k id _ => .item _ k) hc ?_
    exact fun _ w2 σ2 _ hσ2 => .ok (.refl w2) .none hσ2
  | call k hf hcallee hargs hts =>
    rw [evalCall_of_not_builtin rfl rfl (hcallee f rfl)]
    cases hf with
    | name _ hx => exact kept_apply hn hσ hi (.name {} hx) hargs hts

/-! ## Functions and statements -/

omit hi in
theorem kept_applyValue (hp : TypedProgram table ss) (id) (hd : d ∈ defs ss)
    (hvs : ArgsTyped (defs ss) w vs (d.params.map Prod.snd)) :
    KeptTy table ss w d.result ((applyValue .functions (n + 1) (d.value w.top id) vs).run σ) := by
  obtain ⟨hdistinct, Δ, hΔ, hbody⟩ := hp.functions d hd
  refine (kept_enter hσ hp hd hΔ hdistinct hvs).bind fun i w1 σ1 hw1 hi hσ1 => ?_
  exact hn.stmts (m := .body d.result) hσ1 hi trivial hbody

theorem kept_ite (hk : hasLists k) (hm : m.RunsIn (defs ss) w i)
    (htest : Typed Γ test .bool) (hyes : TypedStmts Γ m (yes ++ rest))
    (hno : TypedStmts Γ m (no ++ rest)) :
    Kept table ss w (fun w v => m.Gives (defs ss) w v)
      ((evalStmt .functions (n + 1) i (.ite test yes no k) rest).run σ) := by
  obtain ⟨hk1, hk2⟩ := of_hasLists hk
  refine (hn.expr hσ hi htest).bind fun x w1 σ1 hw1 hx hσ1 => ?_
  have hnext {ts : List Stmt} (hts : TypedStmts Γ m ts) :=
    hn.stmts hσ1 (hw1.envs i Γ hi) (hm.mono hw1) hts
  obtain ⟨c, rfl⟩ := hx.exists_bool
  cases c with
  | true =>
    rw [hk1]
    exact hnext hyes
  | false =>
    rw [hk2]
    exact hnext hno

/-- After the body, the loop is run again with all that follows it. What comes out then is nothing,
whatever has been returned. -/
theorem kept_loop (hk : hasLists k) (hm : m.RunsIn (defs ss) w i)
    (htest : Typed Γ test .bool) (hgives : ∀ w, m.Gives (defs ss) w .none)
    (hbody : TypedStmts Γ m (body ++ .loop test body [] k :: rest)) (hrest : TypedStmts Γ m rest) :
    Kept table ss w (fun w v => m.Gives (defs ss) w v)
      ((evalStmt .functions (n + 1) i (.loop test body [] k) rest).run σ) := by
  obtain ⟨hk1, -⟩ := of_hasLists hk
  refine (hn.expr hσ hi htest).bind fun x w1 σ1 hw1 hx hσ1 => ?_
  have hnext {ts : List Stmt} (hts : TypedStmts Γ m ts) :=
    hn.stmts hσ1 (hw1.envs i Γ hi) (hm.mono hw1) hts
  obtain ⟨c, rfl⟩ := hx.exists_bool
  cases c with
  | true =>
    rw [hk1]
    refine (hnext hbody).bind fun _ w2 σ2 _ _ hσ2 => ?_
    exact .ok (.refl w2) (hgives w2) hσ2
  | false => exact hnext hrest

theorem kept_define (htop : i = w.top) (hd : Def.ofStmt? s = some d) (hmem : d ∈ defs ss)
    (hx : get? Γ d.name = some d.type) (hrest : TypedStmts Γ (.main (defs ss)) rest) :
    Kept table ss w (fun _ _ => True) ((evalStmt .functions (n + 1) i s rest).run σ) := by
  obtain ⟨ps, ds, l, k, rfl, hps⟩ := Def.of_ofStmt? hd
  subst htop
  change Kept table ss w _ ((do
    let xs ← ofExcept ps.declared
    let v ← newFunction d.name xs (.stmts d.body) w.top
    assign w.top d.name v
    evalStmts .functions n w.top rest).run σ)
  rw [declared_of_paramTable hps]
  have hσ' : Fits table ss w { σ with next := σ.next + 1 } := hσ.congr rfl rfl
  refine (kept_assign hσ' hi hx (.function hmem σ.next)).bind fun _ w1 σ1 hw1 _ hσ1 => ?_
  exact hn.stmts (m := .main (defs ss)) hσ1 (hw1.envs _ Γ hi) ⟨rfl, hw1.top.symm⟩ hrest

theorem kept_evalStmt (hm : m.RunsIn (defs ss) w i) (hs : TypedStmts Γ m (s :: rest)) :
    Kept table ss w (fun w v => m.Gives (defs ss) w v)
      ((evalStmt .functions (n + 1) i s rest).run σ) := by
  cases hs with
  | ret k _ he ht =>
    refine (hn.expr hσ hi he).mono fun w' v hv => ?_
    cases m with
    | body t =>
      obtain rfl := ht t rfl
      exact hv
    | _ => trivial
  | @last t test yes no k hk htest hyes hno =>
    rw [← append_nil yes] at hyes
    rw [← append_nil no] at hno
    exact kept_ite hn hσ hi hk hm htest hyes hno
  | define hd hmem hx hrest =>
    obtain ⟨rfl, htop⟩ := hm
    exact kept_define hn hσ hi htop hd hmem hx hrest
  | cons hs hallows hrest =>
    have hnext {w' : World} {σ' : Store} (hw' : w.Grows w') (hσ' : Fits table ss w' σ') :=
      hn.stmts hσ' (hw'.envs i Γ hi) (hm.mono hw') hrest
    cases hs with
    | print l k m he =>
      refine (hn.expr hσ hi he).bind fun v w1 σ1 hw1 hv hσ1 => ?_
      have hprint : KeptUnit table ss w1 ((print v).run σ1) :=
        kept_plainly hσ1 (Loops.plainly_print σ1 hv.isInt) fun _ h => h
      exact hprint.bind fun _ w2 σ2 hw2 _ hσ2 => hnext (hw1.trans hw2) hσ2
    | expr k he =>
      rw [evalStmt_expr he.ne_print]
      exact (hn.expr hσ hi he).bind fun _ w1 σ1 hw1 _ hσ1 => hnext hw1 hσ1
    | assign l k hx he =>
      refine (hn.expr hσ hi he).bind fun v w1 σ1 hw1 hv hσ1 => ?_
      have hassign := kept_assign hσ1 (hw1.envs i Γ hi) hx hv
      exact hassign.bind fun _ w2 σ2 hw2 _ hσ2 => hnext (hw1.trans hw2) hσ2
    | storePart id l k m hb hk he =>
      refine (hn.expr hσ hi hb).bind fun v w1 σ1 hw1 hv hσ1 => ?_
      refine (kept_const hσ1 _ l).bind fun x w2 σ2 hw2 hx hσ2 => ?_
      subst hx
      have hw2 := hw1.trans hw2
      refine kept_store hn hσ2 (hw2.envs i Γ hi) (hv.mono ‹_›) (.int _ id)
        (fun k id hx => by cases hx; exact .part hk) he ?_
      exact fun _ w3 σ3 hw3 hσ3 => hnext (hw2.trans hw3) hσ3
    | storeItem k m hb hx he =>
      refine kept_pair hn hσ hi hb hx fun v x w1 σ1 hw1 hv hx hσ1 => ?_
      refine kept_store hn hσ1 (hw1.envs i Γ hi) hv hx (fun k id _ => .item _ k) he ?_
      exact fun _ w2 σ2 hw2 hσ2 => hnext (hw1.trans hw2) hσ2
    | @ite _ test yes no k hk htest hyes hno =>
      have hyes' := yes_subset test yes no k
      have hno' := no_subset test yes no k
      refine kept_ite hn hσ hi hk hm htest (hyes.append ?_ hrest) (hno.append ?_ hrest)
      · exact fun s hs => hallows.of_parts (Subset.trans (stmtParts_subset hs) hyes')
      · exact fun s hs => hallows.of_parts (Subset.trans (stmtParts_subset hs) hno')
    | @loop _ test body k hk htest hbody =>
      have hbody' := body_subset test body k
      refine kept_loop hn hσ hi hk hm htest ?_ (hbody.append ?_ ?_) hrest
      · exact fun w => hallows.gives_none
      · exact fun s hs => hallows.of_parts (Subset.trans (stmtParts_subset hs) hbody')
      · exact .cons (.loop hk htest hbody) hallows hrest
    | collect a k => exact hnext (.refl w) hσ

omit hi in
theorem kept_evalStmts (hi : w.envs i = some Γ) {ts} (hm : m.RunsIn (defs ss) w i)
    (hts : TypedStmts Γ m ts) :
    Kept table ss w (fun w v => m.Gives (defs ss) w v)
      ((evalStmts .functions (n + 1) i ts).run σ) := by
  cases ts with
  | cons s rest => exact hn.stmt hσ hi hm hts
  | nil =>
    cases hts with
    | nil hend =>
      refine .ok (.refl w) ?_ (hσ.congr rfl rfl)
      cases m with
      | body t =>
        cases hend
        exact .zero sharedId
      | _ => trivial

end

/-- Evaluation keeps stores that fit a world, with any fuel. -/
theorem soundAt (hp : TypedProgram table ss) (n) : SoundAt table ss n := by
  induction n with
  | zero => exact soundAt_zero table ss
  | succ n hn =>
    exact {
      expr := fun hσ hi he => kept_evalExpr hn hσ hi he
      logic := fun op hσ hi ha hb => kept_evalLogic hn hσ hi op ha hb
      call := fun hσ hi he => kept_evalCall hn hσ hi he
      apply := fun id hσ hd hvs => kept_applyValue hn hσ hp id hd hvs
      stmt := fun hσ hi hm hs => kept_evalStmt hn hσ hi hm hs
      stmts := fun hσ hi hm hts => kept_evalStmts hn hσ hi hm hts }

/-! ## Programs -/

/-- The world that a program begins in. -/
def World.start (table : TypeTable) (top : Nat) : World where
  seqs _ := none
  envs i := if i = top then some table else none
  top := top

theorem World.of_envs_start {top} (h : (World.start table top).envs i = some Γ) :
    i = top ∧ Γ = table := by
  change (if i = top then some table else none) = some Γ at h
  split at h
  · next hi => exact ⟨hi, (Option.some.inj h).symm⟩
  · cases h

section

variable (hp : TypedProgram table ss)
include hp

theorem fits_start (σ : Store) :
    Fits table ss (.start table σ.envs.size) { σ with envs := σ.envs.push [] } where
  seqs p t h := by cases h
  envs i Γ hi := by
    obtain ⟨rfl, -⟩ := World.of_envs_start hi
    exact ⟨[], Array.getElem?_push_size, fun x v t hx _ => by cases hx⟩
  main := if_pos rfl
  names env x v henv hx := by
    cases Array.getElem?_push_size.symm.trans henv
    cases hx
  known i Γ x t hi hx := by
    obtain ⟨-, rfl⟩ := World.of_envs_start hi
    exact (hp.known x t hx).imp_right .inl

theorem kept_applyMain (hσ : Fits table ss w σ)
    (hmain : ∀ t, get? table "main" = some t → ∃ ps r b, t = .function ps r b) (n) :
    KeptUnit table ss w ((applyMain .functions n w.top).run σ) := by
  obtain ⟨env, henv, htyped⟩ := hσ.envs w.top table hσ.main
  rw [applyMain, run_bind, Vars.run_envAt henv]
  cases hget : get? env "main" with
  | none =>
    simp only [hget]
    exact .ok (.refl w) trivial hσ
  | some v =>
    simp only [hget]
    obtain ⟨t, ht⟩ := hσ.names env "main" v henv hget
    obtain ⟨ps, r, b, rfl⟩ := hmain t ht
    obtain ⟨d, hd, id, rfl, rfl, rfl⟩ := (htyped "main" v _ hget ht).exists_def
    have hvs : ArgsTyped (defs ss) w [] (d.params.map Prod.snd) := fun j v t hv _ => by cases hv
    refine ((soundAt hp n).apply id hσ hd hvs).bind fun _ w1 σ1 _ _ hσ1 => ?_
    exact .ok (.refl w1) trivial hσ1

theorem kept_runProgram
    (hmain : ∀ t, get? table "main" = some t → ∃ ps r b, t = .function ps r b) (k : Note)
    (n : Nat) (σ : Store) :
    KeptUnit table ss (.start table σ.envs.size)
      ((runProgram .functions n (.module ss k)).run σ) := by
  have hσ := fits_start hp σ
  have hss := (soundAt hp n).stmts (m := .main (defs ss)) hσ hσ.main ⟨rfl, rfl⟩ hp.main
  refine hss.bind fun _ w1 σ1 hw1 _ hσ1 => ?_
  have htop : w1.top = σ.envs.size := hw1.top
  rw [← htop]
  exact kept_applyMain hp hσ1 hmain n

end

/-- Whatever is returned on the way, what comes out of a loop that is gone through is nothing. -/
theorem value_of_loop (htest : (evalExpr .functions n i test).run σ = .ok (.bool true) σ1)
    (h : (evalStmt .functions (n + 1) i (.loop test body [] k) rest).run σ = .ok v τ) :
    v = .none := by
  change (evalExpr .functions n i test >>= fun t => _).run σ = _ at h
  rw [run_bind, htest] at h
  change (if k.tuples.contains 1 then stop .wrongKind else do
    let _ ← evalStmts .functions n i (body ++ .loop test body [] k :: rest)
    pure .none : Run Value).run σ1 = _ at h
  split at h
  · cases h
  · rw [run_bind] at h
    split at h
    · cases h
      rfl
    · cases h

/-! ## A program with functions as values -/

namespace Sample

/-- Numbers, truth values, pairs of numbers, and functions from numbers to numbers. -/
inductive IsType : Ty → Prop where
  | int : IsType .int
  | bool : IsType .bool
  | void : IsType .void
  | pair : IsType (.tuple [.int, .int])
  | step : IsType (.function [.int] .int)

/-- The type of `add` is not told apart from that of a function of one number. -/
def usage : Usage where
  types := IsType
  called := ["add", "apply"]

theorem family : Family usage where
  value h := by
    cases h with
    | int => exact .int
    | bool => exact .bool
    | void => exact .void
    | pair => exact .tuple (by simpa using .int)
    | step => exact .function (by simpa using .int) .int
  tells hs ht heq := by cases hs <;> cases ht <;> cases heq <;> rfl
  int := .int
  bool := .bool
  void := .void
  part h := by
    cases h with
    | pair => simp [usage, IsType.int]
  item h := by cases h
  param h := by
    cases h with
    | step => simp [usage, IsType.int]
  result h := by
    cases h with
    | step => exact .int

def number (i : Int) : Expr := .const (.int i 0) {}

def var (x : String) : Expr := .name x {}

def call (f : String) (args : List Expr) : Expr := .call (var f) args {}

/-- A number of a pair. -/
def item (p : String) (i : Int) : Expr :=
  .subscript (.name p { type := some (.tuple [.int, .int]) }) (number i) .load {}

def add : Def where
  name := "add"
  params := [("x", .int), ("y", .int)]
  body := [.ret (.arith (var "x") .add (var "y") {}) {}]
  result := .int

/-- The sum of the numbers up to a number. -/
def triangle : Def where
  name := "triangle"
  params := [("n", .int)]
  body := [.ite (.compare (var "n") [.le] [number 0] {}) [.ret (number 0) {}]
    [.ret (call "add" [var "n", call "triangle" [.arith (var "n") .sub (number 1) {}]]) {}] {}]
  result := .int

def apply : Def where
  name := "apply"
  params := [("f", .function [.int] .int), ("p", .tuple [.int, .int])]
  body := [.assign [var "a"] (call "f" [item "p" 0]) {},
    .ret (call "add" [var "a", item "p" 1]) {}]
  result := .int

/-- The program, with the parameters as they are written or checked and with what is recorded in a
pair. -/
def program (params : Def → Params) (pair : Note) : List Stmt :=
  ([add, triangle, apply].map fun d =>
    .fundef d.name (params d) (.stmts d.body) .null d.result .null {}) ++
  [.assign [var "i"] (number 0) {},
    .loop (.compare (var "i") [.lt] [number 3] {})
      [.expr (call "print" [call "apply" [var "triangle",
          .tuple [var "i", number 1] .load pair]]) {},
        .assign [var "i"] (.arith (var "i") .add (number 1) {}) {}] [] {}]

def source : List Stmt :=
  program (fun d => .signature (d.params.map fun p => ⟨p.1, p.2, {}⟩) {}) {}

def checked : List Stmt :=
  program (fun d => .typed d.params) { type := some (.tuple [.int, .int]) }

/-- The functions with their types. -/
def functions : TypeTable :=
  [("add", add.type), ("triangle", triangle.type), ("apply", apply.type)]

theorem known_functions :
    ∀ p ∈ functions, usage p.2 ∨ p.1 ∈ usage.called ∧ Signature usage p.2 := by
  have hadd : Signature usage add.type := .function (by simp [add, usage, IsType.int]) IsType.int
  have happly : Signature usage apply.type :=
    .function (by simp [apply, usage, IsType.step, IsType.pair]) IsType.int
  refine forall_mem_cons.mpr ⟨.inr ⟨by decide, hadd⟩, ?_⟩
  refine forall_mem_cons.mpr ⟨.inl .step, ?_⟩
  exact forall_mem_cons.mpr ⟨.inr ⟨by decide, happly⟩, forall_mem_nil _⟩

theorem known_main : Known usage (mainTable source) := by
  refine .of_mem (forall_mem_append.mpr ⟨known_functions, ?_⟩)
  exact forall_mem_cons.mpr ⟨.inl .int, forall_mem_nil _⟩

theorem regularDef (hresult : d.result = .int) (hdistinct : d.names.Nodup)
    (hparams : ∀ t ∈ d.params.map Prod.snd, IsType t) (hfine : AllFine usage (stmtsParts d.body))
    (hloops : ∀ p ∈ stmtsParts d.body, p.isLoop = false)
    (hnew : ∀ x ∈ d.names ++ assigned (stmtsParts d.body), has (mainTable source) x = false)
    (hreturns : ∀ Δ, (∀ s, get? Δ "add" = some s → s = add.type) →
      ∀ e ∈ (stmtsParts d.body).filterMap Part.returned?, ∀ u, Typed Δ e u → u = .int) :
    RegularDef usage (mainTable source) d := by
  have hagrees (Δ : TypeTable) (hΔ : BodyTable (mainTable source) d Δ) (x : String) (s t : Ty)
      (hs : get? Δ x = some s) (ht : get? (mainTable source) x = some t) :
      s = t :=
    hΔ.agrees family known_main hdistinct hparams hfine hnew hs ht
  refine ⟨hresult ▸ IsType.int, hfine, .inr hloops, fun Δ hΔ t ht e he u hu => ?_, hagrees⟩
  cases ht
  rw [hresult]
  exact hreturns Δ (fun s hs => hagrees Δ hΔ "add" s _ hs rfl) e he u hu

theorem type_call_add (hadd : ∀ s, get? Δ "add" = some s → s = add.type)
    (h : Typed Δ (call "add" args) u) : u = .int := by
  generalize he : call "add" args = e at h
  cases h with
  | call n hf hcallee hargs hts =>
    cases he
    cases hf with
    | name n hx =>
      cases hadd _ hx
      rfl
  | _ => simp [call, var] at he

theorem regular : Regular usage source checked where
  types := .of_mem known_functions
  main t ht := by cases ht
  stmts s hs hnone := by
    rcases mem_append.mp hs with hs | hs
    · obtain ⟨d, -, rfl⟩ := mem_map.mp hs
      cases hnone
    · have hfine : AllFine usage (stmtsParts (checked.drop 3)) :=
        .of_lists rfl (forall_mem_cons.mpr ⟨.pair, forall_mem_nil _⟩) (by decide)
      exact fun p hp => hfine p (stmtParts_subset hs hp)
  defs := by
    refine forall_mem_cons.mpr ⟨?_, forall_mem_cons.mpr ⟨?_, forall_mem_cons.mpr ⟨?_,
      forall_mem_nil _⟩⟩⟩
    · refine regularDef rfl (by decide) (by simp [add, IsType.int]) ?_ (by decide) (by decide) ?_
      · exact .of_lists rfl (fun t ht => by cases ht) (by decide)
      · refine fun Δ _ => forall_mem_cons.mpr ⟨fun u hu => ?_, forall_mem_nil _⟩
        cases hu
        rfl
    · refine regularDef rfl (by decide) (by simp [triangle, IsType.int]) ?_ (by decide)
        (by decide) ?_
      · exact .of_lists rfl (fun t ht => by cases ht) (by decide)
      · refine fun Δ hadd => forall_mem_cons.mpr ⟨fun u hu => ?_, forall_mem_cons.mpr
          ⟨fun u hu => type_call_add hadd hu, forall_mem_nil _⟩⟩
        cases hu with
        | const n hc =>
          cases hc
          rfl
    · refine regularDef rfl (by decide) (by simp [apply, IsType.step, IsType.pair]) ?_ (by decide)
        (by decide) ?_
      · exact .of_lists rfl (fun t ht => by cases ht) (by decide)
      · exact fun Δ hadd => forall_mem_cons.mpr ⟨fun u hu => type_call_add hadd hu,
          forall_mem_nil _⟩

end Sample

/-! ## Soundness -/

/-- Soundness of the type system, for the programs that it sees through. With any input and for any
number of steps, a checked program ends, in a store that is typed, or fails in one of the excused
ways. Each of its functions, called in a typed store with arguments that have the types of its
parameters, returns a value of its declared type or fails in one of these ways. Not all programs are
sound: whatever a function declares, what comes out of a loop that it goes through is nothing. -/
theorem accepted_program_sound {S : Usage} (hS : Family S) {ss ss' : List Stmt} {k : Note}
    (hcheck : checkModule .functions (.module ss k) = .ok (.module ss' k))
    (hss : Regular S ss ss') :
    (∀ n σ, KeptUnit (mainTable ss) ss' (.start (mainTable ss) σ.envs.size)
      ((runProgram .functions n (.module ss' k)).run σ)) ∧
    (∀ n w σ d vs id, Fits (mainTable ss) ss' w σ → d ∈ defs ss' →
      ArgsTyped (defs ss') w vs (d.params.map Prod.snd) →
      KeptTy (mainTable ss) ss' w d.result
        ((applyValue .functions n (d.value w.top id) vs).run σ)) ∧
    ∀ n i test body m rest σ σ₁ v τ, (evalExpr .functions n i test).run σ = .ok (.bool true) σ₁ →
      (evalStmt .functions (n + 1) i (.loop test body [] m) rest).run σ = .ok v τ → v = .none := by
  have hp := checkModule_typed hS hcheck hss
  refine ⟨kept_runProgram hp hss.main k, fun n w σ d vs id hσ hd hvs => ?_, ?_⟩
  · exact (soundAt hp n).apply id hσ hd hvs
  · exact fun n i test body m rest σ σ₁ v τ => value_of_loop

theorem accepted_program_sound_triangles :
    checkModule .functions (.module Sample.source {}) = .ok (.module Sample.checked {}) ∧
    Regular Sample.usage Sample.source Sample.checked ∧
    ∀ n σ, KeptUnit (mainTable Sample.source) Sample.checked
      (.start (mainTable Sample.source) σ.envs.size)
      ((runProgram .functions n (.module Sample.checked {})).run σ) :=
  ⟨rfl, Sample.regular, (accepted_program_sound Sample.family rfl Sample.regular).1⟩

end CompilerKit.Functions
