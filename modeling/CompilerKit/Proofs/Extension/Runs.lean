import CompilerKit.Proofs.Extension.Operations

/-!
# Programs in two languages

Evaluation in a language and in the next one of the chain, side by side. The rules of the two
languages are compared for one more unit of fuel, and the comparison goes on by induction.

* `follows_evalExpr`, `follows_evalStmt`: the rules of two languages, with a lemma for each form.
* `followsAt`: all rules together, by induction on the fuel.
* `runProgram_extends`: whole programs; `Departs` lists the ways in which they end otherwise.
-/

namespace CompilerKit.Extension

open Run List Bool CompilerKit.Language

/-- The two languages run alike with fuel `n`. -/
structure FollowsAt (l l' : Language) (n : Nat) : Prop where
  expr {σ : Store} {i : Nat} {e : Expr} (hσ : Tidy l σ) (he : l.hasExpr e) :
    Together l l' (Plain l) σ (evalExpr · n i e)
  logic {σ : Store} {i : Nat} {a b : Expr} (op : LogicOp) (hσ : Tidy l σ)
    (ha : l.hasExpr a) (hb : l.hasExpr b) :
    Together l l' (Plain l) σ (evalLogic · n i op a b)
  call {σ : Store} {i : Nat} {f : String} {args : List Expr} (e : Expr) (hσ : Tidy l σ)
    (hf : l.hasCall f args.length) (hargs : l.hasExprs args) :
    Together l l' (Plain l) σ (evalCall · n i e f args)
  apply {σ : Store} {v : Value} {vs : List Value} (hσ : Tidy l σ) (hv : Plain l σ v)
    (hvs : ∀ u ∈ vs, Plain l σ u) :
    Together l l' (Plain l) σ (applyValue · n v vs)
  stmt {σ : Store} {i : Nat} {s : Stmt} {rest : List Stmt} (hσ : Tidy l σ)
    (hs : l.hasStmt s) (hrest : l.hasStmts rest) :
    Together l l' (Plain l) σ (evalStmt · n i s rest)
  stmts {σ : Store} {i : Nat} {ss : List Stmt} (hσ : Tidy l σ) (hss : l.hasStmts ss) :
    Together l l' (Plain l) σ (evalStmts · n i ss)

variable {l l' : Language} {i : Nat} {σ : Store}
variable {v : Value}

theorem followsAt_zero (l l') : FollowsAt l l' 0 where
  expr _ _ := .fails _
  logic _ _ _ _ := .fails _
  call _ _ _ _ := .fails _
  apply _ _ _ := .fails _
  stmt _ _ _ := .fails _
  stmts _ _ := .fails _

section

variable (hnext : Next l l') (hn : FollowsAt l l' n) (hσ : Tidy l σ)
include hn hσ

theorem follows_exprs (hes : l.hasExprs es) :
    Together l l' (fun τ vs => ∀ v ∈ vs, Plain l τ v) σ fun l => es.mapM (evalExpr l n i) := by
  induction es generalizing σ with
  | nil => exact .ok (.refl σ) hσ fun v hv => absurd hv not_mem_nil
  | cons e es ih =>
    rw [hasExprs_cons, and_eq_true] at hes
    rw [Together, mapM_cons, mapM_cons]
    refine (hn.expr hσ hes.1).bind fun v τ _ hτ hv => ?_
    refine (ih hτ hes.2).bind fun vs υ hkeep hυ hvs => ?_
    exact .ok (.refl υ) hυ (forall_mem_cons.mpr ⟨hv.mono hkeep, hvs⟩)

include hnext

theorem follows_evalLogic (op) (ha : l.hasExpr a) (hb : l.hasExpr b) :
    Together l l' (Plain l) σ (evalLogic · (n + 1) i op a b) := by
  refine (hn.expr hσ ha).bind fun x τ _ hτ hx => ?_
  refine hnext.untagged ?_
  have hb := hn.expr (i := i) hτ hb
  have hnone : Together l l' (Plain l) τ fun _ => pure .none := .ok (.refl τ) hτ .none
  cases hx with
  | bool c =>
    cases op with
    | and =>
      cases c with
      | true => exact hb
      | false => exact hnext.untagged (.ok (.refl τ) hτ (.bool false))
    | or =>
      cases c with
      | true => exact .ok (.refl τ) hτ (.bool true)
      | false => exact hb
  | _ => cases op <;> exact hnone

omit hn in
theorem follows_read (hl : l.hasTuples) (hv : Plain l σ v) (hx : Plain l σ x) :
    Together l l' (Plain l) σ fun l =>
      if l.isBlocks || l.hasTags then getItem l (n + 1) v x
      else if l.hasArrays then (do checkIndex v x; plainItem v x)
      else plainItem v x := by
  cases hnext with
  | conditionals | loops | tuples => cases hl
  | arrays => exact follows_newCheck hσ hv hx rfl rfl
  | functions | lambdas => exact follows_checkedItem hσ hv hx
  | anys => exact follows_noCheck hσ hv hx rfl rfl

omit hn hσ in
theorem Next.hasArith (hop : hasArith l op) : hasArith l' op := by
  cases op with
  | add | sub => rfl
  | mult => exact hnext.has hop
  | _ => cases hop

omit hn hσ in
theorem Next.hasCompare (hop : l.hasCompare op) : l'.hasCompare op := by
  cases op with
  | eq | notEq | lt | le | gt | ge => rfl
  | same => exact hnext.has hop
  | _ => cases hop

omit hnext in
theorem follows_callee (hf : l.hasExpr f) (hargs : l.hasExprs args) :
    Together l l' (Plain l) σ fun l =>
      (do let g ← evalExpr l n i f; let vs ← args.mapM (evalExpr l n i); applyValue l n g vs) := by
  refine (hn.expr hσ hf).bind fun g τ _ hτ hg => ?_
  refine (follows_exprs hn hτ hargs).bind fun vs υ hkeep hυ hvs => ?_
  exact hn.apply hυ (hg.mono hkeep) hvs

/-! ## Expressions -/

theorem follows_arith {a b : Expr} {op : ArithOp} (m : Note)
    (hop : hasArith l op) (ha : l.hasExpr a) (hb : l.hasExpr b) :
    Together l l' (Plain l) σ (evalExpr · (n + 1) i (.arith a op b m)) := by
  have hblocks := hnext.plain_left.1
  have hblocks' := hnext.plain_right.1
  refine .given hop (hnext.hasArith hop) ?_
  refine (hn.expr hσ ha).bind fun x τ _ hτ _ => ?_
  refine (hn.expr hτ hb).bind fun y υ _ hυ _ => ?_
  exact hnext.untagged (follows_arithValues hυ hblocks hblocks' x y)

theorem follows_unary {a : Expr} {op : UnaryOp} (m : Note)
    (hop : l.hasUnary op) (ha : l.hasExpr a) :
    Together l l' (Plain l) σ (evalExpr · (n + 1) i (.unary op a m)) := by
  cases op with
  | neg =>
    refine (hn.expr hσ ha).bind fun x τ _ hτ _ => ?_
    exact hnext.untagged (follows_numberOf hτ x.negWord)
  | not =>
    refine hnext.given hop ?_
    refine (hn.expr hσ ha).bind fun x τ _ hτ _ => ?_
    exact hnext.untagged (.withHeap (.ok (.refl τ) hτ (.bool _)))
  | _ => cases hop

theorem follows_logic {op : LogicOp} {es : List Expr} (m : Note)
    (hl : l.hasConditionals) (hes : l.hasExprs es) :
    Together l l' (Plain l) σ (evalExpr · (n + 1) i (.logic op es m)) := by
  cases es with
  | nil => exact hnext.given hl (.fails _)
  | cons a es =>
    cases es with
    | nil => exact hnext.given hl (.fails _)
    | cons b es =>
      simp only [hasExprs_cons, Bool.and_eq_true] at hes
      exact hnext.given hl (hn.logic op hσ hes.1 hes.2.1)

theorem follows_cond {test yes no : Expr} (m : Note)
    (hl : l.hasConditionals) (htest : l.hasExpr test) (hyes : l.hasExpr yes)
    (hno : l.hasExpr no) :
    Together l l' (Plain l) σ (evalExpr · (n + 1) i (.cond test yes no m)) := by
  refine hnext.given hl ?_
  refine (hn.expr hσ htest).bind fun x τ _ hτ hx => ?_
  refine hnext.untagged ?_
  cases hx with
  | bool c =>
    cases c with
    | true => exact hn.expr hτ hyes
    | false => exact hn.expr hτ hno
  | _ => exact .ok (.refl τ) hτ .none

theorem follows_compare {a : Expr} {ops : List CmpOp} {bs : List Expr} (m : Note)
    (hl : l.hasConditionals) (hops : ops.all l.hasCompare) (ha : l.hasExpr a)
    (hbs : l.hasExprs bs) :
    Together l l' (Plain l) σ (evalExpr · (n + 1) i (.compare a ops bs m)) := by
  rcases ops with _ | ⟨op, _ | ⟨op', ops⟩⟩
  · exact .fails _
  · rcases bs with _ | ⟨b, _ | ⟨b', bs⟩⟩
    · exact .fails _
    · simp only [List.all_cons, all_nil, Bool.and_true] at hops
      simp only [hasExprs_cons, Bool.and_eq_true] at hbs
      refine hnext.given hl ?_
      refine (hn.expr hσ ha).bind fun x τ _ hτ _ => ?_
      refine (hn.expr hτ hbs.1).bind fun y υ _ hυ _ => ?_
      refine hnext.untagged ?_
      refine (follows_compareValues hυ hops (hnext.hasCompare hops) x y).bind fun c φ _ hφ _ => ?_
      exact .ok (.refl φ) hφ (.bool c)
    · exact .fails _
  · exact .fails _

theorem follows_tuple {es : List Expr} {a : Access} (m : Note)
    (hl : l.hasTuples) (hes : l.hasExprs es) :
    Together l l' (Plain l) σ (evalExpr · (n + 1) i (.tuple es a m)) := by
  have hblocks := hnext.plain_left.1
  have hblocks' := hnext.plain_right.1
  cases a with
  | load =>
    refine hnext.given hl ?_
    refine (follows_exprs hn hσ hes).bind fun vs τ _ hτ hvs => ?_
    refine .otherwise hblocks hblocks' ?_
    refine (follows_newList hτ hvs).bind fun t υ _ hυ ht => ?_
    exact hnext.untagged (.ok (.refl υ) hυ ht)
  | _ => exact .fails _

theorem follows_list {es : List Expr} {a : Access} (m : Note)
    (hl : l.hasArrays) (hes : l.hasExprs es) :
    Together l l' (Plain l) σ (evalExpr · (n + 1) i (.list es a m)) := by
  cases a with
  | load =>
    refine hnext.given hl ?_
    refine (follows_exprs hn hσ hes).bind fun vs τ _ hτ hvs => ?_
    refine (follows_newList hτ hvs).bind fun t υ _ hυ ht => ?_
    exact hnext.untagged (.ok (.refl υ) hυ ht)
  | _ => exact .fails _

/-- Only some languages check the index of an item. -/
theorem follows_subscript {b x : Expr} {a : Access} (m : Note)
    (hl : l.hasTuples) (hb : l.hasExpr b) (hx : l.hasExpr x) :
    Together l l' (Plain l) σ (evalExpr · (n + 1) i (.subscript b x a m)) := by
  cases a with
  | load =>
    refine hnext.given hl ?_
    cases n with
    | zero => exact .fails _
    | succ n =>
      refine (hn.expr hσ hb).bind fun v τ _ hτ hv => ?_
      refine (hn.expr hτ hx).bind fun x υ hkeep hυ hx => ?_
      exact hnext.untagged (follows_read hnext hυ hl (hv.mono hkeep) hx)
  | _ => exact .fails _

omit hn in
theorem follows_lambda {ps : Params} {body : Expr} (m : Note)
    (hl : l.hasLambdas) (hbody : l.hasExpr body) :
    Together l l' (Plain l) σ (evalExpr · (n + 1) i (.lambda ps body m)) := by
  have hfun := hasFunctions_of_hasLambdas hl
  have hret : l.hasStmts [.ret body {}] := by
    simp [hasStmt, hasStmts, hfun, hbody]
  refine hnext.source hl ?_
  refine (follows_newFunction hσ hfun hret "lambda" ps i).bind fun f τ _ hτ hf => ?_
  exact hnext.untagged (.ok (.refl τ) hτ hf)

theorem follows_closure {a : Term} {es : List Expr} (m : Note)
    (hl : l.hasLambdas) (ha : isCount a) (hes : l.hasExprs es) :
    Together l l' (Plain l) σ (evalExpr · (n + 1) i (.closure a es m)) := by
  refine hnext.source hl ?_
  refine (follows_exprs hn hσ hes).bind fun vs τ _ hτ hvs => ?_
  refine (follows_newList hτ hvs).bind fun cells υ _ hυ hcells => ?_
  refine (follows_arityValue hυ ha).bind fun arity φ hkeep hφ harity => ?_
  exact follows_newClosure hφ hl (hcells.mono hkeep) harity

theorem follows_evalExpr (he : l.hasExpr e) :
    Together l l' (Plain l) σ (evalExpr · (n + 1) i e) := by
  cases e with simp only [hasExpr, Bool.and_eq_true] at he
  | name x m => exact hnext.given he (follows_lookup hσ i x)
  | const c m => exact hnext.untagged (.ok (.refl σ) hσ (.of_isConstant he))
  | arith a op b m => exact follows_arith hnext hn hσ m he.1.1 he.1.2 he.2
  | unary op a m => exact follows_unary hnext hn hσ m he.1 he.2
  | logic op es m => exact follows_logic hnext hn hσ m he.1 he.2
  | cond test yes no m => exact follows_cond hnext hn hσ m he.1.1.1 he.1.1.2 he.1.2 he.2
  | compare a ops bs m => exact follows_compare hnext hn hσ m he.1.1.1 he.1.1.2 he.1.2 he.2
  | tuple es a m => exact follows_tuple hnext hn hσ m he.1 he.2
  | list es a m => exact follows_list hnext hn hσ m he.1 he.2
  | subscript b x a m => exact follows_subscript hnext hn hσ m he.1.1 he.1.2 he.2
  | lambda ps body m => exact follows_lambda hnext hσ m he.1 he.2
  | closure a es m => exact follows_closure hnext hn hσ m he.1.1 he.1.2 he.2
  | block ss r m =>
    refine hnext.given he.1.1 ?_
    exact (hn.stmts hσ he.1.2).bind fun _ τ _ hτ _ => hn.expr hτ he.2
  | call f args m =>
    obtain ⟨⟨hl, hf⟩, hargs⟩ := he
    cases f with
    | name x k => exact hn.call _ hσ hl hargs
    | _ => exact hnext.given hl (follows_callee hn hσ hf hargs)
  | uninitialized t m => exact hnext.given he (.ok (.refl σ) hσ .none)
  | allocate k | allocateArray k => exact hnext.given he (follows_emptyCells hσ k)
  | allocateClosure k t a m =>
    refine hnext.given he.1 ?_
    refine (follows_emptyCells hσ k).bind fun cells τ _ hτ hcells => ?_
    refine (follows_arityValue hτ he.2).bind fun arity υ hkeep hυ harity => ?_
    exact follows_newClosure hυ he.1 (hcells.mono hkeep) harity
  | uncheckedCast b t m =>
    exact hnext.given he.1 (hn.expr hσ he.2)
  | global x m => exact hnext.given he (follows_number hσ 0)
  | funRef x a m => exact hnext.given he (follows_lookup hσ i x)
  | _ => cases he

/-! ## Calls -/

/-- The operations of the language, and functions by their names. -/
theorem follows_evalCall (e) (hf : l.hasCall f args.length)
    (hargs : l.hasExprs args) :
    Together l l' (Plain l) σ (evalCall · (n + 1) i e f args) := by
  obtain ⟨hblocks, -, -, -, hcasts, -⟩ := hnext.plain_left
  obtain ⟨hblocks', -, -, hcasts', -⟩ := hnext.plain_right
  generalize hsize : args.length = k at hf
  unfold hasCall at hf
  split at hf
  · -- `print` is a statement
    obtain ⟨a, rfl⟩ := length_eq_one_iff.mp hsize
    exact .otherwise (and_false _) (and_false _) (.fails _)
  · obtain rfl := length_eq_zero_iff.mp hsize
    refine (follows_readInt hσ).bind fun v τ _ hτ hv => ?_
    exact hnext.untagged (.ok (.refl τ) hτ hv)
  · obtain ⟨a, rfl⟩ := length_eq_one_iff.mp hsize
    simp only [hasExprs_cons, and_eq_true] at hargs
    refine hnext.given hf ?_
    refine (hn.expr hσ hargs.1).bind fun v τ _ hτ _ => ?_
    exact hnext.untagged (follows_plainLen hτ v)
  · obtain ⟨a, rfl⟩ := length_eq_one_iff.mp hsize
    simp only [hasExprs_cons, and_eq_true] at hargs
    refine hnext.given hf ?_
    refine (hn.expr hσ hargs.1).bind fun v τ _ hτ _ => ?_
    exact .otherwise hcasts hcasts' (follows_plainLen hτ v)
  · rcases args with _ | ⟨a, _ | ⟨b, _ | ⟨c, args⟩⟩⟩ <;> cases hsize
    simp only [hasExprs_cons, and_eq_true] at hargs
    refine hnext.given hf ?_
    refine (hn.expr hσ hargs.1).bind fun v τ _ hτ hv => ?_
    refine (hn.expr hτ hargs.2.1).bind fun x υ hkeep hυ hx => ?_
    exact .otherwise hcasts hcasts' (follows_checkedItem hυ (hv.mono hkeep) hx)
  · rcases args with _ | ⟨a, _ | ⟨b, _ | ⟨c, _ | ⟨d, args⟩⟩⟩⟩ <;> cases hsize
    simp only [hasExprs_cons, and_eq_true] at hargs
    obtain ⟨ha, hb, hc, -⟩ := hargs
    refine hnext.given hf ?_
    refine (hn.expr hσ ha).bind fun v τ _ hτ hv => ?_
    refine (hn.expr hτ hb).bind fun x υ hkeep hυ hx => ?_
    refine .otherwise hcasts hcasts' ?_
    refine follows_checkedWrite hυ (hv.mono hkeep) hx (fun φ _ hφ => hn.expr hφ hc) ?_
    exact fun φ _ hφ => .ok (.refl φ) hφ .none
  · obtain ⟨a, rfl⟩ := length_eq_one_iff.mp hsize
    simp only [hasExprs_cons, and_eq_true] at hargs
    refine hnext.given hf ?_
    refine (hn.expr hσ hargs.1).bind fun v τ _ hτ hv => ?_
    exact follows_valueArity hτ hv
  · rw [and_eq_true, not_eq_true'] at hf
    obtain ⟨hl, hbuiltin⟩ := hf
    rw [Together, evalCall_of_not_builtin hblocks hl hbuiltin,
      evalCall_of_not_builtin hblocks' (hnext.has hl) hbuiltin]
    have hname : l.hasExpr (.name f {}) := hasVariables_of_hasFunctions hl
    exact follows_callee hn hσ hname hargs

/-! ## Functions and statements -/

theorem follows_applyValue (hv : Plain l σ v) (hvs : ∀ u ∈ vs, Plain l σ u) :
    Together l l' (Plain l) σ (applyValue · (n + 1) v vs) := by
  obtain ⟨hblocks, -, -, -, -, hproxies⟩ := hnext.plain_left
  obtain ⟨hblocks', -, -, -, hproxies', -⟩ := hnext.plain_right
  refine hnext.untagged ?_
  cases hv with
  | function f ps j id hl hss =>
    refine .otherwise hblocks hblocks' ?_
    refine (follows_enter hσ hvs j ps).bind fun k τ _ hτ _ => ?_
    exact hn.stmts hτ hss
  | closure id => exact .otherwise hproxies hproxies' (.fails _)
  | _ => exact .fails _

theorem follows_evalStmts (hss : l.hasStmts ss) :
    Together l l' (Plain l) σ (evalStmts · (n + 1) i ss) := by
  obtain ⟨hblocks, -, hgenerics, -⟩ := hnext.plain_left
  obtain ⟨hblocks', -, hgenerics', -⟩ := hnext.plain_right
  refine .otherwise hblocks hblocks' ?_
  cases ss with
  | nil => exact .otherwise hgenerics hgenerics' (.ok (.refl σ) hσ (.int 0 sharedId))
  | cons s rest =>
    rw [hasStmts_cons, and_eq_true] at hss
    exact .otherwise hgenerics hgenerics' (hn.stmt hσ hss.1 hss.2)

theorem follows_write (hl : l.hasTuples) (hv : Plain l σ v) (hx : Plain l σ x)
    (he : l.hasExpr e) (hrest : l.hasStmts rest) :
    Together l l' (Plain l) σ fun l =>
      if l.hasArrays && !l.isBlocks then
        (do checkIndex v x; let c ← evalExpr l n i e; plainSetItem v x c; evalStmts l n i rest)
      else (do let c ← evalExpr l n i e; plainSetItem v x c; evalStmts l n i rest) := by
  have hchecked := follows_checkedWrite (x := evalExpr l n i e) (f := fun _ => evalStmts l n i rest)
    (g := fun _ => evalStmts l' n i rest) hσ hv hx (fun τ _ hτ => hn.expr hτ he)
    fun τ _ hτ => hn.stmts hτ hrest
  cases hnext with
  | conditionals | loops | tuples => cases hl
  | arrays =>
    exact follows_newCheckedWrite rfl rfl hv hx (hn.expr hσ he) fun τ _ hτ => hn.stmts hτ hrest
  | functions | lambdas | anys => exact hchecked

theorem follows_assignment (m) (hts : ts.all isTarget) (hexprs : l.hasExprs ts)
    (he : l.hasExpr e) (hrest : l.hasStmts rest) :
    Together l l' (Plain l) σ (evalStmt · (n + 1) i (.assign ts e m) rest) := by
  rcases ts with _ | ⟨t, _ | ⟨t', ts⟩⟩
  · exact .fails _
  · simp only [hasExprs_cons, and_eq_true] at hexprs
    cases t with
    | name x k =>
      refine hnext.given hexprs.1 ?_
      refine (hn.expr hσ he).bind fun v τ _ hτ hv => ?_
      refine (follows_assign hτ hv i x).bind fun _ υ _ hυ _ => ?_
      exact hn.stmts hυ hrest
    | subscript b x a k =>
      obtain ⟨hsub, -⟩ := hexprs
      simp only [hasExpr, and_eq_true] at hsub
      obtain ⟨⟨hl, hb⟩, hx⟩ := hsub
      refine hnext.given hl ?_
      refine (hn.expr hσ hb).bind fun v τ _ hτ hv => ?_
      refine (hn.expr hτ hx).bind fun x υ hkeep hυ hx => ?_
      refine hnext.untagged ?_
      exact follows_write hnext hn hυ hl (hv.mono hkeep) hx he hrest
    | _ => cases hts
  · rw [all_cons, and_eq_true] at hts
    cases t with
    | name | subscript => exact .fails _
    | _ => cases hts.1

omit hnext in
/-- An expression is a statement, and a call of `print` is one of its own. -/
theorem follows_exprStmt {e : Expr} (m : Note) (hs : l.hasStmt (.expr e m))
    (hrest : l.hasStmts rest) :
    Together l l' (Plain l) σ (evalStmt · (n + 1) i (.expr e m) rest) := by
  by_cases hprint : ∃ k a m, e = .call (.name "print" k) [a] m
  · obtain ⟨k, a, m, rfl⟩ := hprint
    simp only [hasStmt, hasExpr, and_eq_true, hasExprs_cons] at hs
    refine (hn.expr hσ hs.2.1).bind fun v τ _ hτ _ => ?_
    refine (follows_print hτ v).bind fun _ υ _ hυ _ => ?_
    exact hn.stmts hυ hrest
  · have hne : ∀ k a m, e ≠ .call (.name "print" k) [a] m := fun k a m h => hprint ⟨k, a, m, h⟩
    rw [Together, evalStmt_expr hne, evalStmt_expr hne]
    refine (hn.expr hσ hs).bind fun _ τ _ hτ _ => ?_
    exact hn.stmts hτ hrest

theorem follows_ite {test : Expr} {yes no : List Stmt} (m : Note)
    (hl : l.hasConditionals) (htest : l.hasExpr test) (hyes : l.hasStmts yes)
    (hno : l.hasStmts no) (hrest : l.hasStmts rest) :
    Together l l' (Plain l) σ (evalStmt · (n + 1) i (.ite test yes no m) rest) := by
  refine hnext.given hl ?_
  refine (hn.expr hσ htest).bind fun x τ _ hτ hx => ?_
  refine hnext.untagged ?_
  cases hx with
  | bool c =>
    cases c with
    | true => exact .ite (.fails _) (hn.stmts hτ (hasStmts_append hyes hrest))
    | false => exact .ite (.fails _) (hn.stmts hτ (hasStmts_append hno hrest))
  | _ => exact .ok (.refl τ) hτ .none

/-- The body of a loop is run in front of the loop itself and of what follows it. -/
theorem follows_loop {test : Expr} {body no : List Stmt} (m : Note)
    (hs : l.hasStmt (.loop test body no m)) (hrest : l.hasStmts rest) :
    Together l l' (Plain l) σ (evalStmt · (n + 1) i (.loop test body no m) rest) := by
  have hloop := hs
  simp only [hasStmt, and_eq_true] at hs
  obtain ⟨⟨hl, htest⟩, hbody⟩ := hs
  cases no with
  | cons => exact .fails _
  | nil =>
    have hagain : l.hasStmts (body ++ .loop test body [] m :: rest) := by
      refine hasStmts_append hbody ?_
      rw [hasStmts_cons, hloop, hrest]
      rfl
    refine .given hl (hnext.hasLoops hl) ?_
    refine (hn.expr hσ htest).bind fun x τ _ hτ _ => ?_
    refine hnext.untagged ?_
    rw [pure_bind, pure_bind]
    refine .withHeap ?_
    refine .ite ?_ (hn.stmts hτ hrest)
    refine .ite (.fails _) ?_
    refine (hn.stmts hτ hagain).bind fun _ υ _ hυ _ => ?_
    exact .ok (.refl υ) hυ .none

theorem follows_fundef {f : String} {ps : Params} {body : Body} {ds c : Term} {r : Ty} (m : Note)
    (hl : l.hasFunctions) (hbody : l.hasBody body) (hrest : l.hasStmts rest) :
    Together l l' (Plain l) σ (evalStmt · (n + 1) i (.fundef f ps body ds r c m) rest) := by
  cases body with
  | stmts ss =>
    refine hnext.source hl ?_
    refine (Follows.ofExcept (P := fun _ _ => True) hσ fun _ _ => trivial).bind
      fun xs τ _ hτ _ => ?_
    refine (follows_newFunction hτ hl hbody f xs i).bind fun v υ _ hυ hv => ?_
    refine hnext.untagged ?_
    refine (follows_assign hυ hv i f).bind fun _ φ _ hφ _ => ?_
    exact hn.stmts hφ hrest
  | _ => cases hbody

theorem follows_annAssign {x e : Expr} {t : Ty} {k : Term} (m : Note)
    (hl : l.hasLambdas) (hx : isName x) (he : l.hasExpr e) (hrest : l.hasStmts rest) :
    Together l l' (Plain l) σ (evalStmt · (n + 1) i (.annAssign x t e k m) rest) := by
  cases x with
  | name x m' =>
    refine hnext.source hl ?_
    refine (hn.expr hσ he).bind fun v τ _ hτ hv => ?_
    refine (follows_assign hτ hv i x).bind fun _ υ _ hυ _ => ?_
    exact hn.stmts hυ hrest
  | _ => cases hx

theorem follows_evalStmt (hs : l.hasStmt s) (hrest : l.hasStmts rest) :
    Together l l' (Plain l) σ (evalStmt · (n + 1) i s rest) := by
  cases s with
  | expr e m => exact follows_exprStmt hn hσ m hs hrest
  | assign ts e m =>
    simp only [hasStmt, and_eq_true] at hs
    exact follows_assignment hnext hn hσ m hs.1.1 hs.1.2 hs.2 hrest
  | ite test yes no m =>
    simp only [hasStmt, and_eq_true] at hs
    exact follows_ite hnext hn hσ m hs.1.1.1 hs.1.1.2 hs.1.2 hs.2 hrest
  | loop test body no m => exact follows_loop hnext hn hσ m hs hrest
  | collect k m => exact hnext.given hs (hn.stmts hσ hrest)
  | ret e m =>
    simp only [hasStmt, and_eq_true] at hs
    exact hnext.source hs.1 (hn.expr hσ hs.2)
  | fundef f ps body ds r c m =>
    simp only [hasStmt, and_eq_true] at hs
    exact follows_fundef hnext hn hσ m hs.1 hs.2 hrest
  | annAssign x t e k m =>
    simp only [hasStmt, and_eq_true] at hs
    exact follows_annAssign hnext hn hσ m hs.1.1 hs.1.2 hs.2 hrest
  | pass m => exact hnext.source hs (hn.stmts hσ hrest)
  | _ => cases hs

end

theorem followsAt (hnext : Next l l') (n) : FollowsAt l l' n := by
  induction n with
  | zero => exact followsAt_zero l l'
  | succ n ih =>
    exact {
      expr := fun hσ he => follows_evalExpr hnext ih hσ he
      logic := fun op hσ ha hb => follows_evalLogic hnext ih hσ op ha hb
      call := fun e hσ hf hargs => follows_evalCall hnext ih hσ e hf hargs
      apply := fun hσ hv hvs => follows_applyValue hnext ih hσ hv hvs
      stmt := fun hσ hs hrest => follows_evalStmt hnext ih hσ hs hrest
      stmts := fun hσ hss => follows_evalStmts hnext ih hσ hss }

/-! ## Programs -/

theorem follows_applyMain (hn : FollowsAt l l' n) (hσ : Tidy l σ) :
    Together l l' (fun _ _ => True) σ (applyMain · n i) := by
  refine (follows_envAt hσ .wrongKind i).bind fun env τ _ hτ henv => ?_
  cases hmain : Bindings.get? env "main" with
  | none => exact .ok (.refl τ) hτ trivial
  | some f =>
    have happly := @FollowsAt.apply _ _ _ hn τ f [] hτ (henv "main" f hmain) fun u hu =>
      absurd hu not_mem_nil
    exact happly.bind fun _ υ _ hυ _ => .ok (.refl υ) hυ trivial

/-- The store in which the statements of a program are run. -/
def startStore (console : Console) : Store := { console, envs := #[[]] }

theorem tidy_startStore (l console) : Tidy l (startStore console) where
  cells p s hs := by simp [startStore] at hs
  envs j env henv x v hx := by
    have hmem : env ∈ #[([])] := Array.mem_of_getElem? henv
    rw [Array.mem_singleton] at hmem
    subst hmem
    cases hx

theorem run_runProgram (hblocks : l.isBlocks = false) (fuel ss m console) :
    (runProgram l fuel (.module ss m)).run { console } = (do
      let _ ← evalStmts l fuel 0 ss
      if l.hasFunctions then applyMain l fuel 0 else pure ()).run (startStore console) := by
  rw [runProgram, hblocks]
  rfl

/-- Two faults of one kind. Failures may differ in their words. -/
inductive SameKind : Fault → Fault → Prop where
  | refl (f) : SameKind f f
  | failure (s t) : SameKind (.failure s) (.failure t)

/-- Two runs end alike: in the same store, both normally or both with faults of one kind. -/
inductive EndsAlike :
    EStateM.Result RunError Store Unit → EStateM.Result RunError Store Unit → Prop where
  | normal (σ : Store) : EndsAlike (.ok () σ) (.ok () σ)
  | fault {σ : Store} (h : SameKind (e.toFault σ.heap) (e'.toFault σ.heap)) :
      EndsAlike (.error e σ) (.error e' σ)

/-- The ways in which a run in the next language ends otherwise. -/
inductive Departs : (l l' : Language) →
    EStateM.Result RunError Store Unit → EStateM.Result RunError Store Unit → Prop where
  /-- An index after the end of an aggregate that is read: every language but that of tuples and
  that of values of unknown type checks it first. -/
  | newCheck (σ : Store) :
      Departs .tuples .arrays (.error (.fault .outOfRange) σ) (.error .indexOutOfBounds σ)
  | lostCheck (σ : Store) :
      Departs .lambdas .anys (.error .indexOutOfBounds σ) (.error (.fault .outOfRange) σ)
  /-- An item that cannot be written: from arrays on this is found before the item is evaluated. -/
  | newOrder {e e' σ σ'} (he' : e' = .indexOutOfBounds ∨ e' = .fault .wrongKind)
      (houtput : ∃ more, σ.console.output = σ'.console.output ++ more) :
      Departs .tuples .arrays (.error e σ) (.error e' σ')
  /-- A variable that is called as the main function is. -/
  | main {v : Value} {σ : Store} (hmain : Vars.read 0 σ "main" = some v) :
      Departs .arrays .functions (.ok () σ) (.error (.notApplicable v) σ)

theorem Stops.ends {e e' σ'} (h : Stops l l' e σ e' σ') :
    EndsAlike (.error e σ) (.error e' σ') ∨ Departs l l' (.error e σ) (.error e' σ') := by
  cases h with
  | alike => exact .inl (.fault (.refl _))
  | noArity v =>
    refine .inl (.fault ?_)
    simp only [RunError.toFault]
    cases v.dump σ.heap with
    | ok s => exact .failure _ _
    | error m => exact .refl _
  | unchecked hl hl' =>
    subst hl hl'
    exact .inr (.lostCheck σ)
  | checkedRead hl hl' =>
    subst hl hl'
    exact .inr (.newCheck σ)
  | checkedWrite hl hl' he' hkeep =>
    subst hl hl'
    exact .inr (.newOrder he' hkeep.output)

theorem Follows.ends
    (h : Follows l l' (fun _ _ => True) σ r r') : EndsAlike r r' ∨ Departs l l' r r' := by
  cases h with
  | ok => exact .inl (.normal _)
  | error _ h => exact h.ends

/-- Where the language of functions looks for a main function, the language of arrays is at the end
of the program. -/
theorem applyMain_of_arrays (hσ : Tidy .arrays σ) (henv : 0 < σ.envs.size) :
    (applyMain .functions (n + 1) 0).run σ = .ok () σ ∨
      ∃ v, Vars.read 0 σ "main" = some v ∧
        (applyMain .functions (n + 1) 0).run σ = .error (.notApplicable v) σ := by
  have hget : σ.envs[0]? = some σ.envs[0] := Array.getElem?_eq_getElem henv
  rw [applyMain, EStateM.run_bind, Vars.run_envAt hget]
  cases hmain : Bindings.get? σ.envs[0] "main" with
  | none => exact .inl (by simp only [hmain]; rfl)
  | some v =>
    refine .inr ⟨v, by rw [Vars.read, hget]; exact hmain, ?_⟩
    simp only [hmain]
    cases hσ.envs 0 _ hget "main" v hmain with
    | function _ _ _ _ hl => cases hl
    | closure _ hl => cases hl
    | _ => rfl

/-- Each language of the chain extends the one below it: a program in the forms of a language runs
alike in the next one, but for the check of indices and for what is called as the main function
is. -/
theorem runProgram_extends (h : Next l l') {ss : List Stmt} (hss : l.hasStmts ss = true)
    (m : Note) (fuel : Nat) (console : Console) :
    EndsAlike ((runProgram l fuel (.module ss m)).run { console })
        ((runProgram l' fuel (.module ss m)).run { console }) ∨
      Departs l l' ((runProgram l fuel (.module ss m)).run { console })
        ((runProgram l' fuel (.module ss m)).run { console }) := by
  have hn := followsAt h fuel
  have hstmts := hn.stmts (i := 0) (tidy_startStore l console) hss
  rw [run_runProgram h.plain_left.1, run_runProgram h.plain_right.1]
  cases h with
  | conditionals | loops | tuples | arrays =>
    exact (hstmts.bind fun _ τ _ hτ _ => .otherwise rfl rfl (.ok (.refl τ) hτ trivial)).ends
  | lambdas | anys =>
    exact (hstmts.bind fun _ τ _ hτ _ => .given rfl rfl (follows_applyMain hn hτ)).ends
  | functions =>
    cases fuel with
    | zero => exact .inl (.fault (.refl _))
    | succ fuel =>
      rw [EStateM.run_bind, EStateM.run_bind]
      unfold Together at hstmts
      generalize (evalStmts .arrays (fuel + 1) 0 ss).run (startStore console) = r at hstmts
      generalize (evalStmts .functions (fuel + 1) 0 ss).run (startStore console) = r' at hstmts
      cases hstmts with
      | error _ h => exact h.ends
      | @ok _ τ hkeep hτ =>
        change EndsAlike (.ok () τ) ((applyMain .functions (fuel + 1) 0).run τ) ∨
          Departs _ _ (.ok () τ) ((applyMain .functions (fuel + 1) 0).run τ)
        rcases applyMain_of_arrays hτ hkeep.envs with hend | ⟨v, hmain, hend⟩
        · rw [hend]
          exact .inl (.normal τ)
        · rw [hend]
          exact .inr (.main hmain)

/-- A list of two items is read at the position five. -/
def pastEnd : List Stmt :=
  [.assign [.name "x" {}] (.list [.const (.int 1 1) {}, .const (.int 2 1) {}] .load {}) {},
    .expr (.call (.name "print" {}) [.subscript (.name "x" {}) (.const (.int 5 1) {}) .load {}] {})
      {}]

theorem runProgram_extends_pastEnd :
    Language.lambdas.hasStmts pastEnd = true ∧
      (EndsAlike ((runProgram .lambdas 9 (.module pastEnd {})).run {})
          ((runProgram .anys 9 (.module pastEnd {})).run {}) ∨
        Departs .lambdas .anys ((runProgram .lambdas 9 (.module pastEnd {})).run {})
          ((runProgram .anys 9 (.module pastEnd {})).run {})) ∧
      ∃ σ, (runProgram .lambdas 9 (.module pastEnd {})).run {} = .error .indexOutOfBounds σ ∧
        (runProgram .anys 9 (.module pastEnd {})).run {} = .error (.fault .outOfRange) σ :=
  ⟨rfl, runProgram_extends .anys rfl {} 9 {}, _, rfl, rfl⟩

end CompilerKit.Extension
