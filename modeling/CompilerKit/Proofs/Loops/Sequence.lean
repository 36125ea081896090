import CompilerKit.Proofs.Loops.Sound

/-!
# Statements after statements

A list of statements in front of another one is run like the first list and then, where it ends, the
second. A conditional or a loop of the first list has the second list in what follows it, so that
this holds only where no test passes over what follows.

* `forward_step`: a step of the machine takes nothing back of what has been printed, and gives
  nothing back of what has been read.
* `Agrees.sameRun`: two computations that agree with one machine end alike or go through its stores.
* `evalStmts_append`: the two ways to run the statements of an accepted program are such
  computations; the machine of both starts before the first list, in a block that goes on with the
  second one.
-/

namespace CompilerKit.Loops

open Run List

/-! ## What has been printed and read -/

/-- Nothing of what was printed is taken back, and nothing of what was read is given back. -/
structure Onward (σ τ : Store) : Prop where
  printed : ∃ s, τ.console.output = σ.console.output ++ s
  unread : τ.console.input <:+ σ.console.input

theorem Onward.of_console {σ τ : Store} (h : τ.console = σ.console) : Onward σ τ where
  printed := ⟨"", by rw [h, String.append_empty]⟩
  unread := h ▸ suffix_rfl

theorem Onward.trans {σ τ υ : Store} (h : Onward σ τ) (h' : Onward τ υ) : Onward σ υ where
  printed := by
    obtain ⟨s, hs⟩ := h.printed
    obtain ⟨t, ht⟩ := h'.printed
    exact ⟨s ++ t, by rw [ht, hs, String.append_assoc]⟩
  unread := h'.unread.trans h.unread

/-- The operation goes onward, where it does not fail. -/
def Advances {α : Type} (x : Run α) : Prop := ∀ σ a τ, x.run σ = .ok a τ → Onward σ τ

theorem advances_pure {α : Type} (a : α) : Advances (pure a : Run α) := by
  intro σ b τ h
  cases h
  exact .of_console rfl

theorem Advances.bind {α β : Type} {x : Run α} {f : α → Run β} (hx : Advances x)
    (hf : ∀ a, Advances (f a)) : Advances (x >>= f) := by
  intro σ b τ h
  rw [EStateM.run_bind] at h
  cases hrun : x.run σ with
  | error e υ =>
    rw [hrun] at h
    cases h
  | ok a υ =>
    rw [hrun] at h
    exact (hx σ a υ hrun).trans (hf a υ b τ h)

theorem advances_ofExcept {α : Type} (r : Except Fault α) : Advances (ofExcept r) := by
  cases r with
  | ok a => exact advances_pure a
  | error e => exact fun σ b τ h => by cases h

theorem advances_withHeap {α : Type} (f : Heap → α) : Advances (withHeap f) := by
  intro σ b τ h
  cases h
  exact .of_console rfl

theorem advances_number (i : Int) : Advances (number i) := by
  intro σ v τ h
  cases h
  exact .of_console rfl

theorem advances_envAt (f : Fault) (i : Nat) : Advances (envAt f i) := by
  intro σ e τ h
  cases henv : σ.envs[i]? with
  | none =>
    rw [envAt, EStateM.run_bind, EStateM.run_get] at h
    simp only [henv] at h
    cases h
  | some env =>
    rw [Vars.run_envAt henv] at h
    cases h
    exact .of_console rfl

theorem advances_lookup (env : Nat) (x : String) : Advances (lookup env x) := by
  refine (advances_envAt .wrongKind env).bind fun e => ?_
  split
  · exact advances_pure _
  · exact fun σ b τ h => by cases h

theorem advances_assign (env : Nat) (x : String) (v : Value) : Advances (assign env x v) := by
  refine (advances_envAt .wrongKind env).bind fun e σ b τ h => ?_
  cases h
  exact .of_console rfl

theorem advances_print (v : Value) : Advances (print v) := by
  intro σ b τ h
  rw [Vars.run_print] at h
  cases htext : v.text σ.heap with
  | error m =>
    rw [htext] at h
    cases h
  | ok s =>
    rw [htext] at h
    cases h
    exact ⟨⟨s, rfl⟩, suffix_rfl⟩

theorem advances_readInt : Advances readInt := by
  intro σ v τ h
  have hrest : σ.console.readInt.2.output = σ.console.output ∧
      σ.console.readInt.2.input <:+ σ.console.input := by
    unfold Console.readInt Console.readLine?
    split
    · exact ⟨rfl, suffix_rfl⟩
    · next line rest hline =>
      split at hline
      · cases hline
      · cases hline
        split <;> exact ⟨rfl, drop_suffix _ _⟩
  have honward : Onward σ { σ with console := σ.console.readInt.2 } :=
    ⟨⟨"", by rw [hrest.1, String.append_empty]⟩, hrest.2⟩
  rw [Vars.run_readInt] at h
  rcases hread : σ.console.readInt with ⟨f | i, console⟩
  · rw [hread] at h
    cases h
  · rw [hread] at h honward
    dsimp only at h
    split at h
    · cases h
      exact honward
    · cases h
      exact honward.trans (.of_console rfl)

theorem advances_arithValues (op : ArithOp) (x y : Value) :
    Advances (arithValues .loops op x y) := by
  cases op with
  | add | sub => exact (advances_ofExcept _).bind advances_number
  | _ => exact (advances_ofExcept _).bind advances_number

theorem advances_compareValues (op : CmpOp) (x y : Value) :
    Advances (compareValues .loops op x y) := by
  cases op with
  | eq | notEq =>
    intro σ b τ h
    cases h
    exact .of_console rfl
  | lt | le | gt | ge => exact (advances_withHeap _).bind advances_ofExcept
  | same | notSame | mem | notMem => exact fun σ b τ h => by cases h

/-- A machine that runs on has gone onward from the store. -/
def Forward (σ : Store) : Outcome → Prop
  | .running d => Onward σ d.store
  | _ => True

theorem forward_perform {α : Type} {x : Run α} {σ : Store} {next : α → Store → Outcome}
    (hx : Advances x) (hnext : ∀ a τ, ∃ p, next a τ = .running ⟨p, τ⟩) :
    Forward σ (perform x σ next) := by
  unfold perform
  split
  · next a τ h =>
    obtain ⟨p, hp⟩ := hnext a τ
    rw [hp]
    exact hx σ a τ h
  · trivial

section

variable (env : Nat) (σ : Store) (ks : List Frame) (u : Use) (bs : List Block)

theorem forward_stepEval (e : Expr) : Forward σ (stepEval env σ ks u bs e) := by
  unfold stepEval
  split
  case h_1 => exact forward_perform (advances_lookup env _) fun v τ => ⟨_, rfl⟩
  case h_3 => exact forward_perform advances_readInt fun v τ => ⟨_, rfl⟩
  case h_11 => trivial
  all_goals exact .of_console rfl

theorem forward_stepFrame (v : Value) (k : Frame) : Forward σ (stepFrame σ ks u bs v k) := by
  have hgive (w : Value) (τ : Store) : ∃ p, give ks u bs w τ = .running ⟨p, τ⟩ := ⟨_, rfl⟩
  cases k with
  | neg => exact forward_perform ((advances_ofExcept _).bind advances_number) hgive
  | not => exact Onward.of_console rfl
  | arithLeft | compareLeft => exact .of_console rfl
  | arithRight op x => exact forward_perform (advances_arithValues op x v) hgive
  | compareRight op x =>
    exact forward_perform ((advances_compareValues op x v).bind fun b => advances_pure _) hgive
  | logic op b =>
    unfold stepFrame
    dsimp only
    split
    case h_5 => trivial
    all_goals exact .of_console rfl
  | cond yes no =>
    unfold stepFrame
    dsimp only
    split
    case h_3 => trivial
    all_goals exact .of_console rfl

theorem forward_stepUse (v : Value) : Forward σ (stepUse env σ bs v u) := by
  cases u with
  | print rest => exact forward_perform (advances_print v) fun _ τ => ⟨_, rfl⟩
  | assign x rest => exact forward_perform (advances_assign env x v) fun _ τ => ⟨_, rfl⟩
  | drop | loop => exact .of_console rfl
  | ite yes no rest =>
    unfold stepUse
    dsimp only
    split
    case h_3 => trivial
    all_goals exact .of_console rfl

theorem forward_stepStmt (rest : List Stmt) (s : Stmt) : Forward σ (stepStmt σ bs rest s) := by
  unfold stepStmt
  split
  case h_6 => trivial
  all_goals exact .of_console rfl

end

theorem forward_step (env : Nat) (c : State) : Forward c.store (step env c) := by
  obtain ⟨p, σ⟩ := c
  cases p with
  | stmts ss bs =>
    cases ss with
    | nil => exact .of_console rfl
    | cons s rest => exact forward_stepStmt σ bs rest s
  | done bs =>
    cases bs with
    | nil => trivial
    | cons b bs => exact .of_console rfl
  | expr f ks u bs =>
    cases f with
    | eval e => exact forward_stepEval env σ ks u bs e
    | give v =>
      cases ks with
      | nil => exact forward_stepUse env σ u bs v
      | cons k ks => exact forward_stepFrame σ ks u bs v k

/-! ## Results -/

/-- With enough fuel the computation ends, and always in the same way. -/
structure Ends (x : Nat → Run Unit) (σ : Store) (r : Result Unit) : Prop where
  fueled : ∀ τ, r ≠ .error (.fault .outOfFuel) τ
  reached : ∃ N, ∀ fuel, N ≤ fuel → (x fuel).run σ = r

/-- The computation ends with no amount of fuel. It stops at one of the stores, and with more fuel
at a later one. -/
def RunsThrough (x : Nat → Run Unit) (σ : Store) (stores : Nat → Store) : Prop :=
  ∀ fuel, ∃ n, fuel ≤ 2 * n + 1 ∧ (x fuel).run σ = .error (.fault .outOfFuel) (stores n)

/-- Both computations end in the same way, or both run on through the same stores. Since each store
is onward from the one before, both then print the same text and read the same input on the way. -/
def SameRun (x y : Nat → Run Unit) (σ : Store) : Prop :=
  (∃ r, Ends x σ r ∧ Ends y σ r) ∨
    ∃ stores : Nat → Store, stores 0 = σ ∧ (∀ n, Onward (stores n) (stores (n + 1))) ∧
      RunsThrough x σ stores ∧ RunsThrough y σ stores

section

variable {env fuel : Nat} {c : State} {σ : Store} {Γ : TypeTable}

/-! ## The end of the machine -/

theorem run_of_le (hn : ∀ d, run env n c ≠ .running d) (hnm : n ≤ m) :
    run env m c = run env n c := by
  induction n generalizing m c with
  | zero => exact absurd rfl (hn c)
  | succ n ih =>
    obtain ⟨m, rfl⟩ := Nat.exists_eq_add_of_le' hnm
    rw [← Nat.add_assoc, run, run]
    rw [run] at hn
    cases hs : step env c with
    | running d =>
      rw [hs] at hn
      exact ih hn (Nat.le_add_left n m)
    | _ => rfl

theorem run_unique (hm : ∀ d, run env m c ≠ .running d) (hn : ∀ d, run env n c ≠ .running d) :
    run env m c = run env n c := by
  obtain h | h := Nat.le_total m n
  · exact (run_of_le hm h).symm
  · exact run_of_le hn h

/-- The store of a machine that runs on. -/
def Outcome.storeOr (σ : Store) : Outcome → Store
  | .running d => d.store
  | _ => σ

/-- The result of a machine that has ended. -/
def Outcome.result? : Outcome → Option (Result Unit)
  | .finished σ => some (.ok () σ)
  | .failed e σ => some (.error e σ)
  | _ => none

variable {r s : Result Unit}

/-- With enough fuel, the result that agrees with a machine that ends is the one of the machine. -/
theorem Agrees.eq_result {n : Nat} (h : Agrees env c fuel (fun _ => .finished) s)
    (hr : (run env n c).result? = some r) (hfuel : 2 * n + 2 ≤ fuel) : s = r := by
  have hn (d : State) : run env n c ≠ .running d := by
    intro hd
    rw [hd] at hr
    cases hr
  have hsame {m : Nat} {o : Outcome} (hm : run env m c = o) (ho : ∀ d, o ≠ .running d) :
      o.result? = some r := by
    rw [← hr, ← run_unique (hm ▸ ho) hn, hm]
  cases h with
  | ok h | failed h => exact Option.some.inj (hsame h fun d hd => by cases hd)
  | stuck h => cases hsame h fun d hd => by cases hd
  | @cut m d hm h => exact absurd ((run_of_le hn (by omega)).symm.trans h) (hn d)

variable {x : Nat → Run Unit}
  (hx : ∀ fuel, Agrees env c fuel (fun _ => .finished) ((x fuel).run σ))
include hx

theorem Agrees.ends (hsafe : Safe Γ env (run env n c)) (hr : (run env n c).result? = some r) :
    Ends x σ r where
  fueled τ hτ := by
    generalize run env n c = o at hsafe hr
    cases hsafe with
    | running hpoint hσ => cases hr
    | finished hσ =>
      cases hr
      cases hτ
    | failed he hσ =>
      cases hr
      cases hτ
      cases he with
      | input h => obtain h | h := h <;> cases h
  reached := ⟨2 * n + 2, fun fuel hfuel => (hx fuel).eq_result hr hfuel⟩

theorem Agrees.runsThrough {stores : Nat → Store}
    (hc : ∀ n, ∃ d, run env n c = .running d ∧ d.store = stores n) : RunsThrough x σ stores := by
  intro fuel
  have h := hx fuel
  generalize (x fuel).run σ = s at h
  cases h with
  | @cut n d hn h =>
    obtain ⟨d', hd, hstore⟩ := hc n
    cases hd.symm.trans h
    exact ⟨n, hn, by rw [hstore]⟩
  | @ok n a τ h | @failed n e τ h | @stuck n r h =>
    obtain ⟨d, hd, -⟩ := hc n
    cases hd.symm.trans h

theorem Agrees.sameRun {y : Nat → Run Unit} (hstart : c.store = σ)
    (hy : ∀ fuel, Agrees env c fuel (fun _ => .finished) ((y fuel).run σ))
    (hsafe : ∀ n, Safe Γ env (run env n c)) : SameRun x y σ := by
  by_cases hend : ∃ n r, (run env n c).result? = some r
  · obtain ⟨n, r, hr⟩ := hend
    exact .inl ⟨r, Agrees.ends hx (hsafe n) hr, Agrees.ends hy (hsafe n) hr⟩
  · have hon (n : Nat) : ∃ d, run env n c = .running d := by
      have hn := hsafe n
      generalize ho : run env n c = o at hn
      cases hn with
      | @running d _ _ => exact ⟨d, rfl⟩
      | finished _ | failed _ _ => exact absurd ⟨n, _, congrArg Outcome.result? ho⟩ hend
    have hstores (n : Nat) : ∃ d, run env n c = .running d ∧ d.store = (run env n c).storeOr σ := by
      obtain ⟨d, hd⟩ := hon n
      exact ⟨d, hd, by rw [hd]; rfl⟩
    refine .inr ⟨fun n => (run env n c).storeOr σ, hstart, fun n => ?_,
      Agrees.runsThrough hx hstores,
      Agrees.runsThrough hy hstores⟩
    obtain ⟨d, hd, hstore⟩ := hstores n
    have hnext : run env (n + 1) c = Loops.step env d := (run_add hd 1).trans (run_one env d)
    obtain ⟨d', hd', hstore'⟩ := hstores (n + 1)
    have hforward := forward_step env d
    rw [← hnext, hd'] at hforward
    rwa [Forward, hstore, hstore'] at hforward

end

/-! ## Two lists -/

section

variable {ss₁ ss₂ : List Stmt} (h₁ : ∀ s ∈ ss₁, IsStmt s) (h₂ : ∀ s ∈ ss₂, IsStmt s)
variable (env fuel : Nat) (σ : Store)

/-- A block that goes on with the statements. -/
def resume (ss : List Stmt) : Block := ⟨.const (.bool true) {}, [], .drop ss⟩

include h₂ in
theorem agrees_resume : Agrees env ⟨.done [resume ss₂], σ⟩ fuel (fun _ => .finished)
    ((evalStmts .loops fuel env ss₂).run σ) := by
  have hlast := ((simulated env fuel).all h₂ [] σ).bind (f := pure) (k := fun _ => .finished)
    fun v τ => .ok (n := 1) rfl
  rw [bind_pure] at hlast
  exact hlast.after (m := 3) rfl (Nat.le_add_right fuel 6)

include h₁ h₂

theorem agrees_append : Agrees env ⟨.stmts ss₁ [resume ss₂], σ⟩ fuel (fun _ => .finished)
    ((evalStmts .loops fuel env (ss₁ ++ ss₂)).run σ) := by
  have hnil (f : Nat) : SimulatesAll env [resume ss₂] ss₂ .finished f [] := fun τ =>
    (agrees_resume h₂ env f τ).step rfl (Nat.le_add_right f 2)
  exact (simulated env fuel).stmts [resume ss₂] ss₂ .finished (fun f _ => hnil f) ss₁ h₁ σ

theorem agrees_both : Agrees env ⟨.stmts ss₁ [resume ss₂], σ⟩ fuel (fun _ => .finished)
    ((do let _ ← evalStmts .loops fuel env ss₁; evalStmts .loops fuel env ss₂).run σ) :=
  ((simulated env fuel).all h₁ [resume ss₂] σ).bind fun _ τ => agrees_resume h₂ env fuel τ

end

/-- In an accepted program the statements `ss₁` in front of `ss₂` have the effect of `ss₁` and then
of `ss₂`, from every store whose variables have values of their types: both ways end with the same
error or without one, and in the same store, or both run on without an end, through the same stores.
-/
theorem evalStmts_append {ss₁ ss₂ : List Stmt} (hss : ∀ s ∈ ss₁ ++ ss₂, IsStmt s) {note : Note}
    {q : Program} (hok : checkModule .loops (.module (ss₁ ++ ss₂) note) = .ok q) :
    ∃ r Γ, (checkStmts .loops none (ss₁ ++ ss₂)).run [] = .ok (r, Γ) ∧
      ∀ env σ, StoreTyped Γ env σ → SameRun
        (fun fuel => do
          let _ ← evalStmts .loops fuel env (ss₁ ++ ss₂))
        (fun fuel => do
          let _ ← evalStmts .loops fuel env ss₁
          let _ ← evalStmts .loops fuel env ss₂) σ := by
  obtain ⟨r, Γ, hcheck⟩ := checkModule_ok hok
  obtain ⟨htyped₁, htyped₂⟩ := forall_mem_append.mp (checkStmts_typed hss hcheck)
  obtain ⟨h₁, h₂⟩ := forall_mem_append.mp hss
  refine ⟨r, Γ, hcheck, fun env σ hσ => ?_⟩
  have hblock : BlockTyped Γ (resume ss₂) := ⟨.bool, .bool true {}, .use (.drop htyped₂)⟩
  have hpoint := PointTyped.stmts htyped₁ (forall_mem_singleton.mpr hblock)
  refine Agrees.sameRun (fun fuel => ?_) rfl (fun fuel => ?_) (safe_run (c := ⟨_, σ⟩) hpoint hσ)
  · exact (agrees_append h₁ h₂ env fuel σ).discard ()
  · rw [← bind_assoc]
    exact (agrees_both h₁ h₂ env fuel σ).discard ()

/-- A loop that counts up an input, and the output after it. -/
theorem evalStmts_append_counting :
    let x : Expr := .name "x" {}
    let ss₁ : List Stmt := [.assign [x] (.call (.name "input_int" {}) [] {}) {},
      .loop (.compare x [.lt] [.const (.int 3 0) {}] {})
        [.assign [x] (.arith x .add (.const (.int 1 0) {}) {}) {}] [] {}]
    let ss₂ : List Stmt := [.expr (.call (.name "print" {}) [x] {}) {}]
    (∀ s ∈ ss₁ ++ ss₂, IsStmt s) ∧
      checkModule .loops (.module (ss₁ ++ ss₂) {}) = .ok (.module (ss₁ ++ ss₂) {}) ∧
      ∀ console : Console, SameRun
        (fun fuel => do
          let _ ← evalStmts .loops fuel 0 (ss₁ ++ ss₂))
        (fun fuel => do
          let _ ← evalStmts .loops fuel 0 ss₁
          let _ ← evalStmts .loops fuel 0 ss₂) { console, envs := #[[]] } := by
  intro x ss₁ ss₂
  have hx : IsExpr x := .name "x" {}
  have hss : ∀ s ∈ ss₁ ++ ss₂, IsStmt s := by
    refine forall_mem_cons.mpr ⟨.assign "x" {} {} (.input {} {}), ?_⟩
    refine forall_mem_cons.mpr ⟨.loop rfl (.compare {} rfl hx (.int 3 0 {})) ?_, ?_⟩
    · exact forall_mem_singleton.mpr (.assign "x" {} {} (.arith {} rfl hx (.int 1 0 {})))
    · exact forall_mem_singleton.mpr (.print {} {} {} hx)
  have hok : checkModule .loops (.module (ss₁ ++ ss₂) {}) = .ok (.module (ss₁ ++ ss₂) {}) := rfl
  obtain ⟨r, Γ, -, hsame⟩ := evalStmts_append hss hok
  exact ⟨hss, hok, fun console => hsame 0 _ (storeTyped_start Γ [] { console })⟩

end CompilerKit.Loops
