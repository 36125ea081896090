import CompilerKit.Proofs.Loops.Typing

/-!
# Soundness of the type system of the language of loops

A program that the type system accepts never gets stuck: a test that the machine looks at is a truth
value, so that no statement is passed over, and what a variable holds is of the type that the
checker has found for it. A run may still fail, for two reasons. The type system does not know the
input, and it does not know which branches are taken, so that a variable may be read that has no
value yet.

* `Plainly`: what the operations on numbers and truth values do, in any typed store.
* `safe_step`, `safe_run`: a step of the machine keeps the store typed, and so does every run.
* `accepted_never_stuck`: evaluation agrees with the machine, so the run of a program is safe.
-/

namespace CompilerKit.Loops

open Run List Vars

/-! ## Stores -/

/-- Every variable that has a value has a value of its type. -/
structure StoreTyped (Γ : TypeTable) (env : Nat) (σ : Store) : Prop where
  lt_size : env < σ.envs.size
  values : ∀ x v, read env σ x = some v → ∃ k : Kind, Bindings.get? Γ x = some k.ty ∧ OfKind k v

/-- A failure that the type system does not prevent. -/
inductive Excused (Γ : TypeTable) (env : Nat) (σ : Store) : RunError → Prop where
  | input (h : IsInputError e) : Excused Γ env σ e
  /-- A variable of the program is read that has no value yet. -/
  | unassigned (hx : Bindings.get? Γ x = some t) (hread : read env σ x = none) :
      Excused Γ env σ (.fault (.missingKey (Text.quote x)))

/-! ## Operations on numbers and truth values -/

/-- The result of an operation that leaves sequences and variables alone: it has given what it
should, or the input is to blame. -/
inductive Plainly (σ : Store) {α : Type} (P : α → Prop) :
    EStateM.Result RunError Store α → Prop where
  | ok {a : α} {τ : Store} (ha : P a) (hheap : τ.heap = σ.heap) (henvs : τ.envs = σ.envs) :
      Plainly σ P (.ok a τ)
  | error {e : RunError} {τ : Store} (he : IsInputError e) (henvs : τ.envs = σ.envs) :
      Plainly σ P (.error e τ)

theorem plainly_number (σ : Store) (i : Int) : Plainly σ (OfKind .int) ((number i).run σ) :=
  .ok (.int i σ.next) rfl rfl

theorem plainly_readInt (σ : Store) : Plainly σ (OfKind .int) (readInt.run σ) := by
  rw [run_readInt]
  rcases hread : σ.console.readInt with ⟨f | i, console⟩
  · exact .error (isInputError_readInt hread) rfl
  · dsimp only
    split
    · exact .ok (.int i sharedId) rfl rfl
    · exact .ok (.int i σ.next) rfl rfl

theorem plainly_neg (σ : Store) {v : Value} (hv : OfKind .int v) :
    Plainly σ (OfKind .int) ((do number (← ofExcept v.negWord)).run σ) := by
  obtain ⟨i, id⟩ := hv
  exact plainly_number σ (Word.neg i)

theorem plainly_not (σ : Store) (v : Value) :
    Plainly σ (OfKind .bool)
      ((do pure (.bool (← withHeap fun h => !v.truthy h)) : Run Value).run σ) :=
  .ok (.bool (!v.truthy σ.heap)) rfl rfl

theorem plainly_arithValues (σ : Store) {l : Language} {op : ArithOp} (hl : l.isBlocks = false)
    (hop : hasArith l op) {x y : Value} (hx : OfKind .int x) (hy : OfKind .int y) :
    Plainly σ (OfKind .int) ((arithValues l op x y).run σ) := by
  obtain ⟨i, id⟩ := hx
  obtain ⟨j, id'⟩ := hy
  cases op with
  | add | sub => exact plainly_number σ _
  | mult =>
    simp only [arithValues, hl]
    exact plainly_number σ (Word.mul i j)
  | _ => cases hop

theorem plainly_print (σ : Store) {v : Value} (hv : OfKind .int v) :
    Plainly σ (fun _ => True) ((print v).run σ) := by
  obtain ⟨i, id⟩ := hv
  rw [run_print]
  cases htext : (Value.int i id).text σ.heap with
  | ok s => exact .ok trivial rfl rfl
  | error m => exact .error (isInputError_text ⟨i, rfl⟩ htext) rfl

/-! ## Operations on typed stores -/

/-- The result of an operation: the store is typed still, and the operation has given what it should
or is excused. -/
inductive Kept (Γ : TypeTable) (env : Nat) {α : Type} (P : α → Prop) :
    EStateM.Result RunError Store α → Prop where
  | ok (ha : P a) (hσ : StoreTyped Γ env σ) : Kept Γ env P (.ok a σ)
  | error {e σ} (he : Excused Γ env σ e) (hσ : StoreTyped Γ env σ) : Kept Γ env P (.error e σ)

section Operations

variable {Γ : TypeTable} {env : Nat} {σ : Store} {k : Kind} {v : Value} {x : String}
variable (hσ : StoreTyped Γ env σ)
include hσ

theorem StoreTyped.congr (h : σ'.envs = σ.envs) : StoreTyped Γ env σ' where
  lt_size := by
    rw [h]
    exact hσ.lt_size
  values x v hx := by
    rw [Vars.read, h] at hx
    exact hσ.values x v hx

theorem Plainly.kept {α : Type} {P : α → Prop} {r : EStateM.Result RunError Store α}
    (h : Plainly σ P r) : Kept Γ env P r := by
  cases h with
  | ok ha _ henvs => exact .ok ha (hσ.congr henvs)
  | error he henvs => exact .error (.input he) (hσ.congr henvs)

theorem kept_lookup (hx : Bindings.get? Γ x = some k.ty) :
    Kept Γ env (OfKind k) ((lookup env x).run σ) := by
  cases hread : read env σ x with
  | none =>
    rw [run_lookup_none hσ.lt_size hread]
    exact .error (.unassigned hx hread) hσ
  | some v =>
    rw [run_lookup hread]
    obtain ⟨j, hj, hv⟩ := hσ.values x v hread
    have hjk : j.ty = k.ty := Option.some.inj (hj.symm.trans hx)
    rw [Kind.ty_injective hjk] at hv
    exact .ok hv hσ

theorem kept_compareValues {op} (hop : isComparison op)
    (hk : Compares op k) {x y} (hx : OfKind k x) (hy : OfKind k y) :
    Kept Γ env (OfKind .bool)
      ((do pure (.bool (← compareValues .loops op x y)) : Run Value).run σ) := by
  -- values of any one type are compared for equality; the other comparisons are between numbers
  obtain hany | rfl := hk
  · cases op with
    | eq => exact .ok (.bool _) hσ
    | notEq => exact .ok (.bool _) hσ
    | _ => cases hany
  · obtain ⟨i, id⟩ := hx
    obtain ⟨j, id'⟩ := hy
    cases op with
    | eq | notEq | lt | le | gt | ge => exact .ok (.bool _) hσ
    | _ => cases hop

theorem kept_assign (hx : Bindings.get? Γ x = some k.ty)
    (hv : OfKind k v) : Kept Γ env (fun _ => True) ((assign env x v).run σ) := by
  obtain ⟨envs, hrun, hsize, hread⟩ := run_assign hσ.lt_size x v
  rw [hrun]
  refine .ok trivial ⟨?_, fun y w hy => ?_⟩
  · rw [hsize]
    exact hσ.lt_size
  · rw [hread] at hy
    split at hy
    · next hyx =>
      cases hy
      rw [hyx]
      exact ⟨k, hx, hv⟩
    · exact hσ.values y w hy

end Operations

/-! ## Points of the program -/

/-- The frame takes a value of the first type, and the expression has the second one. -/
inductive FrameTyped (Γ : TypeTable) : Frame → Kind → Kind → Prop where
  | neg : FrameTyped Γ .neg .int .int
  | not : FrameTyped Γ .not .bool .bool
  | arithLeft (hop : hasArith .loops op) (hb : Typed Γ b .int) :
      FrameTyped Γ (.arithLeft op b) .int .int
  | arithRight {x} (hop : hasArith .loops op) (hx : OfKind .int x) :
      FrameTyped Γ (.arithRight op x) .int .int
  | logic (op) (hb : Typed Γ b .bool) : FrameTyped Γ (.logic op b) .bool .bool
  | cond {k} (hyes : Typed Γ yes k) (hno : Typed Γ no k) : FrameTyped Γ (.cond yes no) .bool k
  | compareLeft {k} (hop : isComparison op) (hk : Compares op k) (hb : Typed Γ b k) :
      FrameTyped Γ (.compareLeft op b) k .bool
  | compareRight {x k} (hop : isComparison op) (hk : Compares op k) (hx : OfKind k x) :
      FrameTyped Γ (.compareRight op x) k .bool

/-- The statement takes a value of the type. -/
inductive UseTyped (Γ : TypeTable) : Use → Kind → Prop where
  | print (hrest : ∀ s ∈ rest, TypedStmt Γ s) : UseTyped Γ (.print rest) .int
  | drop {k} (hrest : ∀ s ∈ rest, TypedStmt Γ s) : UseTyped Γ (.drop rest) k
  | assign {x rest k} (hx : Bindings.get? Γ x = some k.ty) (hrest : ∀ s ∈ rest, TypedStmt Γ s) :
      UseTyped Γ (.assign x rest) k
  | ite (hyes : ∀ s ∈ yes, TypedStmt Γ s) (hno : ∀ s ∈ no, TypedStmt Γ s)
      (hrest : ∀ s ∈ rest, TypedStmt Γ s) : UseTyped Γ (.ite yes no rest) .bool
  | loop (hagain : TypedStmt Γ again) (hbody : ∀ s ∈ body, TypedStmt Γ s)
      (hrest : ∀ s ∈ rest, TypedStmt Γ s) : UseTyped Γ (.loop again body rest) .bool

/-- What waits for a value takes one of the type. -/
inductive Expects (Γ : TypeTable) : List Frame → Use → Kind → Prop where
  | use {k} (hu : UseTyped Γ u k) : Expects Γ [] u k
  | frame {f ks u j k} (hf : FrameTyped Γ f j k) (hks : Expects Γ ks u k) : Expects Γ (f :: ks) u j

def BlockTyped (Γ : TypeTable) (b : Block) : Prop :=
  ∃ k, Typed Γ b.result k ∧ Expects Γ b.frames b.use k

inductive PointTyped (Γ : TypeTable) : Point → Prop where
  | stmts (hss : ∀ s ∈ ss, TypedStmt Γ s) (hbs : ∀ b ∈ bs, BlockTyped Γ b) :
      PointTyped Γ (.stmts ss bs)
  | done (hbs : ∀ b ∈ bs, BlockTyped Γ b) : PointTyped Γ (.done bs)
  | eval {k} (he : Typed Γ e k) (hks : Expects Γ ks u k) (hbs : ∀ b ∈ bs, BlockTyped Γ b) :
      PointTyped Γ (.expr (.eval e) ks u bs)
  | give {v ks u bs k} (hv : OfKind k v) (hks : Expects Γ ks u k) (hbs : ∀ b ∈ bs, BlockTyped Γ b) :
      PointTyped Γ (.expr (.give v) ks u bs)

/-- The machine is not stuck, and its variables hold values of their types. -/
inductive Safe (Γ : TypeTable) (env : Nat) : Outcome → Prop where
  | running (hpoint : PointTyped Γ c.point) (hσ : StoreTyped Γ env c.store) :
      Safe Γ env (.running c)
  | finished {σ} (hσ : StoreTyped Γ env σ) : Safe Γ env (.finished σ)
  | failed {σ} (he : Excused Γ env σ e) (hσ : StoreTyped Γ env σ) : Safe Γ env (.failed e σ)

/-! ## Steps -/

section Safety

variable {Γ : TypeTable} {env : Nat} {σ : Store} {x : String} {rest : List Stmt}
variable {k : Kind} {v : Value} {ks : List Frame} {u : Use} {c : State}

theorem safe_perform {α x} {P : α → Prop} {next : α → Store → Outcome} (hx : Kept Γ env P (x.run σ))
    (hnext : ∀ a σ, P a → StoreTyped Γ env σ → Safe Γ env (next a σ)) :
    Safe Γ env (perform x σ next) := by
  unfold perform
  generalize x.run σ = r at hx
  cases hx with
  | ok ha hσ => exact hnext _ _ ha hσ
  | error he hσ => exact .failed he hσ

variable {bs : List Block} (hbs : ∀ b ∈ bs, BlockTyped Γ b)
include hbs

theorem safe_perform_give {x} (hx : Kept Γ env (OfKind k) (x.run σ)) (hks : Expects Γ ks u k) :
    Safe Γ env (perform x σ (give ks u bs)) :=
  safe_perform hx fun _ _ hv hσ => .running (.give hv hks hbs) hσ

theorem safe_perform_proceed {x : Run Unit} (hx : Kept Γ env (fun _ => True) (x.run σ))
    (hrest : ∀ s ∈ rest, TypedStmt Γ s) : Safe Γ env (perform x σ fun _ => proceed bs rest) :=
  safe_perform hx fun _ _ _ hσ => .running (.stmts hrest hbs) hσ

variable (hσ : StoreTyped Γ env σ)
include hσ

theorem safe_stepEval (he : Typed Γ e k) (hks : Expects Γ ks u k) :
    Safe Γ env (stepEval env σ ks u bs e) := by
  cases he with
  | name n hx => exact safe_perform_give hbs (kept_lookup hσ hx) hks
  | int i id n => exact .running (.give (.int i id) hks hbs) hσ
  | bool b n => exact .running (.give (.bool b) hks hbs) hσ
  | input m n => exact safe_perform_give hbs ((plainly_readInt _).kept hσ) hks
  | neg n ha => exact .running (.eval ha (.frame .neg hks) hbs) hσ
  | not n ha => exact .running (.eval ha (.frame .not hks) hbs) hσ
  | arith n hop ha hb => exact .running (.eval ha (.frame (.arithLeft hop hb) hks) hbs) hσ
  | logic op more n ha hb => exact .running (.eval ha (.frame (.logic op hb) hks) hbs) hσ
  | cond n htest hyes hno => exact .running (.eval htest (.frame (.cond hyes hno) hks) hbs) hσ
  | compare n hop hk ha hb =>
    exact .running (.eval ha (.frame (.compareLeft hop hk hb) hks) hbs) hσ
  | @block ss r _ n hss hr =>
    have hblock : BlockTyped Γ ⟨r, ks, u⟩ := ⟨k, hr, hks⟩
    exact .running (.stmts hss (forall_mem_cons.mpr ⟨hblock, hbs⟩)) hσ

theorem safe_stepFrame (hf : FrameTyped Γ f j k) (hv : OfKind j v) (hks : Expects Γ ks u k) :
    Safe Γ env (stepFrame σ ks u bs v f) := by
  cases hf with
  | neg => exact safe_perform_give hbs ((plainly_neg _ hv).kept hσ) hks
  | not => exact safe_perform_give hbs ((plainly_not _ v).kept hσ) hks
  | arithLeft hop hb => exact .running (.eval hb (.frame (.arithRight hop hv) hks) hbs) hσ
  | arithRight hop hx =>
    exact safe_perform_give hbs ((plainly_arithValues _ rfl hop hx hv).kept hσ) hks
  | logic op hb =>
    cases hv with
    | bool b =>
      cases op <;> cases b
      · exact .running (.give (.bool false) hks hbs) hσ
      · exact .running (.eval hb hks hbs) hσ
      · exact .running (.eval hb hks hbs) hσ
      · exact .running (.give (.bool true) hks hbs) hσ
  | cond hyes hno =>
    cases hv with
    | bool b =>
      cases b
      · exact .running (.eval hno hks hbs) hσ
      · exact .running (.eval hyes hks hbs) hσ
  | compareLeft hop hk hb =>
    exact .running (.eval hb (.frame (.compareRight hop hk hv) hks) hbs) hσ
  | compareRight hop hk hx => exact safe_perform_give hbs (kept_compareValues hσ hop hk hx hv) hks

theorem safe_stepUse (hu : UseTyped Γ u k) (hv : OfKind k v) :
    Safe Γ env (stepUse env σ bs v u) := by
  cases hu with
  | print hrest => exact safe_perform_proceed hbs ((plainly_print _ hv).kept hσ) hrest
  | drop hrest => exact .running (.stmts hrest hbs) hσ
  | assign hx hrest => exact safe_perform_proceed hbs (kept_assign hσ hx hv) hrest
  | ite hyes hno hrest =>
    cases hv with
    | bool b =>
      cases b
      · exact .running (.stmts (forall_mem_append.mpr ⟨hno, hrest⟩) hbs) hσ
      · exact .running (.stmts (forall_mem_append.mpr ⟨hyes, hrest⟩) hbs) hσ
  | @loop again body rest hagain hbody hrest =>
    have hnext : ∀ s ∈ if v.truthy σ.heap then body ++ again :: rest else rest, TypedStmt Γ s := by
      split
      · have htail := forall_mem_cons.mpr ⟨hagain, hrest⟩
        exact forall_mem_append.mpr ⟨hbody, htail⟩
      · exact hrest
    exact .running (.stmts hnext hbs) hσ

theorem safe_stepStmt (hs : TypedStmt Γ s) (hrest : ∀ s ∈ rest, TypedStmt Γ s) :
    Safe Γ env (stepStmt σ bs rest s) := by
  cases hs with
  | print m n k he => exact .running (.eval he (.use (.print hrest)) hbs) hσ
  | @expr e k n he =>
    have hstep : stepStmt σ bs rest (.expr e n) = enter [] (.drop rest) bs e σ := by
      cases he <;> rfl
    rw [hstep]
    exact .running (.eval he (.use (.drop hrest)) hbs) hσ
  | assign m n hx he => exact .running (.eval he (.use (.assign hx hrest)) hbs) hσ
  | ite n htest hyes hno => exact .running (.eval htest (.use (.ite hyes hno hrest)) hbs) hσ
  | loop n htest hbody =>
    exact .running (.eval htest (.use (.loop (.loop n htest hbody) hbody hrest)) hbs) hσ

omit hbs hσ

theorem safe_step (hpoint : PointTyped Γ c.point) (hσ : StoreTyped Γ env c.store) :
    Safe Γ env (step env c) := by
  obtain ⟨point, σ⟩ := c
  cases hpoint with
  | @stmts ss bs hss hbs =>
    cases ss with
    | nil => exact .running (.done hbs) hσ
    | cons s rest =>
      rw [forall_mem_cons] at hss
      exact safe_stepStmt hbs hσ hss.1 hss.2
  | @done bs hbs =>
    cases bs with
    | nil => exact .finished hσ
    | cons b bs =>
      rw [forall_mem_cons] at hbs
      obtain ⟨⟨k, hr, hks⟩, hbs⟩ := hbs
      exact .running (.eval hr hks hbs) hσ
  | eval he hks hbs => exact safe_stepEval hbs hσ he hks
  | give hv hks hbs =>
    cases hks with
    | use hu => exact safe_stepUse hbs hσ hu hv
    | frame hf hks => exact safe_stepFrame hbs hσ hf hv hks

theorem safe_run (hpoint : PointTyped Γ c.point) (hσ : StoreTyped Γ env c.store) (n) :
    Safe Γ env (run env n c) := by
  induction n generalizing c with
  | zero => exact .running hpoint hσ
  | succ n ih =>
    have hstep := safe_step hpoint hσ
    rw [run]
    generalize step env c = o at hstep
    cases hstep with
    | running hpoint hσ => exact ih hpoint hσ
    | finished hσ => exact .finished hσ
    | failed he hσ => exact .failed he hσ

/-! ## Programs -/

/-- The machine before the statements of a program, with a new environment. -/
def start (ss : List Stmt) (σ : Store) : State :=
  ⟨.stmts ss [], { σ with envs := σ.envs.push [] }⟩

theorem storeTyped_start (Γ ss σ) : StoreTyped Γ σ.envs.size (start ss σ).store where
  lt_size := by simp [start]
  values x v hx := by
    simp [start, Vars.read] at hx
    cases hx

theorem agrees_runProgram (hss : ∀ s ∈ ss, IsStmt s) (note fuel σ) :
    Agrees σ.envs.size (start ss σ) fuel (fun _ σ => .finished σ)
      ((runProgram .loops fuel (.module ss note)).run σ) := by
  have hrun := (simulated σ.envs.size fuel).all hss [] (start ss σ).store
  exact hrun.bind fun _ σ => .ok (n := 1) rfl

/-- The result of a program that may use `fuel` nested rules: it is where the machine ends, and as
it should be, or the machine runs for half as many steps at least. -/
inductive Answered (Γ : TypeTable) (env : Nat) (c : State) (fuel : Nat) :
    EStateM.Result RunError Store Unit → Prop where
  | finished {σ : Store} (h : run env n c = .finished σ) (hσ : StoreTyped Γ env σ) :
      Answered Γ env c fuel (.ok () σ)
  | failed {σ : Store} (h : run env n c = .failed e σ) (he : Excused Γ env σ e)
      (hσ : StoreTyped Γ env σ) : Answered Γ env c fuel (.error e σ)
  | cut {σ : Store} (h : ∀ n, 2 * n < fuel → ∃ d, run env n c = .running d) :
      Answered Γ env c fuel (.error (.fault .outOfFuel) σ)

theorem Agrees.answered (h : Agrees env c fuel (fun _ σ => .finished σ) r)
    (hsafe : ∀ n, Safe Γ env (run env n c)) : Answered Γ env c fuel r := by
  cases h with
  | @ok n a σ h =>
    have hn := hsafe n
    rw [h] at hn
    cases hn with
    | finished hσ => exact .finished h hσ
  | @failed n e σ h =>
    have hn := hsafe n
    rw [h] at hn
    cases hn with
    | failed he hσ => exact .failed h he hσ
  | @cut n d hfuel h => exact .cut fun m hm => run_le h (by omega)
  | @stuck n r h =>
    have hn := hsafe n
    rw [h] at hn
    cases hn

/-- A program that the type system accepts never gets stuck, however long it runs and whatever the
input is: the machine is safe after any number of steps, and evaluation gives what the machine
gives. -/
theorem accepted_never_stuck {ss : List Stmt} (hss : ∀ s ∈ ss, IsStmt s) {note : Note}
    {q : Program} (hok : checkModule .loops (.module ss note) = .ok q) (σ : Store) :
    ∃ r Γ, (checkStmts .loops none ss).run [] = .ok (r, Γ) ∧
      (∀ n, Safe Γ σ.envs.size (run σ.envs.size n (start ss σ))) ∧
      ∀ fuel, Answered Γ σ.envs.size (start ss σ) fuel
        ((runProgram .loops fuel (.module ss note)).run σ) := by
  obtain ⟨r, Γ, hcheck⟩ := checkModule_ok hok
  have hnone : ∀ b ∈ ([] : List Block), BlockTyped Γ b := fun b hb => absurd hb not_mem_nil
  have hpoint : PointTyped Γ (start ss σ).point := .stmts (checkStmts_typed hss hcheck) hnone
  have hsafe := safe_run hpoint (storeTyped_start Γ ss σ)
  exact ⟨r, Γ, hcheck, hsafe, fun fuel => (agrees_runProgram hss note fuel σ).answered hsafe⟩

/-- A program with a loop, a block and branches, one of which reads a variable that has no value if
the loop was not entered. -/
theorem accepted_never_stuck_branches :
    let x : Expr := .name "x" {}
    let small : Expr := .name "small" {}
    let print (e : Expr) : Stmt := .expr (.call (.name "print" {}) [e] {}) {}
    let next : Expr :=
      .block [.assign [.name "x" {}] (.arith x .sub (.const (.int 1 0) {}) {}) {}] x {}
    let test : Expr := .logic .and [.compare x [.lt] [.const (.int 3 0) {}] {},
      .unary .not (.compare x [.eq] [.const (.int 0 0) {}] {}) {}] {}
    let ss : List Stmt := [
      .assign [.name "x" {}] (.call (.name "input_int" {}) [] {}) {},
      .assign [.name "small" {}] test {},
      .loop small [.assign [.name "y" {}] next {}, .assign [.name "small" {}] test {}] [] {},
      .ite (.compare small [.notEq] [.const (.bool true) {}] {})
        [print (.cond small x (.name "y" {}) {})] [print (.unary .neg x {})] {}]
    let σ : Store := { console := .ofInput "2" }
    (∀ s ∈ ss, IsStmt s) ∧ checkModule .loops (.module ss {}) = .ok (.module ss {}) ∧
      ∃ r Γ, (checkStmts .loops none ss).run [] = .ok (r, Γ) ∧
        (∀ n, Safe Γ 0 (run 0 n (start ss σ))) ∧
        ∀ fuel, Answered Γ 0 (start ss σ) fuel
          ((runProgram .loops fuel (.module ss {})).run σ) := by
  intro x small print next test ss σ
  have hx : IsExpr x := .name "x" {}
  have hsmall : IsExpr small := .name "small" {}
  have htest : IsExpr test :=
    .logic .and [] {} (.compare {} rfl hx (.int 3 0 {}))
      (.not {} (.compare {} rfl hx (.int 0 0 {})))
  have hnext : IsExpr next := by
    refine .block rfl (forall_mem_singleton.mpr ?_) hx
    exact .assign "x" {} {} (.arith {} rfl hx (.int 1 0 {}))
  have hprint (e : Expr) (he : IsExpr e) : ∀ s ∈ [print e], IsStmt s :=
    forall_mem_singleton.mpr (.print {} {} {} he)
  have hss : ∀ s ∈ ss, IsStmt s := by
    refine List.forall_mem_cons.mpr ⟨.assign "x" {} {} (.input {} {}), ?_⟩
    refine List.forall_mem_cons.mpr ⟨.assign "small" {} {} htest, ?_⟩
    refine List.forall_mem_cons.mpr ⟨.loop rfl hsmall ?_, forall_mem_singleton.mpr ?_⟩
    · refine List.forall_mem_cons.mpr ⟨.assign "y" {} {} hnext, ?_⟩
      exact forall_mem_singleton.mpr (.assign "small" {} {} htest)
    · refine .ite rfl (.compare {} rfl hsmall (.bool true {})) (hprint _ ?_) (hprint _ ?_)
      · exact .cond {} hsmall hx (.name "y" {})
      · exact .neg {} hx
  have hok : checkModule .loops (.module ss {}) = .ok (.module ss {}) := rfl
  exact ⟨hss, hok, accepted_never_stuck hss hok σ⟩

end Safety

end CompilerKit.Loops
