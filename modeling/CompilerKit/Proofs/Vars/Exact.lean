import CompilerKit.Proofs.Vars.Typed

/-!
# The type system of variables is exact

Statements of the language run one after the other, and all numbers are of one type, so the check
of a program goes through the same steps as its runs: it stops at the first variable that is read
before it is written, and so does every run that finds enough numbers to read.

* `Meets`, `exec_meets`: the check of statements beside a run of them. Between two statements the
  variables that the check knows are those that have a value (`Matches`).
* `accepted_iff_finishes`: the check is exact, for programs whose constants can be written.
* `longNumber_unlike_check`: with longer constants it is not, because a run stops at their output.
-/

namespace CompilerKit.Vars

open Run Check Bindings Word Text

/-! ## Programs and their inputs -/

/-- The value is a number that has a written form. -/
structure Written (v : Value) : Prop where
  number : IsNumber v
  text : ∀ h, ∃ s, v.text h = .ok s

/-- The statements are of the language. They may read any variable; their constants are numbers that
have a written form, which is to say at most 4300 digits (`written_int_iff`). -/
def IsProgram (ss : List Stmt) : Prop :=
  Scoped (fun _ _ => True) Written (fun _ => True) ss

/-- How many numbers an expression reads. -/
def inputsOf : Expr → Nat
  | .unary _ a _ => inputsOf a
  | .arith a _ b _ => inputsOf a + inputsOf b
  | .call _ [a] _ => inputsOf a
  | .call _ _ _ => 1
  | _ => 0

/-- How many numbers statements read. -/
def inputs : List Stmt → Nat
  | [] => 0
  | .expr e _ :: ss | .assign _ e _ :: ss => inputsOf e + inputs ss
  | _ :: ss => inputs ss

/-- The next so many lines of the input are numbers. -/
def Supplies : Nat → Console → Prop
  | 0, _ => True
  | n + 1, c => ∃ i rest, c.readInt = (.ok i, rest) ∧ Supplies n rest

/-- The run of a program ends without an error, if it is given enough fuel. -/
def Finishes (p : Program) (c : Console) : Prop :=
  ∃ N, ∀ fuel, N ≤ fuel → ∃ σ, (runProgram .vars fuel p).run { console := c } = .ok () σ

/-- The run of a program stops at a variable without a value, if it is given enough fuel. -/
def Misses (p : Program) (x : String) (c : Console) : Prop :=
  ∃ N, ∀ fuel, N ≤ fuel → ∃ σ, (runProgram .vars fuel p).run { console := c } =
    .error (.fault (.missingKey (quote x))) σ

/-- So many lines with a zero. -/
def zeros (n : Nat) : Console := { input := (List.replicate n ['0', '\n']).flatten }

theorem supplies_zeros (n) : Supplies n (zeros n) := by
  induction n with
  | zero => trivial
  | succ n ih =>
    have hzero : readInt? (String.ofList ['0']) = some 0 := by decide +kernel
    refine ⟨0, zeros n, ?_, ih⟩
    have hinput : (zeros (n + 1)).input = '0' :: '\n' :: (zeros n).input := by
      simp [zeros, List.replicate_succ]
    unfold Console.readInt Console.readLine?
    rw [hinput]
    simp [hzero, zeros]
    decide

variable {c : Console} {x : String}

theorem Supplies.congr (h : Supplies n c) (hd : d.input = c.input) : Supplies n d := by
  induction n generalizing c d with
  | zero => trivial
  | succ n ih =>
    obtain ⟨i, rest, hread, hrest⟩ := h
    have hcongr := Console.readInt_congr hd
    rw [hread] at hcongr
    exact ⟨i, _, hcongr, ih hrest rfl⟩

/-- The numbers that can be written are those of at most 4300 digits. -/
theorem decimal_ok_iff (i : Int) :
    (∃ s, decimal i = .ok s) ↔ (toString i.natAbs).length ≤ maxDigits := by
  unfold decimal
  split
  · next hsmall =>
    have hlength : (Nat.toDigits 10 i.natAbs).length ≤ 20 :=
      (Nat.length_toDigits_le_iff (by decide) (by decide)).mpr hsmall
    rw [Nat.toString_eq_ofList_toDigits, String.length_ofList]
    exact ⟨fun _ => Nat.le_trans hlength (by decide), fun _ => ⟨_, rfl⟩⟩
  · dsimp only
    split
    · next hlength => exact ⟨fun _ => hlength, fun _ => ⟨_, rfl⟩⟩
    · next hlength =>
      refine ⟨?_, fun h => absurd h hlength⟩
      rintro ⟨s, hs⟩
      cases hs

theorem written_int_iff (i : Int) (id : Nat) :
    Written (.int i id) ↔ (toString i.natAbs).length ≤ maxDigits := by
  rw [← decimal_ok_iff]
  constructor
  · intro h
    obtain ⟨s, hs⟩ := h.text #[]
    change printedAt baseIndent (decimal i) = _ at hs
    cases hi : decimal i with
    | ok t => exact ⟨t, rfl⟩
    | error f =>
      rw [hi] at hs
      cases hs
  · rintro ⟨s, hs⟩
    refine ⟨⟨i, rfl⟩, fun h => ⟨s, ?_⟩⟩
    change printedAt baseIndent (decimal i) = _
    rw [hs]
    rfl

theorem written_word {i : Int} (h : inRange i) (id : Nat) : Written (.int i id) := by
  rw [written_int_iff, ← decimal_ok_iff, decimal, if_pos]
  · exact ⟨_, rfl⟩
  · rw [inRange_iff, least, greatest] at h
    omega

/-! ## Checks beside runs -/

section Meets

variable {α β γ δ : Type}

/-- A check and a run end alike: with results in the relation `Q`, or at the same variable. -/
inductive Meets (Q : α → TypeTable → β → Store → Prop) :
    Except CheckError (α × TypeTable) → EStateM.Result RunError Store β → Prop where
  | ok (h : Q a Γ b σ) : Meets Q (.ok (a, Γ)) (.ok b σ)
  | missing (x : String) (σ) :
      Meets Q (.error (.fault (.missingKey (quote x)))) (.error (.fault (.missingKey (quote x))) σ)

variable {Q : α → TypeTable → β → Store → Prop} {m : Check α} {r : Run β}

theorem Meets.bind {R : γ → TypeTable → δ → Store → Prop}
    {f : α → Check γ} {g : β → Run δ} (h : Meets Q (m.run Γ) (r.run σ))
    (hfg : ∀ a Δ b τ, Q a Δ b τ → Meets R ((f a).run Δ) ((g b).run τ)) :
    Meets R ((m >>= f).run Γ) ((r >>= g).run σ) := by
  rw [EStateM.run_bind, StateT.run_bind]
  generalize m.run Γ = x at h
  generalize r.run σ = y at h
  cases h with
  | ok h => exact hfg _ _ _ _ h
  | missing x τ => exact .missing x τ

theorem Meets.map (h : Meets Q (m.run Γ) (r.run σ)) (f : α → γ) :
    Meets (fun _ _ _ _ => True) ((m >>= fun a => pure (f a)).run Γ) (r.run σ) := by
  rw [← bind_pure r]
  exact h.bind fun _ _ _ _ _ => .ok trivial

end Meets

/-- The variables that the check knows are those that have a value, and all values are numbers that
can be written. -/
structure Matches (i : Nat) (Γ : TypeTable) (σ : Store) : Prop where
  ints : AllInt Γ
  present : i < σ.envs.size
  known : ∀ x, Known Γ x ↔ ∃ v, read i σ x = some v
  written : ∀ x v, read i σ x = some v → Written v

variable {ss : List Stmt}

theorem Matches.congr (h : Matches i Γ σ) (henvs : τ.envs = σ.envs) : Matches i Γ τ := by
  have hread : ∀ x, read i τ x = read i σ x := fun x => by rw [read, read, henvs]
  exact ⟨h.ints, henvs ▸ h.present, fun x => by rw [h.known x, hread x],
    fun x v hv => h.written x v (hread x ▸ hv)⟩

theorem Matches.assign (h : Matches i Γ σ) (hv : Written v) (x) :
    ∃ τ, (assign i x v).run σ = .ok () τ ∧ τ.console = σ.console ∧
      Matches i (put Γ x .int) τ := by
  obtain ⟨envs, hrun, hsize, hread⟩ := run_assign h.present x v
  refine ⟨_, hrun, rfl, h.ints.put x, hsize ▸ h.present, fun y => ?_, fun y w hw => ?_⟩
  · rw [hread y, Known, get?_put]
    by_cases hy : y = x
    · simp [hy]
    · simp only [hy, beq_iff_eq, if_false]
      exact h.known y
  · rw [hread y] at hw
    split at hw
    · cases hw
      exact hv
    · exact h.written y w hw

/-- Binding a variable again to the one type that there is does not change what is known. -/
theorem Matches.of_put (h : Matches i (put Γ x .int) σ) (hΓ : AllInt Γ) (hx : Known Γ x) :
    Matches i Γ σ where
  ints := hΓ
  present := h.present
  known y := by
    rw [← h.known y, Known, Known, get?_put]
    by_cases hy : y = x
    · subst hy
      simpa [Known] using hx
    · simp [hy]
  written := h.written

/-- What an expression leaves behind: a number, and the input that it has not read. -/
def Valued (i n : Nat) (Γ : TypeTable) (p : Expr × Ty) (Δ : TypeTable) (v : Value) (σ : Store) :
    Prop :=
  p.2 = .int ∧ Δ = Γ ∧ Written v ∧ Matches i Γ σ ∧ Supplies n σ.console

theorem run_lookup_unknown (h : get? Γ x = none) :
    (Check.lookup x).run Γ = .error (.fault (.missingKey (quote x))) := by
  have hfind : (find? x).run Γ = .ok (get? Γ x, Γ) := rfl
  rw [Check.lookup, StateT.run_bind, hfind, h]
  rfl

theorem meets_lookup (h : Matches i Γ σ) (x) :
    Meets (fun t Δ v τ => t = .int ∧ Δ = Γ ∧ Written v ∧ τ = σ) ((lookup x).run Γ)
      ((lookup i x).run σ) := by
  cases hx : read i σ x with
  | some v =>
    obtain ⟨t, ht⟩ := (h.known x).mpr ⟨v, hx⟩
    rw [run_lookup_known ht, run_lookup hx]
    exact .ok ⟨h.ints x t ht, rfl, h.written x v hx, rfl⟩
  | none =>
    cases ht : get? Γ x with
    | none =>
      rw [run_lookup_unknown ht, run_lookup_none h.present hx]
      exact .missing x σ
    | some t =>
      obtain ⟨v, hv⟩ := (h.known x).mp ⟨t, ht⟩
      cases hx.symm.trans hv

theorem meets_input (h : Matches i Γ σ) (hin : Supplies (1 + n) σ.console) (m k) :
    Meets (Valued i n Γ) ((checkExpr .vars none (.call (.name "input_int" m) [] k)).run Γ)
      (readInt.run σ) := by
  rw [Nat.add_comm] at hin
  obtain ⟨j, rest, hread, hrest⟩ := hin
  have hcheck : (checkExpr .vars none (.call (.name "input_int" m) [] k)).run Γ =
      .ok ((.call (.name "input_int" m) [] k, .int), Γ) := rfl
  have hj : inRange j := Console.inRange_readInt hread
  rw [hcheck, run_readInt, hread]
  dsimp only
  split
  · exact .ok ⟨rfl, rfl, written_word hj _, h.congr rfl, hrest⟩
  · exact .ok ⟨rfl, rfl, written_word hj _, h.congr rfl, hrest⟩

theorem meets_number (hp : p.2 = .int) (h : Matches i Γ σ) (hin : Supplies n σ.console)
    (hj : inRange j) :
    Meets (Valued i n Γ) ((pure p : Check (Expr × Ty)).run Γ) ((number j).run σ) :=
  .ok ⟨hp, rfl, written_word hj _, h.congr rfl, hin⟩

theorem arithValues_eq_number (hop : hasArith .vars op) (hv : Written v)
    (hw : Written w) : ∃ j, inRange j ∧ arithValues .vars op v w = number j := by
  obtain ⟨x, hx⟩ := hv.number
  obtain ⟨y, hy⟩ := hw.number
  cases op with
  | add =>
    have hadd : v.addWord w = .ok (add x y) := by rw [Value.addWord, Value.onInts, hx, hy]
    exact ⟨add x y, inRange_wrap _, by rw [arithValues, hadd]; rfl⟩
  | sub =>
    have hsub : v.subWord w = .ok (sub x y) := by rw [Value.subWord, Value.onInts, hx, hy]
    exact ⟨sub x y, inRange_wrap _, by rw [arithValues, hsub]; rfl⟩
  | _ => cases hop

section

variable (he : Built (fun _ => True) Written e) (h : Matches i Γ σ)
  (hin : Supplies (inputsOf e + n) σ.console)
include he h hin

/-- An expression is checked as it is evaluated: both stop at the first variable that is not
there. -/
theorem value_meets :
    Meets (Valued i n Γ) ((checkExpr .vars none e).run Γ) ((value i e).run σ) := by
  induction he generalizing σ n with
  | name k _ =>
    change Supplies (0 + n) σ.console at hin
    rw [Nat.zero_add] at hin
    rw [value, ← bind_pure (lookup i _)]
    refine Meets.bind (meets_lookup h _) fun t Δ v τ hq => ?_
    obtain ⟨rfl, rfl, hv, rfl⟩ := hq
    exact .ok ⟨rfl, rfl, hv, h, hin⟩
  | @const c k hc =>
    change Supplies (0 + n) σ.console at hin
    rw [Nat.zero_add] at hin
    obtain ⟨j, hj⟩ := hc.number
    cases c with
    | int | bool => exact .ok ⟨rfl, rfl, hc, h, hin⟩
    | _ => cases hj
  | input m k => exact meets_input h hin m k
  | @neg a k _ ih =>
    refine Meets.bind (ih h hin) fun p Δ v τ hq => ?_
    obtain ⟨hp, rfl, hv, hτ, hrest⟩ := hq
    obtain ⟨j, hj⟩ := hv.number
    have hneg : v.negWord = .ok (neg j) := by rw [Value.negWord, hj]
    rw [hneg, run_equal_int hp]
    exact meets_number rfl hτ hrest (inRange_wrap _)
  | @arith a b op k hop _ _ iha ihb =>
    change Supplies (inputsOf a + inputsOf b + n) σ.console at hin
    rw [Nat.add_assoc] at hin
    rw [checkExpr_arith hop]
    refine Meets.bind (iha h hin) fun p Δ v τ hq => ?_
    obtain ⟨hp, rfl, hv, hτ, hrest⟩ := hq
    rw [run_equal_int hp]
    refine Meets.bind (ihb hτ hrest) fun q Δ' w τ' hq => ?_
    obtain ⟨hq, rfl, hw, hτ', hrest'⟩ := hq
    rw [run_equal_int hq]
    obtain ⟨j, hj, harith⟩ := arithValues_eq_number hop hv hw
    rw [harith]
    exact meets_number rfl hτ' hrest' hj

/-! ## Statements -/

/-- What a statement leaves behind: variables with values, and the input that it has not read. -/
def Stepped (i n : Nat) {α : Type} (_ : α) (Δ : TypeTable) (_ : Unit) (σ : Store) : Prop :=
  Matches i Δ σ ∧ Supplies n σ.console

theorem step_print_meets (m k l) :
    Meets (Stepped i n) ((do
        let p ← checkExpr .vars none e
        equal .vars p.2 .int (.expr p.1)
        pure (.call (.name "print" m) [p.1] k) : Check Expr).run Γ)
      ((step i (.expr (.call (.name "print" m) [e] k) l)).run σ) := by
  refine Meets.bind (value_meets he h hin) fun p Δ v τ hq => ?_
  obtain ⟨hp, rfl, hv, hτ, hrest⟩ := hq
  obtain ⟨s, hs⟩ := hv.text τ.heap
  rw [run_equal_int hp, run_print, hs]
  exact .ok ⟨hτ.congr rfl, hrest.congr rfl⟩

theorem step_expr_meets (k) :
    Meets (Stepped i n) ((Prod.fst <$> checkExpr .vars none e).run Γ)
      ((step i (.expr e k)).run σ) := by
  rw [map_eq_pure_bind, step_expr he]
  refine Meets.bind (value_meets he h hin) fun p Δ v τ hq => ?_
  obtain ⟨-, rfl, -, hτ, hrest⟩ := hq
  exact .ok ⟨hτ, hrest⟩

theorem step_assign_meets (x m k) :
    Meets (Stepped i n) ((checkAssign x e).run Γ)
      ((step i (.assign [.name x m] e k)).run σ) := by
  refine Meets.bind (value_meets he h hin) fun p Δ v τ hq => ?_
  obtain ⟨hp, rfl, hv, hτ, hrest⟩ := hq
  obtain ⟨τ', hrun, hconsole, hτ'⟩ := hτ.assign hv x
  have hfind : (find? x).run Δ = .ok (get? Δ x, Δ) := rfl
  rw [hrun, StateT.run_bind, hfind]
  cases hx : get? Δ x with
  | some u =>
    have hu : u = .int := hτ.ints x u hx
    subst hu
    rw [hp]
    exact .ok ⟨hτ'.of_put hτ.ints ⟨_, hx⟩, hconsole ▸ hrest⟩
  | none =>
    rw [hp]
    exact .ok ⟨hτ', hconsole ▸ hrest⟩

end

theorem exec_meets {D : String → Prop} {P : String → Expr → Prop} (hss : Scoped P Written D ss)
    (h : Matches i Γ σ) (hin : Supplies (inputs ss) σ.console) :
    Meets (fun _ _ _ _ => True) ((checkStmts .vars none ss).run Γ) ((exec i ss).run σ) := by
  have hany : ∀ {D : String → Prop} {e : Expr}, Built D Written e →
      Built (fun _ => True) Written e :=
    fun he => he.mono (fun _ _ => trivial) fun _ hc => hc
  induction hss generalizing Γ σ with
  | nil => exact .ok trivial
  | print m k l he _ ih =>
    refine Meets.bind (step_print_meets (hany he) h hin m k l) fun p Δ _ τ hq => ?_
    exact (ih hq.1 hq.2).map fun q => (Stmt.expr p l :: q.1, q.2)
  | @expr D e ss k he _ ih =>
    rw [checkStmts_expr he]
    refine Meets.bind (step_expr_meets (hany he) h hin k) fun p Δ _ τ hq => ?_
    exact (ih hq.1 hq.2).map fun q => (Stmt.expr p k :: q.1, q.2)
  | @assign D x e ss m k _ he _ ih =>
    rw [checkStmts_assign]
    refine Meets.bind (step_assign_meets (hany he) h hin x m k) fun p Δ _ τ hq => ?_
    exact (ih hq.1 hq.2).map fun q => (Stmt.assign [.name x m] p.1 k :: q.1, q.2)

/-! ## Programs -/

theorem matches_start (c) : Matches 0 [] { console := c, envs := #[[]] } where
  ints x t ht := by cases ht
  present := Nat.zero_lt_one
  known x := by
    constructor
    · rintro ⟨t, ht⟩
      cases ht
    · rintro ⟨v, hv⟩
      cases hv
  written x v hv := by cases hv

theorem checkModule_meets (hss : IsProgram ss) (hin : Supplies (inputs ss) c) (note) :
    ((∃ q, checkModule .vars (.module ss note) = .ok q) ∧ Finishes (.module ss note) c) ∨
      ∃ x, checkModule .vars (.module ss note) = .error (.fault (.missingKey (quote x))) ∧
        Misses (.module ss note) x c := by
  obtain ⟨N, hN⟩ := (limit_runProgram hss note).reached
  have hmodule : checkModule .vars (.module ss note) =
      ((checkStmts .vars none ss).run [] >>= fun r => pure (.module r.1.1 note)) := rfl
  have hrun : (runModule ss).run { console := c } =
      (exec 0 ss).run { console := c, envs := #[[]] } := rfl
  have hmeets := exec_meets hss (matches_start c) hin
  generalize (checkStmts .vars none ss).run [] = x at hmeets hmodule
  generalize (exec 0 ss).run { console := c, envs := #[[]] } = y at hmeets hrun
  cases hmeets with
  | ok _ =>
    refine .inl ⟨⟨_, hmodule⟩, N, fun fuel hfuel => ?_⟩
    rw [congrFun (hN fuel hfuel) (), hrun]
    exact ⟨_, rfl⟩
  | missing x τ =>
    refine .inr ⟨x, hmodule, N, fun fuel hfuel => ⟨τ, ?_⟩⟩
    rwa [congrFun (hN fuel hfuel) ()]

/-- The run of a program stops with a fault, if it is given enough fuel. -/
def Stops (p : Program) (f : Fault) (c : Console) : Prop :=
  ∃ N, ∀ fuel, N ≤ fuel → ∃ σ, (runProgram .vars fuel p).run { console := c } =
    .error (.fault f) σ

theorem Stops.not_finishes {p : Program} {f : Fault} (h : Stops p f c) : ¬ Finishes p c := by
  rintro ⟨N, hN⟩
  obtain ⟨M, hM⟩ := h
  obtain ⟨σ, hσ⟩ := hN (max M N) (Nat.le_max_right M N)
  obtain ⟨τ, hτ⟩ := hM (max M N) (Nat.le_max_left M N)
  cases hσ.symm.trans hτ

theorem Stops.unique {p : Program} {f g : Fault} (h : Stops p f c) (h' : Stops p g c) : f = g := by
  obtain ⟨M, hM⟩ := h
  obtain ⟨N, hN⟩ := h'
  obtain ⟨σ, hσ⟩ := hM (max M N) (Nat.le_max_left M N)
  obtain ⟨τ, hτ⟩ := hN (max M N) (Nat.le_max_right M N)
  cases hσ.symm.trans hτ
  rfl

/-- The type system accepts a program exactly if the program runs to its end on every input with
enough numbers, and a variable that the check misses is missed by every such run. -/
theorem accepted_iff_finishes (ss : List Stmt) (note : Note) (hss : IsProgram ss) :
    ((∃ q, checkModule .vars (.module ss note) = .ok q) ↔
      ∀ c, Supplies (inputs ss) c → Finishes (.module ss note) c) ∧
    ∀ x, checkModule .vars (.module ss note) = .error (.fault (.missingKey (quote x))) →
      ∀ c, Supplies (inputs ss) c → Misses (.module ss note) x c := by
  refine ⟨⟨?_, ?_⟩, ?_⟩
  · rintro ⟨q, hq⟩ c hc
    obtain ⟨-, hfin⟩ | ⟨x, hx, -⟩ := checkModule_meets hss hc note
    · exact hfin
    · cases hq.symm.trans hx
  · intro hall
    have hzeros := supplies_zeros (inputs ss)
    obtain ⟨hq, -⟩ | ⟨x, -, hmiss⟩ := checkModule_meets hss hzeros note
    · exact hq
    · exact absurd (hall _ hzeros) (Stops.not_finishes hmiss)
  · intro x hx c hc
    obtain ⟨⟨q, hq⟩, -⟩ | ⟨y, hy, hmiss⟩ := checkModule_meets hss hc note
    · cases hx.symm.trans hq
    · have hxy : quote y = quote x := by
        have h := hy.symm.trans hx
        injection h with h
        injection h with h
        injection h
      unfold Misses at hmiss ⊢
      rwa [hxy] at hmiss

/-- `x = -input_int() + 1`, `print(x)`, `print(x - y)`. -/
def missingLater : List Stmt :=
  [.assign [.name "x" {}] (.arith (.unary .neg (.call (.name "input_int" {}) [] {}) {}) .add
      (.const (.int 1 0) {}) {}) {},
    .expr (.call (.name "print" {}) [.name "x" {}] {}) {},
    .expr (.call (.name "print" {}) [.arith (.name "x" {}) .sub (.name "y" {}) {}] {}) {}]

theorem accepted_iff_finishes_missingLater :
    IsProgram missingLater ∧
      checkModule .vars (.module missingLater {}) =
        .error (.fault (.missingKey (quote "y"))) ∧
      ¬ (∀ c, Supplies 1 c → Finishes (.module missingLater {}) c) ∧
      ∀ c, Supplies 1 c → Misses (.module missingLater {}) "y" c := by
  have hx : ∀ D : String → Prop, D "x" → Built D Written (.name "x" {}) := fun _ h => .name {} h
  have hprogram : IsProgram missingLater := by
    refine .assign {} {} trivial (.arith {} rfl (.neg {} (.input {} {})) ?_) ?_
    · exact .const {} (written_word (by decide) 0)
    · refine .print {} {} {} (hx _ (.inl rfl)) (.print {} {} {} ?_ .nil)
      exact .arith {} rfl (hx _ (.inl rfl)) (.name {} (.inr trivial))
  have hcheck : checkModule .vars (.module missingLater {}) =
      .error (.fault (.missingKey (quote "y"))) := rfl
  have h := accepted_iff_finishes missingLater {} hprogram
  refine ⟨hprogram, hcheck, fun hall => ?_, h.2 "y" hcheck⟩
  obtain ⟨q, hq⟩ := h.1.mpr hall
  cases hcheck.symm.trans hq

/-! ## Numbers that are too long -/

/-- The statements are of the language, with numbers of any size. -/
def IsNumeric (ss : List Stmt) : Prop := Scoped (fun _ _ => True) IsNumber (fun _ => True) ss

/-- A program that prints a number and then does what the statements do. -/
def printFirst (i : Int) (ss : List Stmt) : List Stmt :=
  .expr (.call (.name "print" {}) [.const (.int i 0) {}] {}) {} :: ss

theorem printFirst_stops {i : Int} {ss : List Stmt} (hi : decimal i = .error .wrongValue)
    (hss : IsNumeric (printFirst i ss)) (c : Console) :
    Stops (.module (printFirst i ss) {}) .wrongValue c := by
  obtain ⟨N, hN⟩ := (limit_runProgram hss {}).reached
  refine ⟨N, fun fuel hfuel => ⟨{ console := c, envs := #[[]] }, ?_⟩⟩
  have hrun : (runModule (printFirst i ss)).run { console := c } =
      (print (.int i 0) >>= fun _ => exec 0 ss).run { console := c, envs := #[[]] } := rfl
  have htext : (Value.int i 0).text #[] = printedAt baseIndent (decimal i) := rfl
  rw [congrFun (hN fuel hfuel) (), hrun, EStateM.run_bind, run_print, htext, hi]
  rfl

/-- The least number of 4301 digits. -/
def longNumber : Nat := Nat.pow 10 maxDigits

theorem decimal_longNumber : decimal longNumber = .error .wrongValue := by
  have hlength : maxDigits < (Nat.toDigits 10 longNumber).length := by decide +kernel
  cases h : decimal longNumber with
  | ok s =>
    have hshort := (decimal_ok_iff longNumber).mp ⟨s, h⟩
    rw [Int.natAbs_natCast, Nat.toString_eq_ofList_toDigits, String.length_ofList] at hshort
    exact absurd hlength (Nat.not_lt.mpr hshort)
  | error f => rw [decimal_error h]

/-- `print(y)`. -/
def printY : Stmt := .expr (.call (.name "print" {}) [.name "y" {}] {}) {}

/-- A check and the runs part ways at a number that is too long to be written: `print(10 ** 4300)`
is accepted, and no run of it finishes; with `print(y)` behind it the check misses `y`, and no run
does. -/
theorem longNumber_unlike_check :
    (IsNumeric (printFirst longNumber []) ∧
      (∃ q, checkModule .vars (.module (printFirst longNumber []) {}) = .ok q) ∧
      ∀ c, ¬ Finishes (.module (printFirst longNumber []) {}) c) ∧
    IsNumeric (printFirst longNumber [printY]) ∧
      checkModule .vars (.module (printFirst longNumber [printY]) {}) =
        .error (.fault (.missingKey (quote "y"))) ∧
      ∀ c, ¬ Misses (.module (printFirst longNumber [printY]) {}) "y" c := by
  have hfirst (ss : List Stmt) (hss : IsNumeric ss) : IsNumeric (printFirst longNumber ss) :=
    .print {} {} {} (.const {} ⟨_, rfl⟩) hss
  have hnil := hfirst [] .nil
  have hy := hfirst [printY] (.print {} {} {} (.name {} trivial) .nil)
  refine ⟨⟨hnil, ⟨_, rfl⟩, fun c => ?_⟩, hy, rfl, fun c hmisses => ?_⟩
  · exact (printFirst_stops decimal_longNumber hnil c).not_finishes
  · cases (printFirst_stops decimal_longNumber hy c).unique hmisses

end CompilerKit.Vars
