import CompilerKit.Compile
import CompilerKit.Proofs.Vars.Typed

/-!
# Atomic operands keep the meaning

A program and the program with atomic operands run side by side. The second has more variables, the
temporaries; apart from them the two stores are the same at every statement.

* `atomize_spec`: what the assignments in front of an atom compute, by induction on the expression.
* `atomizeStmts_spec`: the same for statements, with the temporaries that are in use.
* `Keeps.runModule`: the runs of the two programs end alike.
-/

namespace CompilerKit.Vars

open Run Compile List EStateM Value selectAssign Sim

/-! ## Temporaries -/

/-- The name of the temporary number `k`. -/
def temp (k : Nat) : String := freshName "tmp" k

/-- The name is not one of a temporary: it has no point. -/
def Plain (x : String) : Prop := '.' ∉ x.toList

instance (x : String) : Decidable (Plain x) := inferInstanceAs (Decidable ('.' ∉ x.toList))

theorem toList_temp (k) : (temp k).toList = ['t', 'm', 'p', '.'] ++ (toString k).toList := by
  simp [temp, freshName]

variable {x : String} {n : Nat} {σ : Store} {ss' ss : List Stmt}

theorem Plain.ne_temp (h : Plain x) (k) : x ≠ temp k := by
  rintro rfl
  exact h (by simp [toList_temp])

/-- The names that can be read when the temporaries from number `b` up to number `n` have been
computed. -/
def InScope (D : String → Prop) (b n : Nat) (y : String) : Prop :=
  D y ∨ ∃ k, b ≤ k ∧ k < n ∧ y = temp k

namespace InScope

variable {D : String → Prop} {m : Nat}

theorem mono (h : n ≤ m) (hy : InScope D b n y) : InScope D b m y := by
  obtain hy | ⟨k, hbk, hk, rfl⟩ := hy
  · exact .inl hy
  · exact .inr ⟨k, hbk, Nat.lt_of_lt_of_le hk h, rfl⟩

theorem not_start : ¬ InScope (fun _ => False) n n y := by
  rintro (hy | ⟨k, hk, hk', -⟩)
  · exact hy
  · omega

theorem ne_temp_of_le (hD : ∀ x, D x → x ≠ temp k) (hk : n ≤ k) (hy : InScope D b n y) :
    y ≠ temp k := by
  obtain hy | ⟨l, -, hl, rfl⟩ := hy
  · exact hD y hy
  · exact fun h => Nat.ne_of_lt (Nat.lt_of_lt_of_le hl hk) (freshName_inj h)

theorem ne_temp (hD : ∀ x, D x → Plain x) (hy : InScope D b n y) : y ≠ temp n :=
  hy.ne_temp_of_le (fun x hx => (hD x hx).ne_temp n) (Nat.le_refl n)

theorem pred (hy : InScope D b (n + 1) y) (hne : y ≠ temp n) : InScope D b n y := by
  obtain hy | ⟨k, hbk, hk, rfl⟩ := hy
  · exact .inl hy
  · have hkn : k ≠ n := fun h => hne (congrArg temp h)
    exact .inr ⟨k, hbk, by omega, rfl⟩

end InScope

/-- Temporaries in order, from number `n` up to number `m`, each computed from what is in scope
there. -/
inductive Temps (D : String → Prop) (K : Value → Prop) (b : Nat) :
    Nat → List Temporary → Nat → Prop where
  | nil (n : Nat) : Temps D K b n [] n
  | concat {n m ts e} (hts : Temps D K b n ts m) (he : Built (InScope D b m) K e)
      (hsimple : isSimple e) : Temps D K b n (ts ++ [(.name (temp m) {}, e)]) (m + 1)

namespace Temps

variable {D : String → Prop} {K : Value → Prop} {m : Nat}

theorem le (h : Temps D K b n ts m) : n ≤ m := by
  induction h with
  | nil => exact Nat.le_refl _
  | concat _ _ _ ih => exact Nat.le_succ_of_le ih

theorem append (h : Temps D K b n ts k) (h' : Temps D K b k us m) : Temps D K b n (ts ++ us) m := by
  induction h' with
  | nil => rwa [append_nil]
  | concat _ he hsimple ih =>
    rw [← append_assoc]
    exact .concat ih he hsimple

end Temps

theorem assignments_append (ts us) : assignments (ts ++ us) = assignments ts ++ assignments us :=
  map_append

/-! ## Stores side by side -/

/-- The stores are the same but for the temporaries of the environment number `i`. -/
structure Same (i : Nat) (σ τ : Store) : Prop where
  rest : ∃ envs, τ = { σ with envs }
  plain : ∀ x, Plain x → read i τ x = read i σ x

/-- The second store is the first with some temporaries; what is in scope has the values `V`. -/
structure Shadow (i : Nat) (D : String → Prop) (b n : Nat) (V : String → Value) (σ τ : Store) :
    Prop where
  same : Same i σ τ
  bound : i < σ.envs.size
  bound' : i < τ.envs.size
  known : ∀ y, InScope D b n y → read i τ y = some (V y)
  number : ∀ y, InScope D b n y → IsNumber (V y)

/-- The runs stop at the same place. -/
def Stopped (i : Nat) (err : RunError) (σ τ : Store) : Prop := IsInputError err ∧ Same i σ τ

/-- A relation between stores that input, output and new objects keep. -/
structure Steady (i : Nat) (R : Store → Store → Prop) : Prop where
  same : ∀ σ τ, R σ τ → Same i σ τ
  update : ∀ σ τ c n, R σ τ →
    R { σ with console := c, next := n } { τ with console := c, next := n }

theorem Same.update (h : Same i σ τ) (c n) :
    Same i { σ with console := c, next := n } { τ with console := c, next := n } where
  rest := by
    obtain ⟨envs, rfl⟩ := h.rest
    exact ⟨envs, rfl⟩
  plain := h.plain

theorem Shadow.update {D : String → Prop} {V : String → Value} (h : Shadow i D b n V σ τ) (c k) :
    Shadow i D b n V { σ with console := c, next := k } { τ with console := c, next := k } :=
  { h with same := h.same.update c k }

/-! ## Operations on numbers -/

section

variable {R : Store → Store → Prop} {E : RunError → Store → Store → Prop}

/-- The runs give the same number. -/
def Gives (R : Store → Store → Prop) (v w : Value) (σ τ : Store) : Prop :=
  w = v ∧ IsNumber v ∧ R σ τ

theorem sim_number (hR : Steady i R) (j) : Sim R (number j) (number j) (Gives R) E := by
  intro σ τ hst
  obtain ⟨envs, rfl⟩ := (hR.same σ τ hst).rest
  exact .ok ⟨rfl, ⟨j, rfl⟩, hR.update _ _ σ.console (σ.next + 1) hst⟩

theorem sim_readInt (hR : Steady i R) : Sim R readInt readInt (Gives R) (Stopped i) := by
  intro σ τ hst
  obtain ⟨envs, rfl⟩ := (hR.same σ τ hst).rest
  rw [run_readInt, run_readInt]
  dsimp only
  split
  · split
    · exact .ok ⟨rfl, ⟨_, rfl⟩, hR.update _ _ _ σ.next hst⟩
    · exact .ok ⟨rfl, ⟨_, rfl⟩, hR.update _ _ _ (σ.next + 1) hst⟩
  · next f c hread =>
    exact .error ⟨isInputError_readInt hread, (hR.same _ _ hst).update c σ.next⟩

theorem sim_print (hR : Steady i R) (hv : IsNumber v) :
    Sim R (print v) (print v) (fun _ _ => R) (Stopped i) := by
  intro σ τ hst
  obtain ⟨envs, rfl⟩ := (hR.same σ τ hst).rest
  rw [run_print, run_print]
  dsimp only
  split
  · exact .ok (hR.update _ _ _ σ.next hst)
  · next m hm => exact .error ⟨isInputError_text hv hm, hR.same _ _ hst⟩

theorem negValue_eq (hv : IsNumber v) : ∃ j, (do number (← ofExcept v.negWord)) = number j := by
  obtain ⟨k, hk⟩ := hv
  exact ⟨Word.neg k, by rw [negWord, hk]; rfl⟩

theorem arithValues_eq (hop : hasArith .vars op) (hv : IsNumber v) (hw : IsNumber w) :
    ∃ j, arithValues .vars op v w = number j := by
  obtain ⟨k, hk⟩ := hv
  obtain ⟨l, hl⟩ := hw
  cases op with
  | add =>
    exact ⟨Word.add k l, by simp only [arithValues, addWord, onInts, hk, hl]; rfl⟩
  | sub =>
    exact ⟨Word.sub k l, by simp only [arithValues, subWord, onInts, hk, hl]; rfl⟩
  | _ => cases hop

end

/-! ## Expressions -/

/-- The value of an atom. -/
def atomValue (V : String → Value) : Expr → Value
  | .name x _ => V x
  | .const c _ => c
  | _ => .none

/-- More temporaries have been computed; what was in scope before has the values `V` still. -/
def Later (i : Nat) (D : String → Prop) (b n : Nat) (V : String → Value) (m : Nat)
    (σ τ : Store) : Prop :=
  ∃ V', (∀ y, InScope D b n y → V' y = V y) ∧ Shadow i D b m V' σ τ

/-- The assignment of the expression to the variable computes with the variable itself. -/
def reuses (x : String) : Expr → Bool
  | .arith a _ b _ => isVariable x a || isVariable x b
  | _ => false

/-- The assignment of the expression adds to its own variable, or takes something from it. -/
def accumulates (x : String) : Expr → Bool
  | .arith a .add b _ => isVariable x a || isVariable x b
  | .arith a .sub _ _ => isVariable x a
  | _ => false

/-- Assigned to the variable, the two expressions compute with it in the same way. -/
structure SameUse (x : String) (e e' : Expr) : Prop where
  reuses_eq : reuses x e' = reuses x e
  accumulates_eq : accumulates x e' = accumulates x e

/-- The names could not be those of temporaries, and the constants are numbers. -/
structure Ordinary (D : String → Prop) (K : Value → Prop) : Prop where
  plain : ∀ x, D x → Plain x
  number : ∀ c, K c → IsNumber c

/-- The temporaries `ts` and the atom `a` after them stand for the expression `e`. -/
structure Settles (D : String → Prop) (K : Value → Prop) (b : Nat) (e : Expr) (n : Nat)
    (a : Expr) (ts : List Temporary) (m : Nat) : Prop where
  temps : Temps D K b n ts m
  built : Built (InScope D b m) K a
  atom : isAtom a
  named : ∀ x, Plain x → isVariable x a = isVariable x e
  sim : Ordinary D K → ∀ i V, Sim (Shadow i D b n V) (value i e) (exec i (assignments ts))
    (fun v _ σ τ => IsNumber v ∧
      ∃ V', (∀ y, InScope D b n y → V' y = V y) ∧ atomValue V' a = v ∧ Shadow i D b m V' σ τ)
    (Stopped i)

/-- The temporaries `ts` and the simple expression `e'` after them stand for the expression `e`. -/
structure Computes (D : String → Prop) (K : Value → Prop) (b : Nat) (e : Expr) (n : Nat)
    (e' : Expr) (ts : List Temporary) (m : Nat) : Prop where
  temps : Temps D K b n ts m
  built : Built (InScope D b m) K e'
  simple : isSimple e'
  used : ∀ x, Plain x → SameUse x e e'
  sim : Ordinary D K → ∀ i V, Sim (Shadow i D b n V) (value i e)
    (do exec i (assignments ts); value i e') (Gives (Later i D b n V m)) (Stopped i)

section

variable {D : String → Prop} {K : Value → Prop} {m : Nat} {V V' : String → Value}

theorem run_atom (ha : Built (InScope D b n) K a) (hatom : isAtom a)
    (h : Shadow i D b n V σ τ) : (value i a).run τ = .ok (atomValue V a) τ := by
  cases ha with
  | name m hx => exact run_lookup (h.known _ hx)
  | const m hc => rfl
  | _ => cases hatom

theorem isNumber_atomValue (hK : ∀ c, K c → IsNumber c) (ha : Built (InScope D b n) K a)
    (hatom : isAtom a) (h : Shadow i D b n V σ τ) : IsNumber (atomValue V a) := by
  cases ha with
  | name m hx => exact h.number _ hx
  | const m hc => exact hK _ hc
  | _ => cases hatom

theorem atomValue_congr (ha : Built (InScope D b n) K a) (hatom : isAtom a)
    (h : ∀ y, InScope D b n y → V' y = V y) : atomValue V' a = atomValue V a := by
  cases ha with
  | name m hx => exact h _ hx
  | const m hc => rfl
  | _ => cases hatom

theorem steady_later : Steady i (Later i D b n V m) where
  same := fun _ _ ⟨_, _, h⟩ => h.same
  update := fun _ _ c k ⟨V', hV, h⟩ => ⟨V', hV, h.update c k⟩

theorem settles_atom (ha : Built D K a) (hatom : isAtom a) (n) :
    Settles D K b a n a [] n where
  temps := .nil n
  built := ha.mono (fun _ => .inl) fun _ hc => hc
  atom := hatom
  named := fun _ _ => rfl
  sim := by
    intro hDK i V σ τ h
    have hscope : Built (InScope D b n) K a := ha.mono (fun _ => .inl) fun _ hc => hc
    have hrun : (value i a).run σ = .ok (atomValue V a) σ := by
      cases ha with
      | name m hx =>
        have hread := h.known _ (.inl hx)
        rw [h.same.plain _ (hDK.plain _ hx)] at hread
        exact run_lookup hread
      | const m hc => rfl
      | _ => cases hatom
    rw [hrun]
    exact .ok ⟨isNumber_atomValue hDK.number hscope hatom h, V, fun _ _ => rfl, rfl, h⟩

theorem Settles.computes (h : Settles D K b e n a ts m) (hused : ∀ x, Plain x → SameUse x e a) :
    Computes D K b e n a ts m where
  temps := h.temps
  built := h.built
  simple := by
    have hatom := h.atom
    cases a <;> first | rfl | cases hatom
  used := hused
  sim := by
    intro hDK i V
    rw [← bind_pure (value i e)]
    refine bind (h.sim hDK i V) fun v _ σ τ ⟨hv, V', hV', hval, hst⟩ => ?_
    rw [run_atom h.built h.atom hst, hval]
    exact .ok ⟨rfl, hv, V', hV', hst⟩

theorem computes_input (m' n' n) :
    Computes D K b (.call (.name "input_int" m') [] n') n (.call (.name "input_int" m') [] n')
      [] n where
  temps := .nil n
  built := .input m' n'
  simple := rfl
  used := fun _ _ => ⟨rfl, rfl⟩
  sim := by
    intro _ i V σ τ h
    exact sim_readInt steady_later σ τ ⟨V, fun _ _ => rfl, h⟩

theorem Settles.neg (h : Settles D K b a n a' ts m) (note) :
    Computes D K b (.unary .neg a note) n (.unary .neg a' {}) ts m where
  temps := h.temps
  built := .neg {} h.built
  simple := h.atom
  used := fun _ _ => ⟨rfl, rfl⟩
  sim := by
    intro hDK i V
    refine bind (h.sim hDK i V) fun v _ σ τ ⟨hv, V', hV', hval, hst⟩ => ?_
    obtain ⟨j, hj⟩ := negValue_eq hv
    have hrun : (value i (.unary .neg a' {})).run τ = (number j).run τ := by
      change (value i a' >>= fun x => do number (← ofExcept x.negWord)).run τ = _
      rw [run_bind, run_atom h.built h.atom hst, hval]
      exact congrArg (run · τ) hj
    rw [hrun, hj]
    exact sim_number steady_later j σ τ ⟨V', hV', hst⟩

theorem Settles.arith (ha : Settles D K b a n a' ts k) (hc : Settles D K b c k c' us m)
    (hop : hasArith .vars op) (note) :
    Computes D K b (.arith a op c note) n (.arith a' op c' {}) (ts ++ us) m where
  temps := ha.temps.append hc.temps
  built := .arith {} hop (ha.built.mono (fun _ => .mono hc.temps.le) fun _ h => h) hc.built
  simple := by simp only [isSimple, ha.atom, hc.atom, Bool.and_self]
  used := by
    intro x hx
    constructor
    · simp only [reuses, ha.named x hx, hc.named x hx]
    · cases op <;> simp only [accumulates, ha.named x hx, hc.named x hx]
  sim := by
    intro hDK i V
    rw [assignments_append, exec_append, bind_assoc]
    refine bind (ha.sim hDK i V) fun v _ σ τ ⟨hv, V1, hV1, hval, hst⟩ => ?_
    refine bind (hc.sim hDK i V1) (fun w _ σ τ ⟨hw, V2, hV2, hval', hst⟩ => ?_) σ τ hst
    have hbuilt : Built (InScope D b m) K a' :=
      ha.built.mono (fun _ => .mono hc.temps.le) fun _ h => h
    have hrun : (value i (.arith a' op c' {})).run τ = (arithValues .vars op v w).run τ := by
      change (value i a' >>= fun x => value i c' >>= fun y => arithValues .vars op x y).run τ = _
      rw [EStateM.run_bind, run_atom hbuilt ha.atom hst, atomValue_congr ha.built ha.atom hV2, hval]
      change (value i c' >>= fun y => arithValues .vars op v y).run τ = _
      rw [EStateM.run_bind, run_atom hc.built hc.atom hst, hval']
    obtain ⟨j, hj⟩ := arithValues_eq hop hv hw
    rw [hrun, hj]
    exact sim_number steady_later j σ τ
      ⟨V2, fun y hy => (hV2 y (hy.mono ha.temps.le)).trans (hV1 y hy), hst⟩

/-- A number is written, and what can be read then is the variable and what could be read before. -/
theorem Shadow.write (h : Shadow i D b m V σ τ) (hv : IsNumber v) (hsame : Same i σ' τ')
    (hbound : i < σ'.envs.size) (hbound' : i < τ'.envs.size)
    (hread : ∀ y, read i τ' y = if y = x then some v else read i τ y)
    (hscope : ∀ y, InScope D' b m' y → y ≠ x → InScope D b m y) :
    Shadow i D' b m' (fun y => if y = x then v else V y) σ' τ' := by
  refine ⟨hsame, hbound, hbound', fun y hy => ?_, fun y hy => ?_⟩
  · rw [hread]
    by_cases hyx : y = x
    · rw [if_pos hyx, if_pos hyx]
    · rw [if_neg hyx, if_neg hyx]
      exact h.known y (hscope y hy hyx)
  · by_cases hyx : y = x
    · rwa [if_pos hyx]
    · rw [if_neg hyx]
      exact h.number y (hscope y hy hyx)

theorem exec_computed (i ts x e) :
    exec i (assignments ts ++ [.assign [.name x {}] e {}]) =
      (do exec i (assignments ts); value i e) >>= fun v => assign i x v := by
  rw [exec_append, bind_assoc]
  exact congrArg (exec i (assignments ts) >>= ·) (funext fun _ => bind_pure_unit)

theorem Computes.settles (hb : b ≤ n) (h : Computes D K b e n e' ts m)
    (he : ∀ x, isVariable x e = false) :
    Settles D K b e n (.name (temp m) {}) (ts ++ [(.name (temp m) {}, e')]) (m + 1) where
  temps := h.temps.concat h.built h.simple
  built := .name {} (.inr ⟨m, Nat.le_trans hb h.temps.le, Nat.lt_succ_self m, rfl⟩)
  atom := rfl
  named := fun x hx => (beq_eq_false_iff_ne.mpr (hx.ne_temp m)).trans (he x).symm
  sim := by
    intro hDK i V
    rw [assignments_append, ← bind_pure (value i e)]
    change Sim _ _ (exec i (assignments ts ++ [.assign [.name (temp m) {}] e' {}])) _ _
    rw [exec_computed]
    refine bind (h.sim hDK i V) fun v w σ τ ⟨hw, hv, V', hV', hst⟩ => ?_
    subst hw
    obtain ⟨envs, hrun, hsize, hread⟩ := run_assign hst.bound' (temp m) w
    rw [hrun]
    have hsame : Same i σ { τ with envs } := by
      refine ⟨?_, fun x hx => ?_⟩
      · obtain ⟨envs', rfl⟩ := hst.same.rest
        exact ⟨envs, rfl⟩
      · rw [hread, if_neg (hx.ne_temp m), hst.same.plain x hx]
    refine .ok ⟨hv, fun y => if y = temp m then w else V' y, fun y hy => ?_, if_pos rfl,
      hst.write hv hsame hst.bound (hsize ▸ hst.bound') hread fun _ hy => hy.pred⟩
    exact (if_neg ((hy.mono h.temps.le).ne_temp hDK.plain)).trans (hV' y hy)

theorem run_atomize_neg (hrun : (atomize true a).run n = .ok ((a', ts), m)) (note atomic) :
    (atomize atomic (.unary .neg a note)).run n =
      (if atomic then temporary ts (.unary .neg a' {})
        else pure (.unary .neg a' {}, ts)).run m := by
  change (atomize true a >>= fun p => if atomic then temporary p.2 (.unary .neg p.1 {})
    else pure (.unary .neg p.1 {}, p.2)).run n = _
  rw [run_bind_ok hrun]

theorem run_atomize_arith (hrun : (atomize true a).run n = .ok ((a', ts), k))
    (hrun' : (atomize true c).run k = .ok ((c', us), m)) (op note atomic) :
    (atomize atomic (.arith a op c note)).run n =
      (if atomic then temporary (ts ++ us) (.arith a' op c' {})
        else pure (.arith a' op c' {}, ts ++ us)).run m := by
  change (atomize true a >>= fun p => atomize true c >>= fun q =>
    if atomic then temporary (p.2 ++ q.2) (.arith p.1 op q.1 {})
    else pure (.arith p.1 op q.1 {}, p.2 ++ q.2)).run n = _
  rw [run_bind_ok hrun, run_bind_ok hrun']

theorem atomize_spec (he : Built D K e) (hb : b ≤ n) :
    (∃ a ts m, (atomize true e).run n = .ok ((a, ts), m) ∧ Settles D K b e n a ts m) ∧
      ∃ e' ts m, (atomize false e).run n = .ok ((e', ts), m) ∧ Computes D K b e n e' ts m := by
  induction he generalizing n with
  | @name x note hx =>
    have h := settles_atom (K := K) (b := b) (.name note hx) rfl n
    exact ⟨⟨_, _, _, rfl, h⟩, _, _, _, rfl, h.computes fun _ _ => ⟨rfl, rfl⟩⟩
  | @const c note hc =>
    have h := settles_atom (D := D) (b := b) (.const note hc) rfl n
    exact ⟨⟨_, _, _, rfl, h⟩, _, _, _, rfl, h.computes fun _ _ => ⟨rfl, rfl⟩⟩
  | input m' n' =>
    have h := computes_input (D := D) (K := K) (b := b) m' n' n
    exact ⟨⟨_, _, _, rfl, h.settles hb fun _ => rfl⟩, _, _, _, rfl, h⟩
  | @neg a note _ ih =>
    obtain ⟨⟨a', ts, m, hrun, ha⟩, -⟩ := ih hb
    have h := ha.neg note
    have hatomize := run_atomize_neg hrun note
    exact ⟨⟨_, _, _, hatomize true, h.settles hb fun _ => rfl⟩, _, _, _, hatomize false, h⟩
  | @arith a c op note hop _ _ iha ihc =>
    obtain ⟨⟨a', ts, k, hrun, ha⟩, -⟩ := iha hb
    obtain ⟨⟨c', us, m, hrun', hc⟩, -⟩ := ihc (Nat.le_trans hb ha.temps.le)
    have h := ha.arith hc hop note
    have hatomize := run_atomize_arith hrun hrun' op note
    exact ⟨⟨_, _, _, hatomize true, h.settles hb fun _ => rfl⟩, _, _, _, hatomize false, h⟩

end

/-! ## Statements -/

/-- What the program with atomic operands writes: the variables of the program, and temporaries.
An assignment computes with its own variable only where it did before. -/
def Derived (P : String → Expr → Prop) (x : String) (e' : Expr) : Prop :=
  (∃ e, P x e ∧ (reuses x e' = true → reuses x e = true)) ∨
    (∃ k, x = temp k) ∧ reuses x e' = false

/-- Statements with atomic operands that compute the temporaries from number `n` up to number `m`,
in order, and make the assignments that stand for `ws`. They read what is in scope. -/
inductive Numbered (K : Value → Prop) (b : Nat) :
    (String → Prop) → List (String × Expr) → Nat → List Stmt → Nat → Prop where
  | nil {D} (n : Nat) : Numbered K b D [] n [] n
  | temp {D ws n m e ss} (he : Built (InScope D b n) K e) (hsimple : isSimple e)
      (hss : Numbered K b D ws (n + 1) ss m) :
      Numbered K b D ws n (.assign [.name (temp n) {}] e {} :: ss) m
  | print {D ws n m a ss} (ha : Built (InScope D b n) K a) (hatom : isAtom a)
      (hss : Numbered K b D ws n ss m) :
      Numbered K b D ws n (.expr (.call (.name "print" {}) [a] {}) {} :: ss) m
  | expr {D ws n m e ss} (he : Built (InScope D b n) K e) (hsimple : isSimple e)
      (hss : Numbered K b D ws n ss m) : Numbered K b D ws n (.expr e {} :: ss) m
  | assign {D ws n m x e e' ss} (hused : Plain x → SameUse x e e') (he : Built (InScope D b n) K e')
      (hsimple : isSimple e') (hss : Numbered K b (fun y => y = x ∨ D y) ws n ss m) :
      Numbered K b D ((x, e) :: ws) n (.assign [.name x {}] e' {} :: ss) m

/-- The stores are related by some values of what is in scope. -/
def Related (i : Nat) (D : String → Prop) (b n : Nat) (σ τ : Store) : Prop :=
  ∃ V, Shadow i D b n V σ τ

/-- The statements `pre` stand for the statement `s`; after it the variables in `D'` are known. -/
structure Replaces (K : Value → Prop) (b : Nat) (D D' : String → Prop) (s : Stmt) (n : Nat)
    (pre : List Stmt) (m : Nat) : Prop where
  numbered : Numbered K b D' us m rest k → Numbered K b D (writes [s] ++ us) n (pre ++ rest) k
  known : Ordinary D K → (∀ w ∈ writes [s], Plain w.1) → Ordinary D' K
  sim : Ordinary D K → ∀ i,
    Sim (Related i D b n) (step i s) (exec i pre) (fun _ _ => Related i D' b m) (Stopped i)

section

variable {P : String → Expr → Prop} {D D' : String → Prop} {K : Value → Prop} {m : Nat}
  {V : String → Value}

theorem steady_related : Steady i (Related i D b n) where
  same := fun _ _ ⟨_, h⟩ => h.same
  update := fun _ _ c k ⟨V, h⟩ => ⟨V, h.update c k⟩

theorem isNormal_expr (he : Built D K e) (k) : isNormal (.expr e k) = isSimple e := by
  cases he <;> rfl

theorem isVariable_temp (hD : ∀ x, D x → Plain x) (ha : Built (InScope D b m) K a) :
    isVariable (temp m) a = false := by
  cases ha with
  | name note hy => exact beq_eq_false_iff_ne.mpr (InScope.ne_temp hD hy).symm
  | _ => rfl

theorem reuses_temp (hD : ∀ x, D x → Plain x) (he : Built (InScope D b m) K e) :
    reuses (temp m) e = false := by
  cases he with
  | arith note hop ha hb =>
    simp only [reuses, isVariable_temp hD ha, isVariable_temp hD hb, Bool.or_self]
  | _ => rfl

theorem Temps.numbered (h : Temps D K b n ts m) (hrest : Numbered K b D ws m (pre ++ rest) k) :
    Numbered K b D ws n (assignments ts ++ pre ++ rest) k := by
  rw [append_assoc]
  generalize pre ++ rest = ss at hrest ⊢
  induction h generalizing ss with
  | nil => exact hrest
  | concat _ he hsimple ih =>
    rw [assignments_append, append_assoc]
    exact ih _ (.temp he hsimple hrest)

namespace Numbered

variable (h : Numbered K b D ws n ss m)
include h

theorem normal : ss.all isNormal := by
  induction h with
  | nil => rfl
  | temp _ hsimple _ ih | assign _ _ hsimple _ ih => exact Bool.and_eq_true_iff.mpr ⟨hsimple, ih⟩
  | print _ hatom _ ih => exact Bool.and_eq_true_iff.mpr ⟨hatom, ih⟩
  | expr he hsimple _ ih =>
    exact Bool.and_eq_true_iff.mpr ⟨(isNormal_expr he {}).trans hsimple, ih⟩

theorem scope (hQ : ∀ w ∈ writes ss, P w.1 w.2) : Scoped P K (InScope D b n) ss := by
  induction h with
  | nil => exact .nil
  | @temp D ws n m e ss he _ _ ih =>
    obtain ⟨hx, hQ⟩ := forall_mem_cons.mp hQ
    refine .assign {} {} hx he ((ih hQ).mono fun y hy => ?_)
    by_cases hy' : y = Vars.temp n
    · exact .inl hy'
    · exact .inr (hy.pred hy')
  | print ha _ _ ih => exact .print {} {} {} ha (ih hQ)
  | expr he _ _ ih => exact .expr {} he (ih hQ)
  | assign _ he _ _ ih =>
    obtain ⟨hx, hQ⟩ := forall_mem_cons.mp hQ
    exact .assign {} {} hx he ((ih hQ).mono fun y hy => or_assoc.mp hy)

/-- Everything that is written is a new temporary, or stands for what was written before. -/
theorem derived : ∀ w' ∈ writes ss,
    (∃ k, n ≤ k ∧ w'.1 = Vars.temp k ∧ ((∀ x, D x → Plain x) → (∀ w ∈ ws, Plain w.1) →
      reuses w'.1 w'.2 = false)) ∨
    ∃ w ∈ ws, w.1 = w'.1 ∧ (Plain w.1 → SameUse w.1 w.2 w'.2) := by
  induction h with
  | nil => exact forall_mem_nil _
  | @temp D ws n m e ss he _ _ ih =>
    refine forall_mem_cons.mpr
      ⟨.inl ⟨n, Nat.le_refl n, rfl, fun hD _ => reuses_temp hD he⟩, fun w' hw' => ?_⟩
    obtain ⟨k, hk, hnew⟩ | hplace := ih w' hw'
    · exact .inl ⟨k, Nat.le_of_succ_le hk, hnew⟩
    · exact .inr hplace
  | print _ _ _ ih | expr _ _ _ ih => exact ih
  | @assign D ws n m x e e' ss hused _ _ _ ih =>
    refine forall_mem_cons.mpr ⟨.inr ⟨_, mem_cons_self, rfl, hused⟩, fun w' hw' => ?_⟩
    obtain ⟨k, hk, htemp, hreuses⟩ | ⟨w, hw, hplace⟩ := ih w' hw'
    · refine .inl ⟨k, hk, htemp, fun hD hws => hreuses ?_ (forall_mem_cons.mp hws).2⟩
      rintro y (rfl | hy)
      · exact (forall_mem_cons.mp hws).1
      · exact hD y hy
    · exact .inr ⟨w, mem_cons_of_mem _ hw, hplace⟩

end Numbered

theorem Settles.print (h : Settles D K b e n a ts m) (j k l) :
    Replaces K b D D (.expr (.call (.name "print" j) [e] k) l) n
      (assignments ts ++ [.expr (.call (.name "print" {}) [a] {}) {}]) m where
  numbered := fun hrest => h.temps.numbered (.print h.built h.atom hrest)
  known := fun hDK _ => hDK
  sim := by
    intro hDK i σ τ ⟨V, hst⟩
    rw [exec_append]
    refine bind (h.sim hDK i V) (fun v _ σ τ ⟨hv, V', _, hval, hst⟩ => ?_) σ τ hst
    have hrun : (exec i [.expr (.call (.name "print" {}) [a] {}) {}]).run τ =
        (Run.print v).run τ := by
      change ((value i a >>= fun v => Run.print v) >>= fun _ => pure ()).run τ = _
      rw [bind_pure_unit, run_bind, run_atom h.built h.atom hst, hval]
    rw [hrun]
    exact sim_print steady_related hv σ τ ⟨V', hst⟩

theorem Computes.expr (he : Built D K e) (h : Computes D K b e n e' ts m) (k) :
    Replaces K b D D (.expr e k) n (assignments ts ++ [.expr e' {}]) m where
  numbered := fun hrest => h.temps.numbered (.expr h.built h.simple hrest)
  known := fun hDK _ => hDK
  sim := by
    intro hDK i σ τ ⟨V, hst⟩
    have hexec : exec i (assignments ts ++ [.expr e' {}]) =
        (do exec i (assignments ts); value i e') >>= fun _ => pure () := by
      rw [exec_append, exec, step_expr h.built]
      simp only [exec, bind_assoc, pure_bind]
    rw [hexec, step_expr he]
    refine bind (h.sim hDK i V) (fun v w => pure fun σ τ hst => ?_) σ τ hst
    obtain ⟨-, -, V', -, hst⟩ := hst
    exact ⟨V', hst⟩

theorem Computes.assign (h : Computes D K b e n e' ts m) (x j k) :
    Replaces K b D (fun y => y = x ∨ D y) (.assign [.name x j] e k) n
      (assignments ts ++ [.assign [.name x {}] e' {}]) m where
  numbered := fun hrest => h.temps.numbered (.assign (h.used x) h.built h.simple hrest)
  known := by
    refine fun hDK hx => ⟨?_, hDK.number⟩
    rintro y (rfl | hy)
    · exact hx _ mem_cons_self
    · exact hDK.plain y hy
  sim := by
    intro hDK i σ τ ⟨V, hst⟩
    rw [exec_computed]
    refine bind (h.sim hDK i V) (fun v w σ τ ⟨hw, hv, V', _, hst⟩ => ?_) σ τ hst
    subst hw
    obtain ⟨envs, hrun, hsize, hread⟩ := run_assign hst.bound x w
    obtain ⟨envs', hrun', hsize', hread'⟩ := run_assign hst.bound' x w
    have hsame : Same i { σ with envs } { τ with envs := envs' } := by
      refine ⟨?_, fun y hy => ?_⟩
      · obtain ⟨envs'', rfl⟩ := hst.same.rest
        exact ⟨envs', rfl⟩
      · rw [hread, hread', hst.same.plain y hy]
    rw [hrun, hrun']
    refine .ok ⟨_, hst.write hv hsame (hsize ▸ hst.bound) (hsize' ▸ hst.bound') hread' ?_⟩
    exact fun y hy hyx => hy.imp_left fun hy => hy.resolve_left hyx

theorem atomizeStmt_expr (he : Built D K e) (k) :
    atomizeStmt (.expr e k) = (do
      let p ← atomize false e
      pure (assignments p.2 ++ [.expr p.1 {}])) := by
  cases he <;> rfl

theorem run_atomizeStmts_cons (hs : (atomizeStmt s).run n = .ok (pre, m))
    (hss : (atomizeStmts ss).run m = .ok (ss', k)) :
    (atomizeStmts (s :: ss)).run n = .ok (pre ++ ss', k) := by
  rw [atomizeStmts, run_bind_ok hs, run_bind_ok hss]
  rfl

/-- The statements `ss'` stand for the statements `ss`. -/
structure Rewrites (K : Value → Prop) (b : Nat) (D : String → Prop) (ss : List Stmt) (n : Nat)
    (ss' : List Stmt) (m : Nat) : Prop where
  numbered : Numbered K b D (writes ss) n ss' m
  sim : Ordinary D K → (∀ w ∈ writes ss, Plain w.1) → ∀ i,
    Sim (Related i D b n) (exec i ss) (exec i ss') (fun _ _ => Same i) (Stopped i)

theorem writes_cons (s ss) : writes (s :: ss) = writes [s] ++ writes ss := by
  rw [writes.eq_def, writes.eq_def [s]]
  split <;> simp_all [writes]

theorem Replaces.rewrites (h : Replaces K b D D' s n pre m)
    (hss : Rewrites K b D' ss m ss' k) : Rewrites K b D (s :: ss) n (pre ++ ss') k where
  numbered := by
    rw [writes_cons]
    exact h.numbered hss.numbered
  sim := by
    intro hDK hplain i
    rw [writes_cons, forall_mem_append] at hplain
    rw [exec_append]
    exact bind (h.sim hDK i) fun _ _ => hss.sim (h.known hDK hplain.1) hplain.2 i

theorem atomizeStmts_spec (h : Scoped P K D ss) (hb : b ≤ n) :
    ∃ ss' m, (atomizeStmts ss).run n = .ok (ss', m) ∧ Rewrites K b D ss n ss' m := by
  induction h generalizing n with
  | nil =>
    refine ⟨[], n, rfl, .nil n, fun _ _ i => pure fun σ τ hst => ?_⟩
    obtain ⟨V, hst⟩ := hst
    exact hst.same
  | @print D e ss j k l he _ ih =>
    obtain ⟨⟨a, ts, m, hrun, ha⟩, -⟩ := atomize_spec he hb
    obtain ⟨ss', m', hrun', hss⟩ := ih (Nat.le_trans hb ha.temps.le)
    refine ⟨_, m', run_atomizeStmts_cons ?_ hrun', (ha.print j k l).rewrites hss⟩
    rw [atomizeStmt, run_bind_ok hrun]
    rfl
  | @expr D e ss k he _ ih =>
    obtain ⟨-, e', ts, m, hrun, he'⟩ := atomize_spec he hb
    obtain ⟨ss', m', hrun', hss⟩ := ih (Nat.le_trans hb he'.temps.le)
    refine ⟨_, m', run_atomizeStmts_cons ?_ hrun', (he'.expr he k).rewrites hss⟩
    rw [atomizeStmt_expr he, run_bind_ok hrun]
    rfl
  | @assign D x e ss j k _ he _ ih =>
    obtain ⟨-, e', ts, m, hrun, he'⟩ := atomize_spec he hb
    obtain ⟨ss', m', hrun', hss⟩ := ih (Nat.le_trans hb he'.temps.le)
    refine ⟨_, m', run_atomizeStmts_cons ?_ hrun', (he'.assign x j k).rewrites hss⟩
    rw [atomizeStmt, run_bind_ok hrun]
    rfl

theorem Scoped.writes (h : Scoped P K D ss) : ∀ w ∈ writes ss, P w.1 w.2 := by
  induction h with
  | nil => exact forall_mem_nil _
  | print _ _ _ _ _ ih | expr _ _ _ ih => exact ih
  | assign _ _ hx _ _ ih => exact forall_mem_cons.mpr ⟨hx, ih⟩

/-- The statements `ss'` stand for the statements `ss`, which name no temporaries. -/
structure Keeps (P : String → Expr → Prop) (K : Value → Prop) (b : Nat) (D : String → Prop)
    (ss : List Stmt) (n : Nat) (ss' : List Stmt) : Prop where
  normal : ss'.all isNormal
  scope : Scoped (Derived P) K (InScope D b n) ss'
  sim : ∀ i, Sim (Related i D b n) (exec i ss) (exec i ss') (fun _ _ => Same i) (Stopped i)

/-- Making the operands of statements atomic, if no name could be one of a temporary. -/
theorem atomizeStmts_keeps (hP : ∀ x e, P x e → Plain x) (hK : ∀ c, K c → IsNumber c)
    (h : Scoped P K D ss) (hD : ∀ x, D x → Plain x) (hb : b ≤ n) :
    ∃ ss' m, (atomizeStmts ss).run n = .ok (ss', m) ∧ Keeps P K b D ss n ss' := by
  obtain ⟨ss', m, hrun, hss⟩ := atomizeStmts_spec h hb
  have hplain : ∀ w ∈ writes ss, Plain w.1 := fun w hw => hP w.1 w.2 (h.writes w hw)
  refine ⟨ss', m, hrun, hss.numbered.normal, hss.numbered.scope fun w' hw' => ?_,
    hss.sim ⟨hD, hK⟩ hplain⟩
  obtain ⟨k, -, htemp, hreuses⟩ | ⟨w, hw, hname, hused⟩ := hss.numbered.derived w' hw'
  · exact .inr ⟨⟨k, htemp⟩, hreuses hD hplain⟩
  · rw [← hname]
    exact .inl ⟨w.2, h.writes w hw, fun hx => (hused (hplain w hw)).reuses_eq.symm.trans hx⟩

end

/-! ## Programs -/

theorem Keeps.runModule {P : String → Expr → Prop} {K : Value → Prop}
    (h : Keeps P K n (fun _ => False) ss n ss') (σ) :
    Alike (fun _ _ => Same σ.envs.size) (Stopped σ.envs.size) ((runModule ss).run σ)
      ((runModule ss').run σ) := by
  have hstart : Related σ.envs.size (fun _ => False) n n { σ with envs := σ.envs.push [] }
      { σ with envs := σ.envs.push [] } := by
    have hbound : σ.envs.size < (σ.envs.push []).size := by simp
    exact ⟨fun _ => .none, ⟨⟨_, rfl⟩, fun _ _ => rfl⟩, hbound, hbound,
      fun y hy => absurd hy InScope.not_start, fun y hy => absurd hy InScope.not_start⟩
  exact h.sim σ.envs.size _ _ hstart

theorem run_atoms (h : (atomizeStmts ss).run n = .ok (ss', m)) (backend) (heap : Heap) (note) :
    (Pass.run backend heap .atoms (.program (.module ss note))).run n =
      .ok (.program (.module ss' {}), m) := by
  rw [Pass.run, run_bind_ok h]
  rfl

theorem Same.console (h : Same i σ τ) : τ.console = σ.console := by
  obtain ⟨envs, rfl⟩ := h.rest
  rfl

/-- What can be seen of two runs of a program at their end: what was read and written, and the
variables of the program, in the environment number `i`. -/
structure SameEnd (ss : List Stmt) (i : Nat) (σ τ : Store) : Prop where
  console : τ.console = σ.console
  values : ∀ x ∈ programVars ss, read i τ x = read i σ x

theorem Same.sameEnd (hplain : ∀ x ∈ programVars ss, Plain x) (h : Same i σ τ) :
    SameEnd ss i σ τ where
  console := h.console
  values := fun x hx => h.plain x (hplain x hx)

/-- A checked program and the program with atomic operands, whatever number the temporaries start
with: from the same store, they read and write the same, end in the same way, and leave the same
values in the variables of the program. If they stop, then at the input or at a number that cannot
be written. -/
theorem atoms_keep_meaning (ss : List Stmt) (note : Note)
    (hchecked : ∃ q, checkModule .vars (.module ss note) = .ok q)
    (hplain : ∀ x ∈ programVars ss, Plain x) (backend : Backend) (h : Heap) (n : Nat) :
    ∃ ss' m,
      (Pass.run backend h .atoms (.program (.module ss note))).run n =
        .ok (.program (.module ss' {}), m) ∧
      ∃ N, ∀ fuel fuel', N ≤ fuel → N ≤ fuel' → ∀ σ : Store,
        Alike (fun _ _ => SameEnd ss σ.envs.size)
          (fun err σ' τ' => IsInputError err ∧ SameEnd ss σ.envs.size σ' τ')
          ((runProgram .vars fuel (.module ss note)).run σ)
          ((runProgram .vars fuel' (.module ss' {})).run σ) := by
  obtain ⟨q, hq⟩ := hchecked
  have hscoped := checkModule_scoped hq (P := fun x _ => Plain x)
    fun w hw => hplain w.1 (List.mem_map_of_mem hw)
  obtain ⟨ss', m, hrun, hkeeps⟩ := atomizeStmts_keeps (fun _ _ hx => hx) (fun _ hc => hc) hscoped
    (fun _ hx => hx.elim) (Nat.le_refl n)
  obtain ⟨N, hN⟩ := (limit_runProgram hscoped note).reached
  obtain ⟨N', hN'⟩ := (limit_runProgram hkeeps.scope {}).reached
  refine ⟨ss', m, run_atoms hrun backend h note, max N N', fun fuel fuel' hfuel hfuel' σ => ?_⟩
  rw [congrFun (hN fuel (by omega)) (), congrFun (hN' fuel' (by omega)) ()]
  exact (hkeeps.runModule σ).mono (fun _ _ _ _ hsame => hsame.sameEnd hplain)
    fun _ _ _ hstop => ⟨hstop.1, hstop.2.sameEnd hplain⟩

/-- A program with nested operands, inputs on both sides of an operator, and a truth value. -/
theorem atoms_keep_meaning_nested :
    let input : Expr := .call (.name "input_int" {}) [] {}
    let ss : List Stmt := [
      .assign [.name "x" {}]
        (.arith input .sub (.arith (.const (.bool true) {}) .add input {}) {}) {},
      .assign [.name "x" {}] (.arith (.unary .neg (.name "x" {}) {}) .add (.name "x" {}) {}) {},
      .expr (.call (.name "print" {}) [.unary .neg (.unary .neg (.name "x" {}) {}) {}] {}) {}]
    (∃ q, checkModule .vars (.module ss {}) = .ok q) ∧ (∀ x ∈ programVars ss, Plain x) ∧
      ∃ ss' m,
        (Pass.run .frames #[] .atoms (.program (.module ss {}))).run 7 =
          .ok (.program (.module ss' {}), m) ∧
        ∃ N, ∀ fuel fuel', N ≤ fuel → N ≤ fuel' → ∀ σ : Store,
          Alike (fun _ _ => SameEnd ss σ.envs.size)
            (fun err σ' τ' => IsInputError err ∧ SameEnd ss σ.envs.size σ' τ')
            ((runProgram .vars fuel (.module ss {})).run σ)
            ((runProgram .vars fuel' (.module ss' {})).run σ) := by
  intro input ss
  have hchecked : ∃ q, checkModule .vars (.module ss {}) = .ok q := ⟨_, rfl⟩
  have hplain : ∀ x ∈ programVars ss, Plain x := by decide
  exact ⟨hchecked, hplain, atoms_keep_meaning ss {} hchecked hplain .frames #[] 7⟩

end CompilerKit.Vars
