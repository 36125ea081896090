import CompilerKit.Proofs.Vars.Atoms
import CompilerKit.Proofs.Vars.Select

/-!
# The compiler for the language of variables

A checked program is compiled to code that reads and prints what the program reads and prints.

* `selectStmts_spec`: the code of statements does what the statements do.
* `lower_prints`: what is printed stays the same in the frame and with encodable code.
-/

namespace CompilerKit.Vars

open Run X86 List Bool Machine EStateM String

variable {D : String → Prop} {ss : List Stmt} {is : List Instr}
variable {e : Expr} {P : String → Expr → Prop} {D' S : String → Prop} {h : Heap} {note : Note}

/-! ## Constants -/

/-- The constants of an expression. -/
def constantsOf : Expr → List Value
  | .const c _ => [c]
  | .unary _ a _ => constantsOf a
  | .arith a _ b _ => constantsOf a ++ constantsOf b
  | .call _ [a] _ => constantsOf a
  | _ => []

/-- The constants of a program. -/
def constants : List Stmt → List Value
  | [] => []
  | .expr e _ :: ss | .assign _ e _ :: ss => constantsOf e ++ constants ss
  | _ :: ss => constants ss

theorem Built.consts {K K' : Value → Prop} (h : Built D K e) (hc : ∀ c ∈ constantsOf e, K' c) :
    Built D K' e := by
  induction h with
  | name n hx => exact .name n hx
  | const n _ => exact .const n (hc _ (mem_singleton_self _))
  | input m n => exact .input m n
  | neg n _ ih => exact .neg n (ih hc)
  | arith n hop _ _ iha ihb =>
    rw [constantsOf, forall_mem_append] at hc
    exact .arith n hop (iha hc.1) (ihb hc.2)

theorem Scoped.consts {K K' : Value → Prop} (h : Scoped P K D ss) (hc : ∀ c ∈ constants ss, K' c) :
    Scoped P K' D ss := by
  induction h with
  | nil => exact .nil
  | print m n k he _ ih =>
    rw [constants, forall_mem_append] at hc
    exact .print m n k (he.consts hc.1) (ih hc.2)
  | expr n he _ ih =>
    rw [constants, forall_mem_append] at hc
    exact .expr n (he.consts hc.1) (ih hc.2)
  | assign m n hx he _ ih =>
    rw [constants, forall_mem_append] at hc
    exact .assign m n hx (he.consts hc.1) (ih hc.2)

theorem Scoped.words (h : Scoped P IsNumber D ss) (hc : ∀ c ∈ constants ss, IsWord c) :
    Scoped P IsWord D ss :=
  h.consts hc

/-! ## Statements -/

/-- The store and the machine have come equally far: the variables in `D` are the same in the
environment number `i` and in the machine, the rest of the input is the same, and what the machine
has still to print is what the store has already written. -/
structure Mirrors (i : Nat) (D : String → Prop) (σ : Store) (m : Machine) : Prop where
  bound : i < σ.envs.size
  names : ∀ x, D x → Mirrored i σ m x
  input : m.console.input = σ.console.input
  output : m.console.output ++ join (m.output.map Cell.text) = σ.console.output
  quiet : m.logging = false

/-- The instructions do what the statements do. -/
def Does (D : String → Prop) (ss : List Stmt) (is : List Instr) : Prop :=
  ∀ ⦃i σ σ' m⦄, Mirrors i D σ m → (exec i ss).run σ = .ok () σ' →
    ∃ m', Runs is m m' ∧ Mirrors i D σ' m'

/-- The instructions do what the statements do, over variables in `S`. -/
structure Emits (S D : String → Prop) (ss : List Stmt) (is : List Instr) : Prop where
  selected : Selected IsWord S is
  runs : Does D ss is

section

variable {i : Nat} {σ σ' : Store} {m : Machine} {x : String} {a : Expr}
variable {K : Value → Prop}

theorem Mirrors.mono (h : Mirrors i D σ m) (hD : ∀ x, D' x → D x) : Mirrors i D' σ m :=
  { h with names := fun x hx => h.names x (hD x hx) }

theorem text_word {n id s} (hs : (Value.int n id).text h = .ok s) : (Cell.word n).text = s := by
  change ParseTree.written (printedAt baseIndent (decimal n)) = s
  change printedAt baseIndent (decimal n) = .ok s at hs
  rw [hs]
  rfl

theorem clobbers_of_reuses (h : reuses x e = false) : clobbers x e = false := by
  cases e with
  | arith a op b note =>
    cases op with
    | sub => exact (or_eq_false_iff.mp h).2
    | _ => rfl
  | _ => rfl

theorem Mirrors.print (h : Mirrors i D σ m) (ha : Built D IsWord a) (hatom : isAtom a)
    (hp : Heap) {s} (hs : selectAtom hp a = .ok s)
    (hrun : (value i a >>= print).run σ = .ok () σ') :
    ∃ m', Runs [.op "movq" [s, .reg "rdi"], .call "print_int" (.int 1)] m m' ∧
      Mirrors i D σ' m' := by
  obtain ⟨n, id, s', hvalue, -, hs', hreads, -⟩ :=
    atom_reads (ha.mono h.names fun _ hc => hc) hatom hp
  obtain rfl : s' = s := Except.ok.inj (hs'.symm.trans hs)
  rw [run_bind, hvalue] at hrun
  change (Run.print (.int n id)).run σ = _ at hrun
  rw [run_print] at hrun
  cases htext : (Value.int n id).text σ.heap with
  | error f => rw [htext] at hrun; cases hrun
  | ok t =>
    rw [htext] at hrun
    cases hrun
    have hquiet : (m.setRegister "rdi" (.word n)).logging = false := h.quiet
    have hrdi : Bindings.get? (m.setRegister "rdi" (.word n)).registers "rdi" = some (.word n) := by
      simp [setRegister, Bindings.get?_put]
    refine ⟨_, (runs_move h.quiet hreads (writes_register m "rdi")).append
      (runs_printInt hquiet hrdi (.int 1)), h.bound, h.names, h.input, ?_, h.quiet⟩
    change m.console.output ++ join ((m.output ++ [Cell.word n]).map Cell.text) =
      σ.console.output ++ t
    rw [← h.output, map_append]
    simp [String.join_append, text_word htext, String.append_assoc]

theorem Mirrors.assign (h : Mirrors i D σ m) (he : Built D IsWord e) (hsimple : isSimple e)
    (hreuses : reuses x e = false) (hsel : selectAssign hp x e = .ok is)
    (hrun : (value i e >>= assign i x).run σ = .ok () σ') :
    ∃ m', Runs is m m' ∧ Mirrors i (fun y => y = x ∨ D y) σ' m' := by
  obtain ⟨v, τ, hv, hrun⟩ := next_ok hrun
  obtain ⟨n, m', hcomputed⟩ := selectAssign_runs h.quiet h.input
    (he.mono h.names fun _ hc => hc) hsimple hsel hv
  obtain ⟨id, rfl⟩ := hcomputed.value
  have hbound : i < τ.envs.size := hcomputed.envs ▸ h.bound
  obtain ⟨envs, hassign, hsize, hread⟩ := run_assign hbound x (.int n id)
  cases hassign.symm.trans hrun
  have hset := hcomputed.assigned
  rw [clobbers_of_reuses hreuses] at hset
  refine ⟨m', hcomputed.runs, hsize ▸ hbound, ?_, hcomputed.input, ?_, hset.logging.trans h.quiet⟩
  · intro y hy
    by_cases hyx : y = x
    · subst hyx
      exact ⟨n, id, by rw [hread, if_pos rfl], hcomputed.word, hset.written⟩
    · obtain ⟨k, id', hk, hword, hcell⟩ := h.names y (hy.resolve_left hyx)
      refine ⟨k, id', ?_, hword, (hset.others y hyx).trans hcell⟩
      rwa [hread, if_neg hyx, read, hcomputed.envs]
  · rw [hset.console, hset.output, hcomputed.output]
    exact h.output

theorem Mirrors.expr (h : Mirrors i D σ m) (he : Built D IsWord e) (hsimple : isSimple e)
    (hp : Heap) (hsel : selectStmt? hp (.expr e note) = .ok (some is))
    (hv : (value i e).run σ = .ok v σ') : ∃ m', Runs is m m' ∧ Mirrors i D σ' m' := by
  obtain ⟨j, k, rfl⟩ | ⟨hinput, w, next, hrun⟩ :=
    run_value_simple (he.mono h.names fun _ hc => hc) hsimple
  · cases hsel
    obtain ⟨n, id, input, next, rfl, -, rfl, hruns⟩ := readInt_runs h.quiet h.input hv
    exact ⟨_, hruns, h.bound, h.names, rfl, h.output, h.quiet⟩
  · obtain rfl : is = [] := by
      cases he with
      | input j k => exact absurd rfl (hinput j k)
      | _ => cases hsel; rfl
    cases hrun.symm.trans hv
    exact ⟨m, .nil m, h.bound, h.names, h.input, h.output, h.quiet⟩

/-! ## Programs with atomic operands -/

theorem selected_print {s} (hs : Source K D s) :
    Selected K D [.op "movq" [s, .reg "rdi"], .call "print_int" (.int 1)] :=
  have hrdi : Source K D (.reg "rdi") := ⟨rfl, rfl, nofun, nofun⟩
  (selected_binary hs hrdi (.inl rfl)).append (selected_call (.inl rfl) _)

theorem reuses_of_accumulates (h : accumulates x e) : reuses x e := by
  unfold accumulates at h
  split at h
  · exact h
  · exact or_eq_true_iff.mpr (.inl h)
  · cases h

theorem selectAtom_total (ha : Built D K a) (hatom : isAtom a) (h : Heap) :
    ∃ s, selectAtom h a = .ok s := by
  cases ha with
  | name | const => exact ⟨_, rfl⟩
  | _ => cases hatom

/-- An assignment with atomic operands has instructions exactly if it does not accumulate. -/
theorem selectAssign_returns (he : Built D K e) (hsimple : isSimple e) (h : Heap) (x) :
    (accumulates x e = false ∧ ∃ is, selectAssign h x e = .ok is) ∨
      accumulates x e ∧ selectAssign h x e = .error .wrongKind := by
  cases he with
  | name | const | input => exact .inl ⟨rfl, _, rfl⟩
  | neg note ha =>
    obtain ⟨s, hs⟩ := selectAtom_total ha hsimple h
    refine .inl ⟨rfl, ?_⟩
    rw [selectAssign, hs]
    split <;> exact ⟨_, rfl⟩
  | @arith a b op note hop ha hb =>
    obtain ⟨hatom, hatom'⟩ := and_eq_true_iff.mp hsimple
    obtain ⟨s, hs⟩ := selectAtom_total ha hatom h
    obtain ⟨t, ht⟩ := selectAtom_total hb hatom' h
    cases op with
    | add =>
      rw [accumulates, selectAssign, hs, ht]
      cases selectAssign.isVariable x a with
      | true => exact .inr ⟨rfl, rfl⟩
      | false =>
        cases selectAssign.isVariable x b with
        | true => exact .inr ⟨rfl, rfl⟩
        | false => exact .inl ⟨rfl, _, rfl⟩
    | sub =>
      rw [accumulates, selectAssign, hs, ht]
      cases selectAssign.isVariable x a with
      | true => exact .inr ⟨rfl, rfl⟩
      | false => exact .inl ⟨rfl, _, rfl⟩
    | _ => cases hop

theorem selectStmts_cons (hs : selectStmt? hp s = .ok (some is)) (ss) :
    selectStmts hp (s :: ss) = (selectStmts hp ss).map (is ++ ·) := by
  rw [selectStmts, hs]
  cases selectStmts hp ss <;> rfl

theorem selectStmts_cons_ok (h : selectStmts hp (s :: ss) = .ok is) :
    ∃ js ks, selectStmt? hp s = .ok (some js) ∧ selectStmts hp ss = .ok ks ∧ is = js ++ ks := by
  obtain ⟨found, hfound, h⟩ := ok_of_bind h
  cases found with
  | none => cases h
  | some js =>
    obtain ⟨ks, hks, h⟩ := ok_of_bind h
    cases h
    exact ⟨js, ks, hfound, hks, rfl⟩

/-- A program with atomic operands has instructions exactly if no assignment accumulates. -/
theorem selectStmts_outcome (hss : Scoped P K D ss) (hnormal : ss.all isNormal) (h : Heap) :
    ((∀ w ∈ writes ss, accumulates w.1 w.2 = false) ∧ ∃ is, selectStmts h ss = .ok is) ∨
      (∃ w ∈ writes ss, accumulates w.1 w.2) ∧ selectStmts h ss = .error .wrongKind := by
  -- a statement that has instructions leaves the outcome to the others
  have hcons {s ss is} {p q : Prop} (hs : selectStmt? h s = .ok (some is)) :
      (p ∧ ∃ js, selectStmts h ss = .ok js) ∨ q ∧ selectStmts h ss = .error .wrongKind →
      (p ∧ ∃ js, selectStmts h (s :: ss) = .ok js) ∨
        q ∧ selectStmts h (s :: ss) = .error .wrongKind := by
    rw [selectStmts_cons hs]
    rintro (⟨hp, js, hjs⟩ | ⟨hq, hjs⟩)
    · exact .inl ⟨hp, _, by rw [hjs]; rfl⟩
    · exact .inr ⟨hq, by rw [hjs]; rfl⟩
  induction hss with
  | nil => exact .inl ⟨forall_mem_nil _, [], rfl⟩
  | @print D a ss j k l ha _ ih =>
    obtain ⟨hatom, hrest⟩ := and_eq_true_iff.mp hnormal
    obtain ⟨s, hs⟩ := selectAtom_total ha hatom h
    have hsel : selectStmt? h (.expr (.call (.name "print" j) [a] k) l) =
        .ok (some [.op "movq" [s, .reg "rdi"], .call "print_int" (.int 1)]) := by
      rw [selectStmt?, hs]
      rfl
    exact hcons hsel (ih hrest)
  | @expr D e ss note he _ ih =>
    obtain ⟨is, hsel⟩ : ∃ is, selectStmt? h (.expr e note) = .ok (some is) := by
      cases he <;> exact ⟨_, rfl⟩
    exact hcons hsel (ih (and_eq_true_iff.mp hnormal).2)
  | @assign D x e ss j k _ he _ ih =>
    obtain ⟨hsimple, hrest⟩ := and_eq_true_iff.mp hnormal
    rcases selectAssign_returns he hsimple h x with ⟨hx, is, his⟩ | ⟨hx, herror⟩
    · have hsel : selectStmt? h (.assign [.name x j] e k) = .ok (some is) := by
        rw [selectStmt?, his]
        rfl
      refine (hcons hsel (ih hrest)).imp (.imp_left fun hall => forall_mem_cons.mpr ⟨hx, hall⟩) ?_
      exact .imp_left fun ⟨w, hw, hacc⟩ => ⟨w, mem_cons_of_mem _ hw, hacc⟩
    · refine .inr ⟨⟨(x, e), mem_cons_self, hx⟩, ?_⟩
      rw [selectStmts, selectStmt?, herror]
      rfl

theorem Does.cons (hD : ∀ x, D x → D' x)
    (hstep : ∀ {i σ σ' m}, Mirrors i D σ m → (step i s).run σ = .ok () σ' →
      ∃ m', Runs is m m' ∧ Mirrors i D' σ' m')
    (hss : Does D' ss js) : Does D (s :: ss) (is ++ js) := by
  intro i σ σ' m hm hrun
  obtain ⟨_, τ, hs, hrun⟩ := next_ok hrun
  obtain ⟨m1, hruns, hm1⟩ := hstep hm hs
  obtain ⟨m2, hruns', hm2⟩ := hss hm1 hrun
  exact ⟨m2, hruns.append hruns', hm2.mono hD⟩

/-- The instructions of a program with atomic operands: their form, and what they do if no
assignment computes with its own variable. -/
theorem selectStmts_spec (hK : ∀ c, K c → IsWord c) (h : Scoped P K D ss)
    (hnormal : ss.all isNormal) (his : selectStmts hp ss = .ok is) :
    Selected K (fun y => D y ∨ y ∈ programVars ss) is ∧
      ((∀ w ∈ writes ss, reuses w.1 w.2 = false) → Does D ss is) := by
  have hword {D : String → Prop} {e : Expr} (he : Built D K e) : Built D IsWord e :=
    he.mono (fun _ hx => hx) hK
  induction h generalizing is with
  | nil =>
    cases his
    exact ⟨selected_nil, fun _ _ _ _ _ hm hrun => by cases hrun; exact ⟨_, .nil _, hm⟩⟩
  | print j k l ha _ ih =>
    obtain ⟨hatom, hrest⟩ := and_eq_true_iff.mp hnormal
    obtain ⟨js, ks, hjs, hks, rfl⟩ := selectStmts_cons_ok his
    obtain ⟨hselected, hdoes⟩ := ih hrest hks
    obtain ⟨s, hs, hsource⟩ := selectAtom_source hK ha hatom hp
    rw [selectStmt?, hs] at hjs
    cases hjs
    refine ⟨((selected_print hsource).mono fun _ => .inl).append hselected, fun hreuses => ?_⟩
    refine .cons (fun _ hx => hx) (fun hm hrun => ?_) (hdoes hreuses)
    exact hm.print (hword ha) hatom hp hs hrun
  | @expr D e ss note he _ ih =>
    obtain ⟨hsimple, hrest⟩ := and_eq_true_iff.mp hnormal
    obtain ⟨js, ks, hjs, hks, rfl⟩ := selectStmts_cons_ok his
    obtain ⟨hselected, hdoes⟩ := ih hrest hks
    rw [isNormal_expr he] at hsimple
    refine ⟨.append ?_ hselected, fun hreuses => ?_⟩
    · cases he with
      | input j k => cases hjs; exact selected_call (.inr rfl) _
      | _ => cases hjs; exact selected_nil
    · refine .cons (fun _ hx => hx) (fun hm hrun => ?_) (hdoes hreuses)
      rw [step_expr he] at hrun
      obtain ⟨v, τ, hv, hrun⟩ := next_ok hrun
      cases hrun
      exact hm.expr (hword he) hsimple hp hjs hv
  | @assign D x e ss j k _ he _ ih =>
    obtain ⟨hsimple, hrest⟩ := and_eq_true_iff.mp hnormal
    obtain ⟨js, ks, hjs, hks, rfl⟩ := selectStmts_cons_ok his
    obtain ⟨hselected, hdoes⟩ := ih hrest hks
    obtain ⟨js, hsel, hjs⟩ := ok_of_bind hjs
    cases hjs
    -- the variable is one of the program, whether it has been written before or not
    have hscope : ∀ y, y = x ∨ D y → D y ∨ y ∈ programVars (.assign [.name x j] e k :: ss) := by
      rintro y (rfl | hy)
      · exact .inr mem_cons_self
      · exact .inl hy
    refine ⟨((selectAssign_selected hK he hsimple hsel).mono hscope).append
      (hselected.mono fun y hy => hy.elim (hscope y) fun hy => .inr (mem_cons_of_mem x hy)),
      fun hreuses => ?_⟩
    obtain ⟨hx, hreuses⟩ := forall_mem_cons.mp hreuses
    refine .cons (fun _ => .inr) (fun hm hrun => ?_) (hdoes hreuses)
    exact hm.assign (hword he) hsimple hx hsel hrun

theorem selectStmts_emits (hP : ∀ x e, P x e → reuses x e = false) (h : Scoped P IsWord D ss)
    (hnormal : ss.all isNormal) (hp : Heap) :
    ∃ is, selectStmts hp ss = .ok is ∧ Emits (fun y => D y ∨ y ∈ programVars ss) D ss is := by
  have hreuses : ∀ w ∈ writes ss, reuses w.1 w.2 = false := fun w hw => hP _ _ (h.writes w hw)
  obtain ⟨-, is, his⟩ | ⟨⟨w, hw, hacc⟩, -⟩ := selectStmts_outcome h hnormal hp
  · obtain ⟨hselected, hdoes⟩ := selectStmts_spec (fun _ hc => hc) h hnormal his
    exact ⟨is, his, hselected, hdoes hreuses⟩
  · cases (hreuses w hw).symm.trans (reuses_of_accumulates hacc)

end

/-! ## Machine code -/

/-- The code with places for its variables, in encodable form, prints what the code over variables
prints. -/
theorem lower_prints (his : Selected IsWord S is)
    (hvars : (is.flatMap Instr.variables).toFinset.card ≤ maxPlaces) :
    ∃ p q, assignHomes { code := .flat is } = .ok p ∧ patch p = .ok q ∧
      ∀ c m, (mainRun is).run (entered { console := c }) = .ok () m →
        printed q.toTerm c =
          (.ok (), m.console.write (join (m.output.map Cell.text))) := by
  obtain ⟨zs, hhomes, hlength, hmem⟩ :=
    homeInstrs_layout (all_isPlain_of_isPseudo his.pseudo)
  obtain ⟨js, hjs, hordinary, hfollows⟩ := patchInstrs_follows (isTidy_settle his.tidy zs)
  refine ⟨_, _, assignHomes_flat hhomes none, patch_flat hjs _, fun c m hrun => ?_⟩
  -- the machine with variables, the one with a frame, and the one that uses the scratch register
  obtain ⟨_, n, hrun', -, hframed⟩ :=
    (lockstep_settle (hlength ▸ hvars) his.pseudo hmem).run_ok (framed_start zs c) hrun
  obtain ⟨_, k, hrun'', -, hscratch⟩ := hfollows.lockstep.run_ok (Scratch.refl rfl false) hrun'
  have hplain := all_isPlain_of_isStraight (all_isStraight_of_isOrdinary hordinary)
  have hterm := runTerm_of_run hplain rfl hscratch.quiet' hrun''
    (some (frameSize (layout 0 zs).length))
  rw [printed, hterm]
  change (Except.ok (), k.console.write (join (k.output.map Cell.text))) = _
  rw [hscratch.console, hscratch.output, hframed.console, hframed.output]

/-! ## Programs -/

/-- The passes that lead from a program to encodable instructions. -/
def compile (h : Heap) (p : Program) : Compile Artifact :=
  [Pass.atoms, .select, .homes, .patch].foldlM (fun a pass => pass.run .frames h a) (.program p)

theorem run_compile (hatoms : (atomizeStmts ss).run n = .ok (ss', n'))
    (hselect : selectStmts h ss' = .ok is) (hhomes : assignHomes { code := .flat is } = .ok p)
    (hpatch : patch p = .ok q) : (compile h (.module ss note)).run n = .ok (.assembly q, n') := by
  have hselected : (Pass.run .frames h .select (.program (.module ss' {}))).run n' =
      .ok (.assembly { code := .flat is }, n') := by
    rw [Pass.run, hselect]
    rfl
  have hhomed : (Pass.run .frames h .homes (.assembly { code := .flat is })).run n' =
      .ok (.assembly p, n') := by
    rw [Pass.run, Artifact.onAssembly, hhomes]
    rfl
  have hpatched : (Pass.run .frames h .patch (.assembly p)).run n' = .ok (.assembly q, n') := by
    rw [Pass.run, Artifact.onAssembly, hpatch]
    rfl
  simp only [compile, foldlM_cons, foldlM_nil]
  rw [run_bind_ok (run_atoms hatoms .frames h note), run_bind_ok hselected, run_bind_ok hhomed,
    run_bind_ok hpatched]
  rfl

theorem reuses_derived (hP : ∀ x e, P x e → reuses x e = false) (h : Derived P x e) :
    reuses x e = false := by
  obtain ⟨e', hx, hreuses⟩ | ⟨-, hreuses⟩ := h
  · by_contra hne
    exact false_ne_true ((hP x e' hx).symm.trans (hreuses (eq_true_of_not_eq_false hne)))
  · exact hreuses

theorem Emits.main (h : Emits S D ss is) (hD : ∀ x, ¬ D x)
    (hrun : (runModule ss).run σ = .ok () σ') :
    ∃ m, (mainRun is).run (entered { console := σ.console }) = .ok () m ∧
      m.console.write (join (m.output.map Cell.text)) = σ'.console := by
  have hstart : Mirrors σ.envs.size D { σ with envs := σ.envs.push [] }
      (entered { console := σ.console }) :=
    ⟨by simp, fun x hx => absurd hx (hD x), rfl, append_empty, rfl⟩
  obtain ⟨m, hruns, hm⟩ := h.runs hstart hrun
  refine ⟨m, hruns.mainRun, ?_⟩
  rw [Console.write, hm.output, hm.input]

/-- A checked program whose constants are words, with at most `2 ^ 59` variables once its operands
are atomic, and in which no sum or difference has the variable that it is assigned to as an operand,
is compiled; and whenever the program runs to its end, the code prints the same and leaves the same
input unread. -/
theorem compile_prints (ss : List Stmt) (note : Note)
    (hchecked : ∃ q, checkModule .vars (.module ss note) = .ok q)
    (hwords : ∀ c ∈ constants ss, IsWord c) (hplain : ∀ x ∈ programVars ss, Plain x)
    (hreuses : ∀ w ∈ writes ss, reuses w.1 w.2 = false) (h : Heap) (n : Nat)
    (hcount : ∀ ss' n', (Pass.run .frames h .atoms (.program (.module ss note))).run n =
        .ok (.program (.module ss' {}), n') → (programVars ss').toFinset.card ≤ maxPlaces) :
    ∃ p n', (compile h (.module ss note)).run n = .ok (.assembly p, n') ∧
      ∀ fuel σ σ', (runProgram .vars fuel (.module ss note)).run σ = .ok () σ' →
        printed p.toTerm σ.console = (.ok (), σ'.console) := by
  obtain ⟨q, hq⟩ := hchecked
  have hscoped := (checkModule_scoped hq (P := fun x e => Plain x ∧ reuses x e = false)
    fun w hw => ⟨hplain w.1 (mem_map_of_mem hw), hreuses w hw⟩).words hwords
  have hnumber : ∀ c, IsWord c → IsNumber c := by
    rintro c ⟨n, id, rfl, -⟩
    exact ⟨n, rfl⟩
  obtain ⟨ss', n', hatoms, hkeeps⟩ := atomizeStmts_keeps (fun _ _ hx => hx.1) hnumber hscoped
    (fun _ hx => hx.elim) (Nat.le_refl n)
  obtain ⟨is, hselect, hemits⟩ := selectStmts_emits
    (fun _ _ hx => reuses_derived (fun _ _ hx => hx.2) hx) hkeeps.scope hkeeps.normal h
  have hcard : (is.flatMap Instr.variables).toFinset.card ≤ maxPlaces := by
    refine (Finset.card_le_card fun y hy => ?_).trans
      (hcount ss' n' (run_atoms hatoms .frames h note))
    rw [mem_toFinset] at hy ⊢
    exact (hemits.selected.names y hy).resolve_left InScope.not_start
  obtain ⟨p, q, hhomes, hpatch, hprints⟩ := lower_prints hemits.selected hcard
  refine ⟨q, n', run_compile hatoms hselect hhomes hpatch, fun fuel σ σ' hrun => ?_⟩
  -- a run that ends with its fuel is one of the program with atomic operands, and so of the code
  have hmodule := (limit_runProgram hscoped note).run_ok (i := ()) hrun
  have hend := hkeeps.runModule σ
  rw [hmodule] at hend
  generalize hrun' : (runModule ss').run σ = r at hend
  cases hend with
  | @ok _ _ _ τ hsame =>
    obtain ⟨m, hmain, hconsole⟩ := hemits.main (fun _ => InScope.not_start) hrun'
    rw [hprints σ.console m hmain, hconsole, hsame.console]

/-- A program with nested operands that reads three numbers, and a run of it. -/
theorem compile_prints_nested :
    let input : Expr := .call (.name "input_int" {}) [] {}
    let ss : List Stmt := [
      .assign [.name "x" {}]
        (.arith input .sub (.arith input .add (.const (.int 3 9) {}) {}) {}) {},
      .assign [.name "y" {}] (.unary .neg (.name "x" {}) {}) {},
      .assign [.name "x" {}]
        (.arith (.unary .neg (.name "x" {}) {}) .add (.arith (.name "y" {}) .sub input {}) {}) {},
      .expr (.call (.name "print" {}) [.arith (.name "x" {}) .sub (.name "y" {}) {}] {}) {}]
    let σ : Store := { console := .ofInput "7\n5\n2\nrest" }
    (∃ q, checkModule .vars (.module ss {}) = .ok q) ∧ (∀ c ∈ constants ss, IsWord c) ∧
      (∀ x ∈ programVars ss, Plain x) ∧ (∀ w ∈ writes ss, reuses w.1 w.2 = false) ∧
      (∀ ss' n', (Pass.run .frames #[] .atoms (.program (.module ss {}))).run 0 =
        .ok (.program (.module ss' {}), n') → (programVars ss').toFinset.card ≤ maxPlaces) ∧
      ∃ p n', (compile #[] (.module ss {})).run 0 = .ok (.assembly p, n') ∧
        printed p.toTerm σ.console =
          (.ok (), { input := "rest".toList, output := "-1" }) := by
  intro input ss σ
  have hchecked : ∃ q, checkModule .vars (.module ss {}) = .ok q := ⟨_, rfl⟩
  have hwords : ∀ c ∈ constants ss, IsWord c := by
    intro c hc
    obtain rfl := mem_singleton.mp hc
    exact ⟨3, 9, rfl, rfl⟩
  have hplain : ∀ x ∈ programVars ss, Plain x := by decide
  have hreuses : ∀ w ∈ writes ss, reuses w.1 w.2 = false := by decide
  have hcount : ∀ ss' n', (Pass.run .frames #[] .atoms (.program (.module ss {}))).run 0 =
      .ok (.program (.module ss' {}), n') → (programVars ss').toFinset.card ≤ maxPlaces := by
    intro ss' n' hrun
    cases hrun
    exact (toFinset_card_le _).trans (by decide)
  have hends : (match (runProgram .vars 20 (.module ss {})).run σ with
      | .ok _ σ' => σ'.console.input == "rest".toList && σ'.console.output == "-1"
      | .error _ _ => false) = true := by decide +kernel
  obtain ⟨p, n', hcompile, hprints⟩ :=
    compile_prints ss {} hchecked hwords hplain hreuses #[] 0 hcount
  refine ⟨hchecked, hwords, hplain, hreuses, hcount, p, n', hcompile, ?_⟩
  cases hrun : (runProgram .vars 20 (.module ss {})).run σ with
  | error err σ' => rw [hrun] at hends; cases hends
  | ok u σ' =>
    rw [hrun] at hends
    obtain ⟨hinput, houtput⟩ := Bool.and_eq_true_iff.mp hends
    rw [hprints 20 σ σ' hrun, ← beq_iff_eq.mp hinput, ← beq_iff_eq.mp houtput]

end CompilerKit.Vars
