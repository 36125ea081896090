import CompilerKit.Proofs.Vars.Compiler

/-!
# Programs that have instructions

The operands of every checked program are made atomic, but there are no instructions for an
assignment that adds to its own variable or takes something from it. All other programs have them.
-/

namespace CompilerKit.Vars

open Run X86 Compile List

/-! ## The form of programs with atomic operands -/

/-- Any name at all. -/
def Anything (_ : String) : Prop := True

/-- The assignment `w'` is one to a temporary, or it takes the place of one of the assignments `ws`
and accumulates if that one does. -/
def TakesPlace (ws : List (String × Expr)) (w' : String × Expr) : Prop :=
  (∃ k, w'.1 = temp k) ∨
    ∃ w ∈ ws, w.1 = w'.1 ∧ (Plain w.1 → accumulates w'.1 w'.2 = accumulates w.1 w.2)

/-- The statements `ss'` have atomic operands and take the place of `ss`. -/
structure Shaped (K : Value → Prop) (ss ss' : List Stmt) : Prop where
  scope : Scoped (fun _ _ => True) K Anything ss'
  normal : ss'.all isNormal
  derived : ∀ w' ∈ writes ss', TakesPlace (writes ss) w'
  kept : ∀ w ∈ writes ss, Plain w.1 →
    ∃ w' ∈ writes ss', w'.1 = w.1 ∧ accumulates w'.1 w'.2 = accumulates w.1 w.2

theorem Numbered.kept {K : Value → Prop} {D : String → Prop} (h : Numbered K b D ws n ss m) :
    ∀ w ∈ ws, Plain w.1 → ∃ w' ∈ writes ss, w'.1 = w.1 ∧ SameUse w.1 w.2 w'.2 := by
  induction h with
  | nil => exact forall_mem_nil _
  | temp _ _ _ ih =>
    intro w hw hplain
    obtain ⟨w', hw', hsame⟩ := ih w hw hplain
    exact ⟨w', mem_cons_of_mem _ hw', hsame⟩
  | print _ _ _ ih | expr _ _ _ ih => exact ih
  | assign hused _ _ _ ih =>
    refine forall_mem_cons.mpr ⟨fun hx => ⟨_, mem_cons_self, rfl, hused hx⟩, ?_⟩
    intro w hw hplain
    obtain ⟨w', hw', hsame⟩ := ih w hw hplain
    exact ⟨w', mem_cons_of_mem _ hw', hsame⟩

section

variable {D : String → Prop} {K : Value → Prop} {ss : List Stmt}

theorem atomizeStmts_shaped {P : String → Expr → Prop} (h : Scoped P K D ss) (n : Nat) :
    ∃ ss' m, (atomizeStmts ss).run n = .ok (ss', m) ∧ Shaped K ss ss' := by
  obtain ⟨ss', m, hrun, hss⟩ := atomizeStmts_spec h (Nat.le_refl n)
  refine ⟨ss', m, hrun, ?_, hss.numbered.normal, fun w' hw' => ?_, fun w hw hplain => ?_⟩
  · exact (hss.numbered.scope fun _ _ => trivial).mono fun _ _ => trivial
  · obtain ⟨k, -, htemp, -⟩ | ⟨w, hw, hname, hused⟩ := hss.numbered.derived w' hw'
    · exact .inl ⟨k, htemp⟩
    · exact .inr ⟨w, hw, hname, fun hplain => hname ▸ (hused hplain).accumulates_eq⟩
  · obtain ⟨w', hw', hname, hused⟩ := hss.numbered.kept w hw hplain
    exact ⟨w', hw', hname, hname ▸ hused.accumulates_eq⟩

end

/-! ## Programs -/

/-- The operands of a checked program can always be made atomic. The result has instructions exactly
if none of its assignments accumulates; otherwise the selection stops with a fault. If no name of
the program could be one of a temporary, it is enough to look at the program itself. -/
theorem select_returns_iff (ss : List Stmt) (note : Note)
    (hchecked : ∃ q, checkModule .vars (.module ss note) = .ok q) (h : Heap) (n : Nat) :
    ∃ ss' n', (Pass.run .frames h .atoms (.program (.module ss note))).run n =
        .ok (.program (.module ss' {}), n') ∧
      ((∀ w ∈ writes ss', accumulates w.1 w.2 = false) →
        ∃ is, (Pass.run .frames h .select (.program (.module ss' {}))).run n' =
          .ok (.assembly { code := .flat is }, n')) ∧
      ((∃ w ∈ writes ss', accumulates w.1 w.2 = true) →
        (Pass.run .frames h .select (.program (.module ss' {}))).run n' = .error .wrongKind) ∧
      ((∀ x ∈ programVars ss, Plain x) →
        ((∃ w ∈ writes ss', accumulates w.1 w.2 = true) ↔
          ∃ w ∈ writes ss, accumulates w.1 w.2 = true)) := by
  obtain ⟨q, hq⟩ := hchecked
  have hscoped := checkModule_scoped hq (P := fun _ _ => True) fun _ _ => trivial
  obtain ⟨ss', n', hatoms, hshaped⟩ := atomizeStmts_shaped hscoped n
  have houtcome := selectStmts_outcome hshaped.scope hshaped.normal h
  refine ⟨ss', n', run_atoms hatoms .frames h note, fun hnone => ?_, fun hsome => ?_,
    fun hplain => ⟨?_, ?_⟩⟩
  · obtain ⟨-, is, his⟩ | ⟨⟨w, hw, hacc⟩, -⟩ := houtcome
    · exact ⟨is, by rw [Pass.run, his]; rfl⟩
    · cases (hnone w hw).symm.trans hacc
  · obtain ⟨hnone, -⟩ | ⟨-, herror⟩ := houtcome
    · obtain ⟨w, hw, hacc⟩ := hsome
      cases (hnone w hw).symm.trans hacc
    · rw [Pass.run, herror]
      rfl
  · rintro ⟨w', hw', hacc⟩
    have hplain' : ∀ w ∈ writes ss, Plain w.1 := fun w hw => hplain w.1 (mem_map_of_mem hw)
    rcases hshaped.derived w' hw' with ⟨k, htemp⟩ | ⟨w, hw, hname, heq⟩
    · -- a temporary is never computed from itself, because no plain name is one
      obtain ⟨ss'', m, hatoms', hkeeps⟩ := atomizeStmts_keeps (fun _ _ hx => hx)
        (fun _ hc => hc) (checkModule_scoped hq (P := fun x _ => Plain x) hplain')
        (fun _ hx => hx.elim) (Nat.le_refl n)
      cases hatoms.symm.trans hatoms'
      obtain ⟨_, hx, -⟩ | ⟨-, hreuses⟩ := hkeeps.scope.writes w' hw'
      · exact absurd htemp (Plain.ne_temp hx k)
      · cases hreuses.symm.trans (reuses_of_accumulates hacc)
    · exact ⟨w, hw, (heq (hplain' w hw)).symm.trans hacc⟩
  · rintro ⟨w, hw, hacc⟩
    obtain ⟨w', hw', -, heq⟩ := hshaped.kept w hw (hplain w.1 (mem_map_of_mem hw))
    exact ⟨w', hw', heq.trans hacc⟩

/-- A program that counts. -/
theorem select_returns_iff_count :
    let ss : List Stmt := [
      .assign [.name "x" {}] (.const (.int 1 9) {}) {},
      .assign [.name "x" {}] (.arith (.name "x" {}) .add (.const (.int 1 9) {}) {}) {},
      .expr (.call (.name "print" {}) [.name "x" {}] {}) {}]
    (∃ q, checkModule .vars (.module ss {}) = .ok q) ∧
      ∃ ss' n', (Pass.run .frames #[] .atoms (.program (.module ss {}))).run 0 =
          .ok (.program (.module ss' {}), n') ∧
        (Pass.run .frames #[] .select (.program (.module ss' {}))).run n' = .error .wrongKind := by
  intro ss
  have hchecked : ∃ q, checkModule .vars (.module ss {}) = .ok q := ⟨_, rfl⟩
  have hplain : ∀ x ∈ programVars ss, Plain x := by decide
  have hcounts : ∃ w ∈ writes ss, accumulates w.1 w.2 = true :=
    ⟨_, List.mem_cons_of_mem _ List.mem_cons_self, rfl⟩
  obtain ⟨ss', n', hatoms, -, herror, hiff⟩ := select_returns_iff ss {} hchecked #[] 0
  exact ⟨hchecked, ss', n', hatoms, herror ((hiff hplain).mpr hcounts)⟩

end CompilerKit.Vars
