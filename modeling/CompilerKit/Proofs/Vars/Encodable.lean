import CompilerKit.Proofs.Vars.Finished
import CompilerKit.Proofs.Vars.Selectable

/-!
# Encodable programs

The pass that makes instructions encodable leaves no instruction with two operands in memory. It
looks at the size of the constants that go to memory, but from above only: a constant below the
range of thirty-two bits stays where it is.
-/

namespace CompilerKit

namespace X86

open List Instr

/-! ## Instructions -/

/-- The constant fits in a field of thirty-two bits with a sign. -/
def fitsField : Term → Bool
  | .int c => decide (-0x80000000 ≤ c) && decide (c ≤ 0x7FFFFFFF)
  | _ => false

/-- The instruction has at most one operand in memory, and a constant that goes there fits. -/
def Instr.isEncodable (i : Instr) : Bool :=
  decide (i.operands.countP Operand.isMemory ≤ 1) && i.stored.all fitsField

/-- Of the constants that went to memory in `is`, those that are not large still do in `js`, and no
instruction of `js` has two operands there. -/
structure Patched (is js : List Instr) : Prop where
  memory : ∀ j ∈ js, j.operands.countP Operand.isMemory ≤ 1
  stored : ∀ t, (∃ j ∈ js, j.stored = some t) ↔
    ∃ c, t = .int c ∧ c ≤ 0x10000 ∧ ∃ i ∈ is, i.stored = some t

section

variable {i : Instr} {is js : List Instr} {t : Term}

theorem Patched.append (h : Patched is js) (h' : Patched is' js') :
    Patched (is ++ is') (js ++ js') where
  memory := forall_mem_append.mpr ⟨h.memory, h'.memory⟩
  stored := by
    intro t
    simp only [mem_append, or_and_right, exists_or, h.stored, h'.stored, and_or_left]

theorem patched_self (hmemory : i.operands.countP Operand.isMemory ≤ 1)
    (hsmall : ∀ t, i.stored = some t → ∃ c, t = .int c ∧ c ≤ 0x10000) : Patched [i] [i] where
  memory := forall_mem_singleton.mpr hmemory
  stored := by
    intro t
    simp only [mem_singleton, exists_eq_left, ← and_assoc, exists_and_right]
    exact (and_iff_right_of_imp (hsmall t)).symm

theorem countP_isMemory_le (h : a.isMemory = false ∨ b.isMemory = false) :
    [a, b].countP Operand.isMemory ≤ 1 := by
  cases ha : a.isMemory <;> cases hb : b.isMemory <;> simp_all

theorem patched_through (name : String)
    (hlarge : ∀ t, (op name [a, b]).stored = some t → ∃ c, t = .int c ∧ 0x10000 < c) :
    Patched [.op name [a, b]] [.op "movq" [a, .reg "rax"], .op name [.reg "rax", b]] where
  memory := forall_mem_cons.mpr ⟨countP_isMemory_le (.inr rfl),
    forall_mem_singleton.mpr (countP_isMemory_le (.inl rfl))⟩
  stored := by
    have hfirst : (op "movq" [a, .reg "rax"]).stored = none := by cases a <;> rfl
    intro t
    constructor
    · rintro ⟨j, hj, ht⟩
      rcases mem_pair.mp hj with rfl | rfl
      · cases hfirst.symm.trans ht
      · cases ht
    · rintro ⟨c, rfl, hsmall, i, hi, ht⟩
      rw [mem_singleton.mp hi] at ht
      obtain ⟨_, hc, hc'⟩ := hlarge _ ht
      cases hc
      exact absurd hc' (Int.not_lt.mpr hsmall)

theorem patchInstr_patched (h : i.isOrdinary) (hjs : patchInstr i = .ok js) : Patched [i] js := by
  cases i with
  | op name as =>
    rcases as with _ | ⟨a, _ | ⟨b, _ | ⟨d, as⟩⟩⟩
    · cases h
    · have hpatch : patchInstr (.op name [a]) = .ok [.op name [a]] := by cases a <;> rfl
      cases hpatch.symm.trans hjs
      exact patched_self countP_le_length fun _ ht => by cases a <;> cases ht
    · have ha := (Bool.and_eq_true_iff.mp (Bool.and_eq_true_iff.mp h).2).1
      obtain ⟨hpatch, hmemory, hsmall⟩ | ⟨-, hpatch, hlarge⟩ := patchInstr_binary ha b name
      · cases hpatch.symm.trans hjs
        exact patched_self (countP_isMemory_le hmemory) hsmall
      · cases hpatch.symm.trans hjs
        exact patched_through name hlarge
    · cases h
  | _ =>
    cases hjs
    exact patched_self (Nat.zero_le 1) fun _ ht => by cases ht

theorem patchInstrs_patched (h : is.all isOrdinary) (hjs : patchInstrs is = .ok js) :
    Patched is js := by
  induction is generalizing js with
  | nil =>
    cases hjs
    exact ⟨forall_mem_nil _, fun t => by simp⟩
  | cons i is ih =>
    obtain ⟨hi, his⟩ := Bool.and_eq_true_iff.mp h
    obtain ⟨ks, hks, hjs⟩ := ok_of_bind hjs
    obtain ⟨ls, hls, hjs⟩ := ok_of_bind hjs
    cases hjs
    exact (patchInstr_patched hi hks).append (ih his hls)

/-- Exactly the constants that are too small are left. -/
theorem Patched.isEncodable_iff (h : Patched is js) :
    (∀ j ∈ js, j.isEncodable) ↔ ∀ i ∈ is, ∀ c, i.stored = some (.int c) → -0x80000000 ≤ c := by
  constructor
  · intro hjs i hi c hc
    by_cases hsmall : c ≤ 0x10000
    · obtain ⟨j, hj, hstored⟩ := (h.stored _).mpr ⟨c, rfl, hsmall, i, hi, hc⟩
      have hfits := (Bool.and_eq_true_iff.mp (hjs j hj)).2
      rw [hstored] at hfits
      exact of_decide_eq_true (Bool.and_eq_true_iff.mp hfits).1
    · omega
  · intro his j hj
    refine Bool.and_eq_true_iff.mpr ⟨decide_eq_true (h.memory j hj), ?_⟩
    cases ht : j.stored with
    | none => rfl
    | some t =>
      obtain ⟨c, rfl, hsmall, i, hi, hc⟩ := (h.stored t).mp ⟨j, hj, ht⟩
      have hc' := his i hi c hc
      exact Bool.and_eq_true_iff.mpr ⟨decide_eq_true hc', decide_eq_true (by omega)⟩

theorem Instr.immediate_mem_of_stored (h : (i.settle zs).stored = some t) :
    .immediate t ∈ i.operands := by
  cases i with
  | op name as =>
    have hmem : .immediate t ∈ as.map (Operand.settle zs) := by
      unfold stored at h
      split at h
      · next heq =>
        cases h
        rw [(op.inj heq).2]
        exact mem_cons_self
      · cases h
    obtain ⟨a, ha, hsettle⟩ := mem_map.mp hmem
    cases a <;> cases hsettle
    exact ha
  | _ => cases h

end

end X86

namespace Vars

open X86

/-! ## Programs -/

/-- A program of the language whose constants are words, on which the passes before return: the pass
that makes instructions encodable returns, no instruction has two operands in memory after it, and a
constant that goes to memory is one of the program, and at most `2 ^ 16`. All instructions are
encodable exactly if no constant that goes to memory was less than `-2 ^ 31` before the pass. -/
theorem patch_makes_encodable (ss : List Stmt) (note : Note)
    (hss : Scoped (fun _ _ => True) (fun _ => True) Anything ss)
    (hwords : ∀ c ∈ constants ss, IsWord c) (h : Heap) (n n' : Nat) (a : Artifact)
    (ha : ([Pass.atoms, .select, .homes].foldlM (fun a (pass : Pass) => pass.run .frames h a)
      (.program (.module ss note))).run n = .ok (a, n')) :
    ∃ is js space, a = .assembly { code := .flat is, stackSpace := space } ∧
      (Pass.run .frames h .patch a).run n' =
        .ok (.assembly { code := .flat js, stackSpace := space }, n') ∧
      (∀ j ∈ js, j.operands.countP Operand.isMemory ≤ 1) ∧
      (∀ j ∈ js, ∀ t, j.stored = some t →
        ∃ c id, t = .int c ∧ c ≤ 0x10000 ∧ .int c id ∈ constants ss) ∧
      ((∀ j ∈ js, j.isEncodable = true) ↔
        ∀ i ∈ is, ∀ c, i.stored = some (.int c) → -0x80000000 ≤ c) := by
  have hconsts := hss.consts fun c hc => And.intro (hwords c hc) hc
  obtain ⟨ss', m, hatoms, hshaped⟩ := atomizeStmts_shaped hconsts n
  simp only [List.foldlM_cons, List.foldlM_nil] at ha
  rw [run_bind_ok (run_atoms hatoms .frames h note)] at ha
  obtain ⟨a₁, n₁, hselect, ha₁⟩ := bind_ok ha
  obtain ⟨is, his, rfl⟩ := select_ok hselect
  rw [run_bind_ok (homes_run h is n₁)] at ha₁
  cases ha₁
  obtain ⟨hselected, -⟩ := selectStmts_spec (fun _ hc => hc.1) hshaped.scope hshaped.normal his
  obtain ⟨zs, hhomes, -⟩ := homeInstrs_layout (all_isPlain_of_isPseudo hselected.pseudo)
  rw [hhomes]
  have htidy := isTidy_settle hselected.tidy zs
  obtain ⟨js, hjs, -⟩ := patchInstrs_follows htidy
  have hpatched := patchInstrs_patched (all_isOrdinary_of_isTidy htidy) hjs
  refine ⟨_, js, _, rfl, ?_, hpatched.memory, fun j hj t ht => ?_, hpatched.isEncodable_iff⟩
  · rw [Pass.run, Artifact.onAssembly, patch_flat hjs]
    rfl
  · obtain ⟨c, rfl, hsmall, i, hi, hc⟩ := (hpatched.stored t).mp ⟨j, hj, ht⟩
    obtain ⟨k, hk, rfl⟩ := List.mem_map.mp hi
    have hmem := List.mem_flatMap_of_mem hk (Instr.immediate_mem_of_stored hc)
    obtain ⟨d, id, hd, -, hmem⟩ := hselected.consts _ hmem
    cases hd
    exact ⟨c, id, rfl, hsmall, hmem⟩

/-- The least constant that fits stays where it is, and the other operand goes through the scratch
register. -/
theorem patch_makes_encodable_least :
    let ss : List Stmt := [.assign [.name "y" {}]
      (.arith (.name "x" {}) .add (.const (.int (-0x80000000) 2) {}) {}) {}]
    let p : Assembly :=
      { code := .flat [.op "movq" [.immediate (.int (-0x80000000)), .deref "rbp" (.int (-8))],
          .op "addq" [.deref "rbp" (.int (-16)), .deref "rbp" (.int (-8))]]
        stackSpace := some 16 }
    Scoped (fun _ _ => True) (fun _ => True) Anything ss ∧ (∀ c ∈ constants ss, IsWord c) ∧
      ([Pass.atoms, .select, .homes].foldlM (fun a (pass : Pass) => pass.run .frames #[] a)
        (.program (.module ss {}))).run 0 = .ok (.assembly p, 0) ∧
      ∃ js, (Pass.run .frames #[] .patch (.assembly p)).run 0 =
          .ok (.assembly { p with code := .flat js }, 0) ∧
        js.length = 3 ∧ ∀ j ∈ js, j.isEncodable = true := by
  intro ss p
  have hss : Scoped (fun _ _ => True) (fun _ => True) Anything ss :=
    .assign {} {} trivial (.arith {} rfl (.name {} trivial) (.const {} trivial)) .nil
  have hwords : ∀ c ∈ constants ss, IsWord c := fun c hc =>
    ⟨_, _, List.mem_singleton.mp hc, rfl⟩
  have hrun : ([Pass.atoms, .select, .homes].foldlM
      (fun a (pass : Pass) => pass.run .frames #[] a) (.program (.module ss {}))).run 0 =
        .ok (.assembly p, 0) := rfl
  obtain ⟨is, js, space, hp, hpatch, -, -, hiff⟩ :=
    patch_makes_encodable ss {} hss hwords #[] 0 0 _ hrun
  obtain ⟨hcode, rfl⟩ := Assembly.mk.inj (Artifact.assembly.inj hp)
  obtain rfl := Code.flat.inj hcode
  refine ⟨hss, hwords, hrun, js, hpatch, ?_, hiff.mpr fun i hi c hc => ?_⟩
  · cases hpatch
    rfl
  · rcases List.mem_pair.mp hi with rfl | rfl
    · cases hc
      decide
    · cases hc

/-- The greatest constant that is too small stays as well. -/
theorem patch_keeps_small :
    let c : Value := .int (-0x80000001) 2
    let i : Instr := .op "movq" [.immediate (.int (-0x80000001)), .deref "rbp" (.int (-8))]
    IsWord c ∧
      (compile #[] (.module [.assign [.name "x" {}] (.const c {}) {}] {})).run 0 =
        .ok (.assembly { code := .flat [i], stackSpace := some 16 }, 0) ∧
      i.isEncodable = false :=
  ⟨⟨_, _, rfl, rfl⟩, rfl, rfl⟩

end Vars

end CompilerKit
