import CompilerKit.Proofs.X86.Straight

/-!
# The log

A machine that keeps a log writes to the console as it goes, and shows its state after every
instruction. Apart from that it does what a machine without a log does, as long as its state can be
shown: addresses are put in order for it, so they have to be numbers.
-/

namespace CompilerKit.X86

open Emulation Bindings Instr Machine EStateM Lockstep Assembly

/-! ## Machines with and without a log -/

/-- All addresses of the memory are numbers. -/
def Machine.Shown (m : Machine) : Prop := ∀ e ∈ m.memory, e.1.word?.isSome = true

variable {m : Machine}

theorem Machine.Shown.stateText_ok (h : m.Shown) : ∃ s, m.stateText = .ok s := by
  have hall : m.memory.all (fun r => r.1.word?.isSome) := List.all_eq_true.mpr h
  have hrows : ∃ rows, m.memoryRows = .ok rows := by
    by_cases hlength : m.memory.length ≤ 1
    · exact ⟨_, if_pos hlength⟩
    · exact ⟨_, (if_neg hlength).trans (if_pos hall)⟩
  obtain ⟨rows, hrows⟩ := hrows
  unfold stateText
  rw [hrows]
  exact ⟨_, rfl⟩

theorem run_logState_shown (h : m.logging → m.Shown) :
    ∃ s, logState.run m = .ok () { m with console := m.console.write s } := by
  by_cases hlogging : m.logging
  · obtain ⟨s, hs⟩ := (h hlogging).stateText_ok
    refine ⟨s, ?_⟩
    unfold logState
    rw [run_bind, run_get]
    simp only [hlogging, if_true, hs]
    rfl
  · refine ⟨"", ?_⟩
    rw [run_logState (Bool.eq_false_iff.mpr hlogging), Console.write, String.append_empty]

/-- The second machine is the first without its log, and with another output on the console. -/
inductive Hushed : Machine → Machine → Prop where
  | intro {m c} (input : c.input = m.console.input) (shown : m.logging → m.Shown) :
      Hushed m { m with console := c, logging := false }

namespace Hushed

variable {n : Machine}

theorem refl (hm : m.logging = false) : Hushed m m := by
  have hself : m = { m with console := m.console, logging := false } := by rw [← hm]
  have hshown : m.logging → m.Shown := fun h => by rw [hm] at h; cases h
  have hhushed := Hushed.intro rfl hshown
  rwa [← hself] at hhushed

variable (h : Hushed m n)
include h

theorem quiet : n.logging = false := by
  cases h
  rfl

theorem output : n.output = m.output := by
  cases h
  rfl

theorem input : n.console.input = m.console.input := by
  cases h with
  | intro input _ => exact input

theorem shown : m.logging → m.Shown := by
  cases h with
  | intro _ shown => exact shown

theorem register (r) : n.register r = m.register r := by
  cases h
  rfl

theorem vars : n.vars = m.vars := by
  cases h
  rfl

theorem memory : n.memory = m.memory := by
  cases h
  rfl

theorem write (s) : Hushed { m with console := m.console.write s } n := by
  cases h with
  | intro input shown => exact .intro input shown

theorem setRegister (r c) : Hushed (m.setRegister r c) (n.setRegister r c) := by
  cases h with
  | intro input shown => exact .intro input shown

theorem setVariable (x c) : Hushed (m.setVariable x c) (n.setVariable x c) := by
  cases h with
  | intro input shown => exact .intro input shown

theorem setCell (a c) : Hushed (m.setCell (.word a) c) (n.setCell (.word a) c) := by
  cases h with
  | intro input shown =>
    exact .intro input fun hlogging =>
      forall_put (shown hlogging) rfl

theorem touch (b) : Hushed (m.touch b) (n.touch b) := by
  cases h with
  | @intro c input shown =>
    unfold touch
    by_cases hb : has m.registers b.name
    · simp only [hb, if_true]
      exact .intro input shown
    · simp only [if_neg hb]
      exact .intro input shown

omit h in
theorem logs : Logs Hushed where
  silent_log := by
    intro s t
    refine Sim.modifyGet fun m n hmn => ?_
    dsimp only
    rw [hmn.quiet]
    split
    · exact hmn.write _
    · exact hmn
  silent_logState := by
    intro m n hmn
    rw [run_logState hmn.quiet]
    obtain ⟨s, hs⟩ := run_logState_shown hmn.shown
    rw [hs]
    exact .ok (hmn.write s)

end Hushed

/-! ## Operands -/

theorem lockstep_readNamed_hushed (r) : Lockstep Hushed (readNamed r) (readNamed r) :=
  modifyGet fun _ _ hmn => ⟨hmn.register r, hmn.touch { name := r }⟩

theorem sameOperand_hushed {a : Operand} (ha : a.isPlain) : SameOperand Hushed a.node a.node := by
  have hregister (r) : SameOperand Hushed (Operand.reg r).node (Operand.reg r).node :=
    sameOperand_register (lockstep_readNamed_hushed r) fun _ _ c hmn => hmn.setRegister r c
  cases a with
  | «variable» x =>
    exact sameOperand_variables (fun _ _ hmn => hmn.vars) fun _ _ c hmn => hmn.setVariable x c
  | immediate v => exact sameOperand_immediate v
  | reg r => exact hregister r
  | byteReg r => exact hregister r
  | deref r v =>
    exact sameOperand_deref (lockstep_readNamed_hushed r) (fun _ _ hmn => hmn.memory)
      fun _ _ a c hmn => hmn.setCell a c
  | other t => cases ha

/-! ## Code -/

theorem lockstep_readInt_hushed : Lockstep Hushed readInt readInt := by
  refine Hushed.logs.readInt (fun m n hmn => ?_) fun _ _ c hmn => hmn.setRegister "rax" c
  rw [Console.readInt_congr hmn.input]
  cases hmn with
  | intro _ shown => exact ⟨rfl, .intro rfl shown⟩

variable {is : List Instr} (his : is.all isStraight)
include his

theorem lockstep_hushed : Lockstep Hushed (mainRun is) (mainRun is) := by
  have hprint : Lockstep Hushed printInt printInt := by
    refine Hushed.logs.printInt (lockstep_readNamed_hushed "rdi") fun m n c hmn => ?_
    cases hmn with
    | intro input shown => exact .intro input shown
  have hcode := lockstep_replace Hushed.logs (f := id) (fun _ ha => ha) hprint
    lockstep_readInt_hushed his fun i hi a ha => ?_
  · rwa [map_replace_id] at hcode
  · have hi' := isPlain_of_isStraight (List.all_eq_true.mp his i hi)
    cases i with
    | op name args => exact sameOperand_hushed (List.all_eq_true.mp hi' a ha)
    | _ => cases ha

/-- A straight-line program ends in the same way with a log and without one, on machines that are
the same apart from it. -/
theorem runTerm_hushed (hm : m.logging → m.Shown) (k) :
    (runTerm (toTerm { code := .flat is, stackSpace := k })
          { m with logging := false }).1 =
        (runTerm (toTerm { code := .flat is, stackSpace := k }) m).1 ∧
      Hushed (runTerm (toTerm { code := .flat is, stackSpace := k }) m).2
        (runTerm (toTerm { code := .flat is, stackSpace := k }) { m with logging := false }).2 := by
  have hplain := all_isPlain_of_isStraight his
  have hstart : Hushed m.entered (entered { m with logging := false }) := .intro rfl hm
  exact lockstep_runTerm Hushed.logs hplain hplain (lockstep_hushed his) hstart k k

theorem quiet_mainRun (hm : m.logging = false)
    (h : (mainRun is).run m = .ok () m') : m'.logging = false := by
  obtain ⟨_, n, hrun, -, hend⟩ := (lockstep_hushed his).run_ok (Hushed.refl hm) h
  cases h.symm.trans hrun
  exact hend.quiet

/-- Without a log, a straight-line program runs to its end if its code does. -/
theorem runTerm_eq_ok_iff (hm : m.logging = false) (k) :
    runTerm (toTerm { code := .flat is, stackSpace := k }) m = (.ok (), m') ↔
      (mainRun is).run m.entered = .ok () m' := by
  have hplain := all_isPlain_of_isStraight his
  have hin : m.entered.logging = false := hm
  cases hrun : (mainRun is).run m.entered with
  | ok u n =>
    rw [runTerm_of_run hplain hm (quiet_mainRun his hin hrun) hrun k]
    constructor <;> intro h <;> cases h <;> rfl
  | error e n =>
    have hlogged : (logged (mainRun is)).run m.entered = .error e n := by
      simp only [logged, run_bind, run_log hin, hrun]
    simp only [runTerm, codeTree?_flat hplain, runTree, run_runProgram, hlogged]
    constructor <;> intro h <;> cases h

end CompilerKit.X86
