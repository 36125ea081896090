import Mathlib.Data.List.Forall2
import CompilerKit.X86.Emulator
import CompilerKit.Proofs.Simulation

/-!
# Straight-line code

Code without jumps is run instruction by instruction. Two machines that run such code side by side
stay related as long as the operands of every instruction are read and written alike.
-/

namespace CompilerKit

open List Bindings Bool Lockstep X86.Instr X86.Machine

deriving instance ReflBEq, LawfulBEq for Text.Double
deriving instance ReflBEq, LawfulBEq for Literal
deriving instance ReflBEq, LawfulBEq for X86.Cell

variable {x : String} {a : Cell}

namespace X86

variable {as : List Operand} {is : List Instr}

/-! ## Tables -/

namespace Machine

theorem register_setRegister (m : Machine) (r s c) :
    (m.setRegister r c).register s = if s = r then c else m.register s := by
  simp only [register, setRegister, get?_put, beq_iff_eq]
  split <;> rfl

theorem variableCell_setVariable (m : Machine) (x y c) :
    (m.setVariable x c).variableCell y = if y = x then c else m.variableCell y := by
  simp only [variableCell, setVariable, get?_put, beq_iff_eq]
  split <;> rfl

theorem cellAt_setCell (m : Machine) (a b c) :
    (m.setCell a c).cellAt b = if b = a then c else m.cellAt b := by
  simp only [cellAt, setCell, get?_put, beq_iff_eq]
  split <;> rfl

/-- An empty entry for a variable that is not in the table changes no contents. -/
theorem variableCell_setVariable_empty {m : Machine} (h : has m.vars x = false) (y : String) :
    (m.setVariable x .empty).variableCell y = m.variableCell y := by
  rw [variableCell_setVariable]
  split
  · next hxy =>
    subst hxy
    simp only [has, Option.isSome_eq_false_iff, Option.isNone_iff_eq_none] at h
    simp [variableCell, h]
  · rfl

/-- An empty entry for an address that is not in the table changes no contents. -/
theorem cellAt_setCell_empty {m : Machine} (h : has m.memory a = false) (b : Cell) :
    (m.setCell a .empty).cellAt b = m.cellAt b := by
  rw [cellAt_setCell]
  split
  · next hab =>
    subst hab
    simp only [has, Option.isSome_eq_false_iff, Option.isNone_iff_eq_none] at h
    simp [cellAt, h]
  · rfl

theorem register_touch (m : Machine) (b r) : (m.touch b).register r = m.register r := by
  unfold touch
  split
  · rfl
  · next h =>
    simp only [has, not_eq_true, Option.isSome_eq_false_iff, Option.isNone_iff_eq_none] at h
    simp only [register, get?_put, beq_iff_eq]
    split
    · next hr =>
      subst hr
      simp [h]
    · rfl

theorem get?_touch {m : Machine} {b : Base} {r} (hr : r ≠ b.name) :
    get? (m.touch b).registers r = get? m.registers r := by
  unfold touch
  split
  · rfl
  · rw [get?_put, if_neg (by simpa using hr)]

theorem touch_eq (m : Machine) (b : Base) :
    ∃ registers tokens, m.touch b = { m with registers, tokens } := by
  unfold touch
  split
  · exact ⟨_, _, rfl⟩
  · exact ⟨_, _, rfl⟩

end Machine

/-! ## Trees -/

/-- The operand is one that the machine knows. -/
def Operand.isPlain : Operand → Bool
  | .other _ => false
  | _ => true

/-- The instruction is an operation or a call, with operands that the machine knows. -/
def Instr.isPlain : Instr → Bool
  | .op _ args => args.all Operand.isPlain
  | .call _ _ => true
  | _ => false

/-- The tree of an operand that has one. -/
def Operand.node (a : Operand) : ParseTree := a.tree.toOption.getD (.leaf .null)

/-- The tree of an instruction that has one. -/
def Instr.node (i : Instr) : ParseTree := i.tree.toOption.getD (.leaf .null)

theorem Operand.tree_eq {a : Operand} (h : a.isPlain) : a.tree = .ok a.node := by
  cases a with
  | other t => cases h
  | _ => rfl

theorem Operand.trees_eq (h : as.all Operand.isPlain) :
    Operand.trees as = .ok (as.map Operand.node) := by
  induction as with
  | nil => rfl
  | cons a as ih =>
    simp only [all_cons, and_eq_true] at h
    rw [Operand.trees, Operand.tree_eq h.1, ih h.2]
    rfl

theorem Instr.node_op (h : as.all Operand.isPlain) :
    (Instr.op name as).node = .bare name (as.map Operand.node) := by
  simp only [node, tree, Operand.trees_eq h]
  rfl

variable {i : Instr} {f : Operand → Operand}

theorem Instr.tree_eq (h : i.isPlain) : i.tree = .ok i.node := by
  cases i with
  | op name as =>
    rw [node_op h, tree, Operand.trees_eq h]
    rfl
  | call l n => rfl
  | _ => cases h

theorem Instr.trees_eq (h : is.all isPlain) : trees is = .ok (is.map node) := by
  induction is with
  | nil => rfl
  | cons i is ih =>
    simp only [all_cons, and_eq_true] at h
    rw [trees, tree_eq h.1, ih h.2]
    rfl

theorem Operand.ofTerm_toTerm {a} (h : a.isPlain) : ofTerm a.toTerm = a := by
  cases a with
  | other t => cases h
  | _ => rfl

theorem Operand.map_ofTerm_toTerm (h : as.all Operand.isPlain) :
    (as.map toTerm).map ofTerm = as := by
  rw [map_map]
  exact (map_congr_left fun a ha => ofTerm_toTerm (all_eq_true.mp h a ha)).trans (map_id as)

theorem Instr.ofTerm_toTerm (h : i.isPlain) : ofTerm i.toTerm = i := by
  cases i with
  | op name as => exact congrArg (Instr.op name) (Operand.map_ofTerm_toTerm h)
  | call l n => rfl
  | _ => cases h

theorem Instr.map_ofTerm_toTerm (h : is.all isPlain) : (is.map toTerm).map ofTerm = is := by
  rw [map_map]
  exact (map_congr_left fun i hi => ofTerm_toTerm (all_eq_true.mp h i hi)).trans (map_id is)

/-- The tree of a program that is one block. -/
def mainTree (is : List Instr) : ParseTree :=
  .bare "prog" [.bare "block" (nameLeaf "main" :: is.map node)]

theorem codeTree?_eq (h : (is.map toTerm).map ofTerm = is) (n) :
    codeTree? (Assembly.toTerm { code := .flat is, stackSpace := n }) = (do
      .ok (some (.bare "prog" [.bare "block" (nameLeaf "main" :: (← trees is))]))) := by
  change (do .ok (some (ParseTree.bare "prog" [← blockTree (nameLeaf "main")
    ((is.map toTerm).map ofTerm)]))) = _
  rw [h, blockTree, bind_assoc]
  rfl

theorem codeTree?_flat (h : is.all isPlain) (n) :
    codeTree? (Assembly.toTerm { code := .flat is, stackSpace := n }) =
      .ok (some (mainTree is)) := by
  rw [codeTree?_eq (map_ofTerm_toTerm h), trees_eq h]
  rfl

/-! ## Instructions on two machines -/

open Emulation

section

variable {R : Machine → Machine → Prop}
variable {ts us : List ParseTree} {blocks blocks' : Blocks}
  {enter enter' : List ParseTree → Emulation Unit}

/-- The two operands are read alike and written alike. -/
structure SameOperand (R : Machine → Machine → Prop) (t u : ParseTree) : Prop where
  read : Lockstep R (readOperand t) (readOperand u)
  write : ∀ c, Lockstep R (writeOperand t c) (writeOperand u c)

theorem lockstep_eval (v : Immediate) : Lockstep R v.eval v.eval := by
  unfold Immediate.eval
  split
  · exact .pure _
  · exact .throw _

theorem lockstep_wordOf (c) : Lockstep R (wordOf c) (wordOf c) := by
  unfold wordOf
  split
  · exact .pure _
  · exact .throw _

variable {op : Opcode}

section

variable (h : Forall₂ (SameOperand R) ts us)
include h

theorem sim_firstOf :
    Sim R (firstOf ts) (firstOf us) (fun t u m n => SameOperand R t u ∧ R m n) (fun _ => R) := by
  cases h with
  | nil => exact Sim.throw fun _ _ h => h
  | cons htu _ => exact Sim.pure fun _ _ h => ⟨htu, h⟩

theorem sim_pairOf :
    Sim R (pairOf ts) (pairOf us)
      (fun p q m n => (SameOperand R p.1 q.1 ∧ SameOperand R p.2 q.2) ∧ R m n) (fun _ => R) := by
  match h with
  | .nil => exact Sim.throw fun _ _ h => h
  | .cons _ .nil => exact Sim.throw fun _ _ h => h
  | .cons h1 (.cons h2 .nil) => exact Sim.pure fun _ _ h => ⟨⟨h1, h2⟩, h⟩
  | .cons _ (.cons _ (.cons _ _)) => exact Sim.throw fun _ _ h => h

theorem lockstep_combine (f : Int → Int → Int) :
    Lockstep R (combine f ts) (combine f us) := by
  refine Sim.bind (sim_pairOf h) fun p q m n hpq => ?_
  obtain ⟨⟨h1, h2⟩, hmn⟩ := hpq
  refine bind h1.read (fun x => ?_) m n hmn
  refine bind h2.read fun y => ?_
  refine bind (lockstep_wordOf x) fun i => ?_
  exact bind (lockstep_wordOf y) fun j => h2.write _

/-- The operations that only read and write their operands. -/
def Opcode.isArithmetic : Opcode → Bool
  | .move | .add | .sub | .neg => true
  | _ => false

/-- An operation whose operands are read and written alike keeps two machines in step. -/
theorem lockstep_step (hop : op.isArithmetic) :
    Lockstep R (step blocks enter op ts) (step blocks' enter' op us) := by
  cases op with
  | move =>
    refine Sim.bind (sim_pairOf h) fun p q m n hpq => ?_
    obtain ⟨⟨h1, h2⟩, hmn⟩ := hpq
    refine bind h1.read (fun c => ?_) m n hmn
    exact bind (h2.write c) fun _ => .pure _
  | add | sub => exact bind (lockstep_combine h _) fun _ => .pure _
  | neg =>
    refine Sim.bind (sim_firstOf h) fun t u m n htu => ?_
    obtain ⟨h1, hmn⟩ := htu
    refine bind h1.read (fun c => ?_) m n hmn
    refine bind (lockstep_wordOf c) fun i => ?_
    exact bind (h1.write _) fun _ => .pure _
  | _ => cases hop

end

theorem lockstep_checkAddress (a) : Lockstep R (checkAddress a) (checkAddress a) := by
  unfold checkAddress
  split
  · exact .throw _
  · exact .pure _

theorem lockstep_readCell (hmemory : ∀ m n, R m n → n.memory = m.memory)
    (hset : ∀ m n c, R m n → R (m.setCell a c) (n.setCell a c)) :
    Lockstep R (readCell a) (readCell a) := by
  refine bind (lockstep_checkAddress a) fun _ => modifyGet fun m n hmn => ?_
  rw [cellAt, hmemory m n hmn]
  refine ⟨rfl, ?_⟩
  split
  · exact hmn
  · exact hset m n .empty hmn

theorem lockstep_writeCell (hset : ∀ m n, R m n → R (m.setCell a c) (n.setCell a c)) :
    Lockstep R (writeCell a c) (writeCell a c) :=
  bind (lockstep_checkAddress a) fun _ => modify hset

/-- An address is always a number. -/
theorem lockstep_addressOf {b c} (hread : Lockstep R (readRegister b) (readRegister c))
    (hv : v'.value = v.value) {f : Cell → Emulation α}
    (hf : ∀ a, Lockstep R (f (.word a)) (f (.word a))) :
    Lockstep R (addressOf v b >>= f) (addressOf v' c >>= f) := by
  have heval : v'.eval = v.eval := by rw [Immediate.eval, hv, Immediate.eval]
  simp only [addressOf, heval, bind_assoc, pure_bind]
  refine bind hread fun start => ?_
  refine bind (lockstep_eval v) fun k => ?_
  exact bind (lockstep_wordOf start) fun a => hf _

theorem sameOperand_register (hread : Lockstep R (readNamed r) (readNamed r))
    (hset : ∀ m n c, R m n → R (m.setRegister r c) (n.setRegister r c)) :
    SameOperand R (Operand.reg r).node (Operand.reg r).node :=
  ⟨hread, fun c => modify fun m n => hset m n c⟩

theorem sameOperand_deref (hread : Lockstep R (readNamed r) (readNamed r))
    (hmemory : ∀ m n, R m n → n.memory = m.memory)
    (hset : ∀ m n a c, R m n → R (m.setCell (.word a) c) (n.setCell (.word a) c)) :
    SameOperand R (Operand.deref r v).node (Operand.deref r v).node := by
  refine ⟨lockstep_addressOf hread rfl fun a => ?_, fun c =>
    lockstep_addressOf hread rfl fun a => ?_⟩
  · exact lockstep_readCell hmemory fun m n => hset m n a
  · exact lockstep_writeCell fun m n => hset m n a c

theorem sameOperand_variables (hvars : ∀ m n, R m n → n.vars = m.vars)
    (hset : ∀ m n c, R m n → R (m.setVariable x c) (n.setVariable x c)) :
    SameOperand R (Operand.variable x).node (Operand.variable x).node := by
  refine ⟨modifyGet fun m n hmn => ?_, fun c => modify fun m n => hset m n c⟩
  rw [variableCell, hvars m n hmn]
  refine ⟨rfl, ?_⟩
  split
  · exact hmn
  · exact hset m n .empty hmn

theorem sameOperand_immediate (v) :
    SameOperand R (Operand.immediate v).node (Operand.immediate v).node := by
  constructor
  · exact bind (lockstep_eval (.number v)) fun i => .pure (Cell.word i)
  · intro c
    exact .throw _

/-! ## Code on two machines -/

theorem run_log (h : m.logging = false) (s) : (log s).run m = .ok () m := by
  change EStateM.Result.ok () (if m.logging then _ else m) = _
  rw [h]
  rfl

theorem run_logState (h : m.logging = false) : logState.run m = .ok () m := by
  change (if m.logging = true then _ else pure () : Emulation Unit).run m = _
  rw [h]
  rfl

/-- Neither of two related machines keeps a log. -/
def Quiet (R : Machine → Machine → Prop) : Prop :=
  ∀ m n, R m n → m.logging = false ∧ n.logging = false

/-- Writing to their logs never stops two machines, and what they write does not matter. -/
structure Logs (R : Machine → Machine → Prop) : Prop where
  silent_log : ∀ s t, Sim R (log s) (log t) (fun _ _ => R) (fun _ _ _ => False)
  silent_logState : Sim R logState logState (fun _ _ => R) (fun _ _ _ => False)

theorem Quiet.logs (hR : Quiet R) : Logs R where
  silent_log := by
    intro s t m n hmn
    rw [run_log (hR m n hmn).1, run_log (hR m n hmn).2]
    exact .ok hmn
  silent_logState := by
    intro m n hmn
    rw [run_logState (hR m n hmn).1, run_logState (hR m n hmn).2]
    exact .ok hmn

theorem Logs.log (hR : Logs R) (s t) : Lockstep R (log s) (log t) :=
  (hR.silent_log s t).of_no_error.mono (fun _ _ h => h) (fun _ _ _ _ h => ⟨rfl, h⟩) fun _ _ _ h => h

theorem Logs.logState (hR : Logs R) : Lockstep R logState logState :=
  hR.silent_logState.of_no_error.mono (fun _ _ h => h) (fun _ _ _ _ h => ⟨rfl, h⟩) fun _ _ _ h => h

theorem Logs.printInt (hR : Logs R)
    (hrdi : Lockstep R (readNamed "rdi") (readNamed "rdi"))
    (houtput : ∀ m n c, R m n →
      R { m with output := m.output ++ [c] } { n with output := n.output ++ [c] }) :
    Lockstep R printInt printInt := by
  refine bind hrdi fun c => ?_
  refine bind (hR.log _ _) fun _ => ?_
  exact bind (modify fun m n hmn => houtput m n c hmn) fun _ => hR.logState

section

variable (hconsole : ∀ m n, R m n → n.console.readInt.1 = m.console.readInt.1 ∧
  R { m with console := m.console.readInt.2 } { n with console := n.console.readInt.2 })
include hconsole

/-- Reading a number fills its register on both machines, which may relate them more closely. -/
theorem sim_readInt {R' : Machine → Machine → Prop} (hR' : Logs R')
    (hrax : ∀ m n c, R m n → R' (m.setRegister "rax" c) (n.setRegister "rax" c)) :
    Sim R readInt readInt (fun _ _ => R') (fun _ => R) := by
  refine Sim.bind (Q := fun r r' m n => r' = r ∧ R m n) (Sim.modifyGet hconsole) ?_
  intro r r' m n hmn
  obtain ⟨rfl, hmn⟩ := hmn
  cases r' with
  | error f => exact .error hmn
  | ok i =>
    refine Sim.bind (Q := fun _ _ => R')
      (Sim.modifyGet fun m n hmn => hrax m n (.word i) hmn) (fun _ _ => ?_) m n hmn
    exact Sim.bind (hR'.silent_log _ _).of_no_error fun _ _ => hR'.silent_logState.of_no_error

theorem Logs.readInt (hR : Logs R)
    (hrax : ∀ m n c, R m n → R (m.setRegister "rax" c) (n.setRegister "rax" c)) :
    Lockstep R readInt readInt :=
  (sim_readInt hconsole hR hrax).mono (fun _ _ h => h) (fun _ _ _ _ h => ⟨rfl, h⟩) fun _ _ _ h => h

end

/-- Two trees of one instruction that keep two machines in step. -/
def SameStep (R : Machine → Machine → Prop) (blocks blocks' : Blocks)
    (enter enter' : List ParseTree → Emulation Unit) (t u : ParseTree) : Prop :=
  ∃ name ts us, t = .bare name ts ∧ u = .bare name us ∧
    Lockstep R (step blocks enter (.ofName name) ts)
      (step blocks' enter' (.ofName name) us)

theorem lockstep_runWith (hR : Logs R)
    (h : List.Forall₂ (SameStep R blocks blocks' enter enter') ts us) :
    Lockstep R (runWith blocks enter ts) (runWith blocks' enter' us) := by
  induction h with
  | nil => exact .pure _
  | cons htu _ ih =>
    obtain ⟨name, as, bs, rfl, rfl, hstep⟩ := htu
    refine bind (hR.log _ _) fun _ => ?_
    refine bind hstep fun flow => ?_
    cases flow with
    | leave => exact .pure _
    | next => exact bind hR.logState fun _ => ih

/-! ## Code that always goes on -/

/-- The operands of an instruction. -/
def Instr.operands : Instr → List Operand
  | .op _ args => args
  | _ => []

/-- The instruction is arithmetic on operands that the machine knows, or a call that prints or
reads a number. -/
def Instr.isStraight : Instr → Bool
  | .op name args => (Opcode.ofName name).isArithmetic && args.all Operand.isPlain
  | .call l _ => l == "print_int" || l == "read_int"
  | _ => false

theorem Instr.isPlain_of_isStraight (h : i.isStraight) : i.isPlain := by
  cases i with
  | op name args => exact (and_eq_true_iff.mp h).2
  | call l n => rfl
  | _ => cases h

theorem all_isPlain_of_isStraight (h : is.all isStraight) :
    is.all isPlain :=
  all_eq_true.mpr fun i hi => isPlain_of_isStraight (all_eq_true.mp h i hi)

/-- Arithmetic does not look at the blocks of the program and goes on with the next instruction. -/
theorem step_arithmetic (hop : op.isArithmetic) (args) :
    ∃ x : Emulation Unit, ∀ blocks enter,
      step blocks enter op args = x >>= fun _ => pure .next := by
  cases op with
  | move =>
    refine ⟨pairOf args >>= fun p => readOperand p.1 >>= fun c => writeOperand p.2 c, fun _ _ => ?_⟩
    simp only [bind_assoc]
    rfl
  | add => exact ⟨combine Word.add args, fun _ _ => rfl⟩
  | sub => exact ⟨combine (fun x y => Word.sub y x) args, fun _ _ => rfl⟩
  | neg =>
    refine ⟨firstOf args >>= fun a => readOperand a >>= fun c => wordOf c >>= fun i =>
      writeOperand a (.word (Word.neg i)), fun _ _ => ?_⟩
    simp only [bind_assoc]
    rfl
  | _ => cases hop

theorem step_straight (hi : i.isStraight) :
    ∃ name args, i.node = .bare name args ∧ ∃ x : Emulation Unit, ∀ blocks enter,
      step blocks enter (.ofName name) args = x >>= fun _ => pure .next := by
  cases i with
  | op name args =>
    simp only [isStraight, and_eq_true] at hi
    exact ⟨name, _, node_op hi.2, step_arithmetic hi.1 _⟩
  | call l n =>
    simp only [isStraight, or_eq_true, beq_iff_eq] at hi
    refine ⟨"callq", [nameLeaf l], rfl, ?_⟩
    rcases hi with rfl | rfl
    · exact ⟨printInt, fun _ _ => rfl⟩
    · exact ⟨readInt, fun _ _ => rfl⟩
  | _ => cases hi

/-- What straight-line code does, by itself. -/
def straightRun (is : List Instr) : Emulation Unit :=
  runWith [] (fun _ => pure ()) (is.map node)

/-- Straight-line code does the same in every program, and what follows it is run after it. -/
theorem runWith_straight (his : is.all isStraight) (blocks)
    (enter : List ParseTree → Emulation Unit) (rest) :
    runWith blocks enter (is.map node ++ rest) =
      straightRun is >>= fun _ => runWith blocks enter rest := by
  induction is with
  | nil => rfl
  | cons i is ih =>
    simp only [all_cons, and_eq_true] at his
    obtain ⟨name, args, hnode, x, hstep⟩ := step_straight his.1
    -- a step that goes on is followed by the log and by the rest, whatever the program
    have hcons : ∀ blocks enter ts,
        runWith blocks enter (.bare name args :: ts) =
          log ("Evaluating instruction: " ++ (ParseTree.bare name args).pretty) >>= fun _ =>
            x >>= fun _ => logState >>= fun _ => runWith blocks enter ts := by
      intro blocks enter ts
      change (log _ >>= fun _ => step blocks enter (.ofName name) args >>= _) = _
      rw [hstep]
      simp only [bind_assoc, pure_bind]
      rfl
    have hself : straightRun (i :: is) =
        log ("Evaluating instruction: " ++ (ParseTree.bare name args).pretty) >>= fun _ =>
          x >>= fun _ => logState >>= fun _ => straightRun is := by
      rw [straightRun, map_cons, hnode, hcons, straightRun]
    rw [map_cons, cons_append, hnode, hcons, ih his.2, hself]
    simp only [bind_assoc]

theorem straightRun_append (his : is.all isStraight) :
    straightRun (is ++ js) = straightRun is >>= fun _ => straightRun js := by
  rw [straightRun, map_append, runWith_straight his]
  rfl

theorem Logs.logged (hR : Logs R) {x y : Emulation Unit} (h : Lockstep R x y) :
    Lockstep R (logged x) (logged y) := by
  refine bind (hR.log _ _) fun _ => ?_
  refine bind h fun _ => ?_
  refine bind (hR.log _ _) fun _ => ?_
  refine bind hR.logState fun _ => ?_
  refine Sim.bind (fun m n hmn => .ok hmn) fun m n => ?_
  exact bind (hR.log _ _) fun _ => hR.log _ _

/-! ## Programs -/

/-- The machine at the entry of a program that is one block. -/
def Machine.entered (m : Machine) : Machine :=
  { m with output := [], globals := put m.globals "main" (.code "main") }

/-- The code of a program that is one block, in a run. -/
def mainRun (is : List Instr) : Emulation Unit :=
  run [("main", is.map node)] maxDepth (is.map node)

theorem mainRun_eq (is) : ∃ blocks enter,
    mainRun is = runWith blocks enter (is.map node) :=
  have hdepth : maxDepth = (maxDepth - 1) + 1 := rfl
  ⟨_, _, by rw [mainRun, hdepth, run]⟩

theorem mainRun_straight (his : is.all isStraight) : mainRun is = straightRun is := by
  obtain ⟨blocks, enter, hrun⟩ := mainRun_eq is
  have happend := runWith_straight his blocks enter []
  rw [append_nil] at happend
  rw [hrun, happend]
  exact bind_pure_unit

/-- The instruction with other operands in the place of its own. -/
def Instr.replace (f : Operand → Operand) : Instr → Instr
  | .op name args => .op name (args.map f)
  | i => i

theorem map_replace_id (is : List Instr) : is.map (replace id) = is := by
  have hid : Instr.replace id = id := funext fun i => by cases i <;> simp [Instr.replace]
  rw [hid, map_id]

/-- A straight instruction, and the same with operands that are read and written alike. -/
theorem sameStep_replace (hf : ∀ a : Operand, a.isPlain → (f a).isPlain)
    (hprint : Lockstep R printInt printInt) (hread : Lockstep R readInt readInt)
    (hi : i.isStraight) (hsame : ∀ a ∈ i.operands, SameOperand R a.node (f a).node) :
    SameStep R blocks blocks' enter enter' i.node (i.replace f).node := by
  cases i with
  | op name args =>
    simp only [isStraight, and_eq_true] at hi
    have hplain : (args.map f).all Operand.isPlain := by
      rw [all_map, all_eq_true]
      exact fun a ha => hf a (all_eq_true.mp hi.2 a ha)
    refine ⟨name, _, _, node_op hi.2, node_op hplain, lockstep_step ?_ hi.1⟩
    rwa [map_map, forall₂_map_left_iff, forall₂_map_right_iff, forall₂_same]
  | call l k =>
    refine ⟨"callq", _, _, rfl, rfl, ?_⟩
    simp only [isStraight, or_eq_true, beq_iff_eq] at hi
    rcases hi with rfl | rfl
    · exact bind (x := printInt) hprint fun _ => .pure _
    · exact bind (x := readInt) hread fun _ => .pure _
  | _ => cases hi

/-- Straight-line code, and the same with operands that are read and written alike, keep two
machines in step. -/
theorem lockstep_replace (hR : Logs R)
    (hf : ∀ a : Operand, a.isPlain → (f a).isPlain)
    (hprint : Lockstep R printInt printInt) (hread : Lockstep R readInt readInt)
    (his : is.all isStraight)
    (hsame : ∀ i ∈ is, ∀ a ∈ i.operands, SameOperand R a.node (f a).node) :
    Lockstep R (mainRun is) (mainRun (is.map (replace f))) := by
  obtain ⟨blocks, enter, hrun⟩ := mainRun_eq is
  obtain ⟨blocks', enter', hrun'⟩ := mainRun_eq (is.map (replace f))
  refine lockstep_runWith hR ?_
  rw [map_map, forall₂_map_left_iff, forall₂_map_right_iff, forall₂_same]
  exact fun i hi => sameStep_replace hf hprint hread (all_eq_true.mp his i hi) (hsame i hi)

theorem run_runProgram (is m) :
    (Machine.runProgram (mainTree is)).run m = (logged (mainRun is)).run m.entered := rfl

/-- Two programs whose code keeps two machines in step end with the same result. -/
theorem lockstep_runTerm (hR : Logs R) (his : is.all isPlain) (hjs : js.all isPlain)
    (h : Lockstep R (mainRun is) (mainRun js)) {n} (hmn : R m.entered n.entered) (k l) :
    (runTerm (Assembly.toTerm { code := .flat js, stackSpace := l }) n).1 =
        (runTerm (Assembly.toTerm { code := .flat is, stackSpace := k }) m).1 ∧
      R (runTerm (Assembly.toTerm { code := .flat is, stackSpace := k }) m).2
        (runTerm (Assembly.toTerm { code := .flat js, stackSpace := l }) n).2 := by
  simp only [runTerm, codeTree?_flat his, codeTree?_flat hjs, runTree, run_runProgram]
  have hend := hR.logged h _ _ hmn
  generalize (logged (mainRun is)).run m.entered = r at hend
  generalize (logged (mainRun js)).run n.entered = r' at hend
  cases hend with
  | ok h => exact ⟨rfl, h.2⟩
  | error h => exact ⟨rfl, h⟩

end

theorem runTerm_of_run (his : is.all isPlain) (hm : m.logging = false)
    (hm' : m'.logging = false) (h : (mainRun is).run m.entered = .ok () m') (k) :
    runTerm (Assembly.toTerm { code := .flat is, stackSpace := k }) m = (.ok (), m') := by
  have hlogged : (logged (mainRun is)).run m.entered = .ok () m' := by
    have hin : m.entered.logging = false := hm
    simp only [logged, EStateM.run_bind, run_log hin, h, run_log hm', run_logState hm',
      EStateM.run_get]
  simp only [runTerm, codeTree?_flat his, runTree, run_runProgram, hlogged]

end X86

end CompilerKit
