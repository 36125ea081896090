import CompilerKit.Proofs.X86.Frame
import CompilerKit.Proofs.X86.Log
import CompilerKit.Proofs.X86.Runs

/-!
# The scratch register

Encodable code moves an operand through the scratch register before it is used. Two machines, one
with the code as it was and one with encodable code, stay alike but for this register, as long as
the code only looks at it right after a number was read into it.

* `Follows.afterStep`, `Follows.through`: one instruction, as it is or through the register.
* `patchInstrs_follows`: all instructions of the code, one after the other.
-/

namespace CompilerKit.X86

open Emulation List Bool Instr Machine Operand EStateM Lockstep

variable {a : Operand} {name : String} {fresh : Bool} {i : Instr} {is js : List Instr}
variable {m : Machine} {before after : Except Fault Unit × Machine}

/-! ## Tidy code -/

/-- The tree of a number. -/
def isNumeral : Term → Bool
  | .int _ => true
  | _ => false

theorem exists_of_isNumeral (h : isNumeral t) : ∃ n, t = .int n := by
  cases t with
  | scalar c =>
    cases c with
    | int n => exact ⟨n, rfl⟩
    | _ => cases h
  | _ => cases h

/-- The operand is the scratch register. -/
def Operand.isScratch : Operand → Bool
  | .reg r => r == "rax"
  | _ => false

/-- The operand is a variable, a number, the scratch register, the register for output, or a place
of the frame. -/
def Operand.isOrdinary : Operand → Bool
  | .variable _ => true
  | .immediate v => isNumeral v
  | .reg r => r == "rax" || r == "rdi"
  | .deref r _ => r == "rbp"
  | _ => false

/-- The instruction is arithmetic on such operands, or a call that prints or reads a number. -/
def Instr.isOrdinary : Instr → Bool
  | .op name [a] => name == "negq" && a.isOrdinary
  | .op name [a, b] =>
    ["movq", "addq", "subq"].contains name && (a.isOrdinary && b.isOrdinary)
  | .call l _ => l == "print_int" || l == "read_int"
  | _ => false

/-- The operands that the instruction reads. A move does not read the place it moves to. -/
def Instr.sources : Instr → List Operand
  | .op name [a, b] => if name == "movq" then [a] else [a, b]
  | i => i.operands

/-- The instruction looks at the scratch register. -/
def Instr.readsScratch (i : Instr) : Bool := i.sources.any isScratch

/-- The instruction reads a number into the scratch register. -/
def Instr.isRead : Instr → Bool
  | .call l _ => l == "read_int"
  | _ => false

/-- The instruction is ordinary, and looks at the scratch register only if that is `fresh`. -/
def Instr.isTidy (fresh : Bool) (i : Instr) : Bool := i.isOrdinary && (fresh || !i.readsScratch)

/-- The code is ordinary, and only an instruction right after one that reads a number into the
scratch register looks at it. The first instruction may look at it too if it is `fresh`. -/
def isTidy (fresh : Bool) : List Instr → Bool
  | [] => true
  | i :: is => i.isTidy fresh && isTidy i.isRead is

/-- The operand is ordinary, and the scratch register only if that is `fresh`. -/
def Operand.fits (fresh : Bool) (a : Operand) : Bool := a.isOrdinary && (fresh || !a.isScratch)

theorem Operand.eq_of_isScratch (h : a.isScratch) : a = .reg "rax" := by
  cases a with
  | reg r => rw [beq_iff_eq.mp h]
  | _ => cases h

variable {b : Operand}

theorem Instr.isTidy_of_fits (hname : ["movq", "addq", "subq"].contains name)
    (ha : a.fits false) (hb : b.fits false) :
    (Instr.op name [a, b]).isTidy false := by
  simp only [fits, and_eq_true, Bool.false_or, not_eq_true'] at ha hb
  have hreads : (Instr.op name [a, b]).readsScratch = false := by
    simp only [readsScratch, sources]
    split <;> simp [ha.2, hb.2]
  simp only [isTidy, isOrdinary, hname, ha.1, hb.1, hreads, Bool.and_self,
    Bool.not_false, Bool.or_true]

theorem Instr.fits_of_isTidy (h : (Instr.op name [a, b]).isTidy fresh) :
    ["movq", "addq", "subq"].contains name ∧ a.fits fresh ∧
      (b.fits fresh ∨ name = "movq" ∧ b = .reg "rax") := by
  simp only [isTidy, isOrdinary, and_eq_true] at h
  obtain ⟨⟨hname, ha, hb⟩, hreads⟩ := h
  have hfits : ∀ c : Operand, c.isOrdinary → c ∈ (Instr.op name [a, b]).sources → c.fits fresh := by
    intro c hc hmem
    cases fresh with
    | true => simp [fits, hc]
    | false =>
      simp only [Bool.false_or, not_eq_true', readsScratch, any_eq_false] at hreads
      simp [fits, hc, hreads c hmem]
  refine ⟨hname, hfits a ha ?_, ?_⟩
  · simp only [sources]
    split <;> simp
  · by_cases hmove : name = "movq"
    · -- a move may have any target, the scratch register among them
      by_cases hscratch : b.isScratch
      · exact .inr ⟨hmove, eq_of_isScratch hscratch⟩
      · exact .inl (by simp [fits, hb, hscratch])
    · exact .inl (hfits b hb (by simp [sources, hmove]))

theorem Instr.isTidy_mono (h : i.isTidy false) (fresh) : i.isTidy fresh := by
  simp only [isTidy, and_eq_true, or_eq_true] at h ⊢
  exact ⟨h.1, .inr (h.2.resolve_left false_ne_true)⟩

theorem isTidy_mono (h : isTidy false is) (fresh) : isTidy fresh is := by
  cases is with
  | nil => rfl
  | cons i is =>
    simp only [isTidy, and_eq_true] at h ⊢
    exact ⟨isTidy_mono h.1 fresh, h.2⟩

theorem isTidy_append (h : isTidy fresh is) (h' : isTidy false js) : isTidy fresh (is ++ js) := by
  induction is generalizing fresh with
  | nil => exact isTidy_mono h' fresh
  | cons i is ih =>
    simp only [isTidy, cons_append, and_eq_true] at h ⊢
    exact ⟨h.1, ih h.2⟩

theorem Operand.isOrdinary_settle (h : a.isOrdinary) (zs) : (a.settle zs).isOrdinary := by
  cases a with
  | «variable» x => rfl
  | _ => exact h

theorem Operand.isScratch_settle (a : Operand) (zs) : (a.settle zs).isScratch = a.isScratch := by
  cases a <;> rfl

theorem Instr.isOrdinary_settle (h : i.isOrdinary) (zs) : (i.settle zs).isOrdinary := by
  cases i with
  | op name args =>
    match args, h with
    | [a], h =>
      simp only [isOrdinary, and_eq_true] at h
      simp only [Instr.settle, List.map, isOrdinary, h.1, isOrdinary_settle h.2, Bool.and_self]
    | [a, b], h =>
      simp only [isOrdinary, and_eq_true] at h
      simp only [Instr.settle, List.map, isOrdinary, h.1, isOrdinary_settle h.2.1,
        isOrdinary_settle h.2.2, Bool.and_self]
  | call l n => exact h
  | _ => cases h

theorem Instr.readsScratch_settle (h : i.isOrdinary) (zs) :
    (i.settle zs).readsScratch = i.readsScratch := by
  cases i with
  | op name args =>
    match args, h with
    | [a], _ =>
      simp [Instr.settle, readsScratch, sources, operands, isScratch_settle]
    | [a, b], _ =>
      simp only [Instr.settle, List.map, readsScratch, sources]
      split <;> simp [isScratch_settle]
  | _ => rfl

theorem isTidy_settle (h : isTidy fresh is) (zs) : isTidy fresh (is.map (Instr.settle zs)) := by
  induction is generalizing fresh with
  | nil => rfl
  | cons i is ih =>
    simp only [isTidy, Instr.isTidy, map_cons, and_eq_true] at h ⊢
    obtain ⟨⟨hordinary, hreads⟩, hrest⟩ := h
    have hread : (i.settle zs).isRead = i.isRead := by cases i <;> rfl
    rw [hread, readsScratch_settle hordinary]
    exact ⟨⟨Instr.isOrdinary_settle hordinary zs, hreads⟩, ih hrest⟩

theorem isArithmetic_of_contains (hname : ["movq", "addq", "subq"].contains name) :
    (Opcode.ofName name).isArithmetic := by
  simp only [contains_cons, contains_nil, Bool.or_false, or_eq_true, beq_iff_eq] at hname
  rcases hname with rfl | rfl | rfl <;> rfl

theorem Operand.isPlain_of_isOrdinary (ha : a.isOrdinary) : a.isPlain := by
  cases a with
  | other t => cases ha
  | _ => rfl

theorem Instr.isStraight_of_isOrdinary (h : i.isOrdinary) : i.isStraight := by
  cases i with
  | op name args =>
    match args, h with
    | [a], h =>
      simp only [isOrdinary, and_eq_true, beq_iff_eq] at h
      obtain ⟨rfl, ha⟩ := h
      simpa [isStraight] using ⟨rfl, isPlain_of_isOrdinary ha⟩
    | [a, b], h =>
      simp only [isOrdinary, and_eq_true] at h
      obtain ⟨hname, ha, hb⟩ := h
      simp only [isStraight, isArithmetic_of_contains hname, List.all_cons, all_nil,
        isPlain_of_isOrdinary ha, isPlain_of_isOrdinary hb, Bool.and_self]
  | call l n => exact h
  | _ => cases h

/-! ## Machines that differ in the scratch register -/

/-- The machines are alike apart from the scratch register; if `fresh`, it is alike too. -/
structure Scratch (fresh : Bool) (m n : Machine) : Prop where
  registers : ∀ r, (r = "rax" → fresh) → n.register r = m.register r
  vars : n.vars = m.vars
  memory : n.memory = m.memory
  output : n.output = m.output
  console : n.console = m.console
  quiet : m.logging = false
  quiet' : n.logging = false

namespace Scratch

theorem logs (fresh) : Logs (Scratch fresh) := Quiet.logs fun _ _ h => ⟨h.quiet, h.quiet'⟩

variable (h : Scratch fresh m n)
include h

theorem forget : Scratch false m n :=
  { h with registers := fun r hr => h.registers r fun hrax => by cases hr hrax }

theorem setRegister (r c) :
    Scratch fresh (m.setRegister r c) (n.setRegister r c) := by
  refine { h with registers := fun s hs => ?_ }
  rw [register_setRegister, register_setRegister]
  split
  · rfl
  · exact h.registers s hs

theorem fill (c) :
    Scratch true (m.setRegister "rax" c) (n.setRegister "rax" c) := by
  refine { h with registers := fun s _ => ?_ }
  rw [register_setRegister, register_setRegister]
  split
  · rfl
  · next hs => exact h.registers s fun hrax => absurd hrax hs

theorem spill (c) : Scratch false m (n.setRegister "rax" c) := by
  refine { h.forget with registers := fun s hs => ?_ }
  have hne : s ≠ "rax" := fun hrax => by cases hs hrax
  rw [register_setRegister, if_neg hne]
  exact h.forget.registers s hs

theorem setVariable (x c) :
    Scratch fresh (m.setVariable x c) (n.setVariable x c) :=
  { h with vars := by simp only [Machine.setVariable, h.vars] }

theorem setCell (a c) : Scratch fresh (m.setCell a c) (n.setCell a c) :=
  { h with memory := by simp only [Machine.setCell, h.memory] }

theorem touch (b) : Scratch fresh (m.touch b) (n.touch b) := by
  have hregisters : ∀ r, (r = "rax" → fresh) →
      (n.touch b).register r = (m.touch b).register r := fun r hr => by
    rw [register_touch, register_touch, h.registers r hr]
  obtain ⟨_, _, hm⟩ := touch_eq m b
  obtain ⟨_, _, hn⟩ := touch_eq n b
  rw [hm, hn] at hregisters ⊢
  exact { h with registers := hregisters }

end Scratch

/-! ## Operands -/

section

theorem lockstep_readNamed (hr : r = "rax" → fresh) :
    Lockstep (Scratch fresh) (readNamed r) (readNamed r) :=
  modifyGet fun _ _ hmn => ⟨hmn.registers r hr, hmn.touch { name := r }⟩

theorem sameOperand_fits (ha : a.fits fresh) : SameOperand (Scratch fresh) a.node a.node := by
  obtain ⟨hordinary, hscratch⟩ := and_eq_true_iff.mp ha
  cases a with
  | «variable» x =>
    exact sameOperand_variables (fun _ _ hmn => hmn.vars) fun _ _ c hmn => hmn.setVariable x c
  | immediate v => exact sameOperand_immediate v
  | reg r =>
    have hr : r = "rax" → fresh := by
      rintro rfl
      simpa [isScratch] using hscratch
    exact sameOperand_register (lockstep_readNamed hr) fun _ _ c hmn => hmn.setRegister r c
  | deref r v =>
    obtain rfl : r = "rbp" := beq_iff_eq.mp hordinary
    exact sameOperand_deref (lockstep_readNamed fun h => absurd h (by decide))
      (fun _ _ hmn => hmn.memory) fun _ _ a c hmn => hmn.setCell (.word a) c
  | _ => cases hordinary

/-! ## Instructions -/

/-- An instruction, and what follows it unless it leaves. -/
def thenRun (blocks : Blocks) (enter : List ParseTree → Emulation Unit) (step : Emulation Flow)
    (rest : List ParseTree) : Emulation Unit := do
  match ← step with
  | .leave => pure ()
  | .next => do
    logState
    runWith blocks enter rest

theorem run_runWith_cons (hm : m.logging = false) (blocks) (enter : List ParseTree → Emulation Unit)
    (name args rest) :
    (runWith blocks enter (.bare name args :: rest)).run m =
      (thenRun blocks enter (step blocks enter (.ofName name) args) rest).run m :=
  run_next (run_log hm _)

/-- The runs give the same. The machines differ in the scratch register, before the runs unless it
is `fresh`, and after them unless it is `fresh'`. -/
abbrev Meets (fresh fresh' : Bool) (x y : Emulation α) : Prop :=
  Sim (Scratch fresh) x y (fun a b m n => b = a ∧ Scratch fresh' m n) fun _ => Scratch false

theorem meets (h : Lockstep (Scratch fresh) x y) : Meets fresh fresh x y :=
  h.mono (fun _ _ h => h) (fun _ _ _ _ h => h) fun _ _ _ h => h.forget

theorem Meets.forget (h : Meets fresh fresh' x y) : Meets fresh false x y :=
  h.mono (fun _ _ h => h) (fun _ _ _ _ h => ⟨h.1, h.2.forget⟩) fun _ _ _ h => h

/-- The code `us` does what the code `ts` does, and stops where it stops. -/
def Follows (fresh : Bool) (ts us : List ParseTree) : Prop :=
  ∀ blocks blocks' enter enter',
    Meets fresh false (runWith blocks enter ts) (runWith blocks' enter' us)

variable {ts us : List ParseTree}

theorem Follows.afterStep (hrest : Follows fresh' ts us) (hstep : Meets fresh fresh' x y)
    (blocks blocks' : Blocks) (enter enter' : List ParseTree → Emulation Unit) :
    Meets fresh false (thenRun blocks enter x ts) (thenRun blocks' enter' y us) := by
  refine Sim.bind hstep fun f g m n hmn => ?_
  obtain ⟨rfl, hmn⟩ := hmn
  cases g with
  | leave => exact .ok ⟨rfl, hmn.forget⟩
  | next =>
    rw [run_bind, run_bind, run_logState hmn.quiet, run_logState hmn.quiet']
    exact hrest blocks blocks' enter enter' m n hmn

theorem Follows.cons (hrest : Follows fresh' ts us)
    (hstep : ∀ blocks blocks' enter enter', Meets fresh fresh'
      (step blocks enter (.ofName name) args) (step blocks' enter' (.ofName name) args')) :
    Follows fresh (.bare name args :: ts) (.bare name args' :: us) := by
  intro blocks blocks' enter enter' m n hmn
  rw [run_runWith_cons hmn.quiet, run_runWith_cons hmn.quiet']
  exact hrest.afterStep (hstep _ _ _ _) blocks blocks' enter enter' m n hmn

theorem Follows.op (hname : (Opcode.ofName name).isArithmetic)
    (hargs : Forall₂ (SameOperand (Scratch fresh)) args args) (hrest : Follows false ts us) :
    Follows fresh (.bare name args :: ts) (.bare name args :: us) :=
  hrest.cons fun _ _ _ _ => (meets (lockstep_step hargs hname)).forget

/-- An operation on two operands reads the first before anything else. -/
theorem step_binary (hname : ["movq", "addq", "subq"].contains name) :
    ∃ finish : ParseTree → Cell → Emulation Flow,
      (∀ blocks enter t u,
        step blocks enter (.ofName name) [t, u] = readOperand t >>= finish u) ∧
      ∀ (R : Machine → Machine → Prop) u, SameOperand R u u → ∀ c,
        Lockstep R (finish u c) (finish u c) := by
  have hcombine : ∀ f : Int → Int → Int, ∃ finish : ParseTree → Cell → Emulation Flow,
      (∀ t u, (combine f [t, u] >>= fun _ => pure .next) = readOperand t >>= finish u) ∧
      ∀ (R : Machine → Machine → Prop) u, SameOperand R u u → ∀ c,
        Lockstep R (finish u c) (finish u c) := by
    intro f
    refine ⟨fun u c => (do
      let d ← readOperand u
      writeOperand u (.word (f (← wordOf c) (← wordOf d)))) >>= fun _ => pure .next, ?_, ?_⟩
    · exact fun t u => bind_assoc (readOperand t) _ _
    · intro R u hu c
      refine bind ?_ fun _ => .pure _
      refine bind hu.read fun d => ?_
      refine bind (lockstep_wordOf c) fun k => ?_
      exact bind (lockstep_wordOf d) fun l => hu.write _
  simp only [contains_cons, contains_nil, Bool.or_false, or_eq_true, beq_iff_eq] at hname
  rcases hname with rfl | rfl | rfl
  · refine ⟨fun u c => do writeOperand u c; pure .next, fun _ _ _ _ => rfl, fun R u hu c => ?_⟩
    exact bind (hu.write c) fun _ => .pure _
  · obtain ⟨finish, heq, hfinish⟩ := hcombine Word.add
    exact ⟨finish, fun _ _ => heq, hfinish⟩
  · obtain ⟨finish, heq, hfinish⟩ := hcombine fun x y => Word.sub y x
    exact ⟨finish, fun _ _ => heq, hfinish⟩

theorem thenRun_bind (x) (f : α → Emulation Flow) (blocks)
    (enter : List ParseTree → Emulation Unit) (rest) :
    thenRun blocks enter (x >>= f) rest = x >>= fun c => thenRun blocks enter (f c) rest :=
  bind_assoc x f _

/-- An operation whose first operand goes through the scratch register. -/
theorem Follows.through (hname : ["movq", "addq", "subq"].contains name)
    (ha : a.fits fresh) (hb : b.fits false) (hrest : Follows false ts us) :
    Follows fresh (.bare name [a.node, b.node] :: ts)
      (.bare "movq" [a.node, (Operand.reg "rax").node] ::
        .bare name [(Operand.reg "rax").node, b.node] :: us) := by
  obtain ⟨finish, hstep, hfinish⟩ := step_binary hname
  intro blocks blocks' enter enter' m n hmn
  rw [run_runWith_cons hmn.quiet, run_runWith_cons hmn.quiet', hstep, thenRun_bind]
  change Alike _ _ _ ((thenRun blocks' enter' (readOperand a.node >>= fun c => do
    writeOperand (reg "rax").node c
    pure .next) _).run n)
  rw [thenRun_bind]
  refine Sim.bind (meets (sameOperand_fits ha).read) (fun c d m n hmn => ?_) m n hmn
  obtain ⟨rfl, hmn⟩ := hmn
  have hspill := hmn.spill d
  have hrax : Reads (n.setRegister "rax" d) (.reg "rax") d :=
    reads_register (by simp [setRegister, Bindings.get?_put])
  change Alike _ _ _ ((logState >>= fun _ => runWith blocks' enter' _).run (n.setRegister "rax" d))
  rw [run_bind, run_logState hspill.quiet']
  change Alike _ _ _ ((runWith blocks' enter' _).run (n.setRegister "rax" d))
  rw [run_runWith_cons hspill.quiet', hstep, thenRun_bind, run_bind, hrax.run]
  exact hrest.afterStep (meets (hfinish _ _ (sameOperand_fits hb) d))
    blocks blocks' enter enter' m _
    hspill

theorem Follows.fill (ha : a.fits fresh) (hrest : Follows false ts us) :
    Follows fresh (.bare "movq" [a.node, (Operand.reg "rax").node] :: ts)
      (.bare "movq" [a.node, (Operand.reg "rax").node] :: us) := by
  refine hrest.cons fun _ _ _ _ => ?_
  have hwrite (c : Cell) : Meets fresh false (writeOperand (reg "rax").node c)
      (writeOperand (reg "rax").node c) :=
    Sim.modifyGet fun _ _ hmn => ⟨rfl, (hmn.fill c).forget⟩
  change Sim (Scratch fresh) (readOperand a.node >>= _) (readOperand a.node >>= _) _ _
  refine Sim.bind (meets (sameOperand_fits ha).read) fun c d m n hmn => ?_
  obtain ⟨rfl, hmn⟩ := hmn
  exact Sim.bind (hwrite d) (fun _ _ => Sim.pure fun _ _ h => ⟨rfl, h.2⟩) m n hmn

theorem Follows.print (hrest : Follows false ts us) (k) :
    Follows fresh ((Instr.call "print_int" k).node :: ts)
      ((Instr.call "print_int" k).node :: us) := by
  have hrdi : ("rdi") = "rax" → fresh := fun h => absurd h (by decide)
  have hprint : Meets fresh false printInt printInt :=
    (meets ((Scratch.logs fresh).printInt (lockstep_readNamed hrdi)
      fun _ _ c hmn => { hmn with output := congrArg (· ++ [c]) hmn.output })).forget
  exact hrest.cons fun _ _ _ _ =>
    Sim.bind (x := printInt) (y := printInt) hprint fun _ _ => Sim.pure fun _ _ h => ⟨rfl, h.2⟩

theorem Follows.read (hrest : Follows true ts us) (k) :
    Follows fresh ((Instr.call "read_int" k).node :: ts)
      ((Instr.call "read_int" k).node :: us) := by
  have hread : Meets fresh true readInt readInt := by
    refine (sim_readInt (fun m n hmn => ?_) (Scratch.logs true) fun _ _ c hmn => hmn.fill c).mono
      (fun _ _ h => h) (fun _ _ _ _ h => ⟨rfl, h⟩) fun _ _ _ h => h.forget
    rw [hmn.console]
    exact ⟨rfl, { hmn with console := rfl }⟩
  exact hrest.cons fun _ _ _ _ =>
    Sim.bind (x := readInt) (y := readInt) hread fun _ _ => Sim.pure fun _ _ h => ⟨rfl, h.2⟩

theorem Operand.isPlain_of_fits (ha : a.fits fresh) : a.isPlain :=
  isPlain_of_isOrdinary (and_eq_true_iff.mp ha).1

theorem Follows.binary (hname : ["movq", "addq", "subq"].contains name)
    (ha : a.fits fresh) (hb : b.fits fresh) (hrest : Follows false ts us) :
    Follows fresh (.bare name [a.node, b.node] :: ts) (.bare name [a.node, b.node] :: us) :=
  hrest.op (isArithmetic_of_contains hname)
    (.cons (sameOperand_fits ha) (.cons (sameOperand_fits hb) .nil))

/-- The operand is in memory. -/
def Operand.isMemory : Operand → Bool
  | .deref _ _ => true
  | _ => false

/-- The constant that the instruction combines with an operand in memory. -/
def Instr.stored : Instr → Option Term
  | .op _ [.immediate t, .deref _ _] => some t
  | _ => none

/-- What making an operation encodable comes to: of the numbers for memory, the large ones go
through the scratch register. -/
theorem patchInstr_binary (ha : a.isOrdinary) (b name) :
    patchInstr (.op name [a, b]) = .ok [.op name [a, b]] ∧
        (a.isMemory = false ∨ b.isMemory = false) ∧
        (∀ t, (Instr.op name [a, b]).stored = some t → ∃ c, t = .int c ∧ c ≤ 0x10000) ∨
      (∃ s v, b = .deref s v) ∧ patchInstr (.op name [a, b]) =
        .ok [.op "movq" [a, .reg "rax"], .op name [.reg "rax", b]] ∧
        ∀ t, (Instr.op name [a, b]).stored = some t → ∃ c, t = .int c ∧ 0x10000 < c := by
  cases b with
  | deref s v =>
    cases a with
    | deref r u => exact .inr ⟨⟨s, v, rfl⟩, rfl, fun _ ht => by cases ht⟩
    | immediate c =>
      obtain ⟨n, rfl⟩ := exists_of_isNumeral ha
      by_cases hn : 0x10000 < n
      · refine .inr ⟨⟨s, v, rfl⟩, ?_, fun _ ht => ⟨n, (Option.some.inj ht).symm, hn⟩⟩
        simp only [patchInstr, isLarge, decide_eq_true hn]
        rfl
      · refine .inl ⟨?_, .inl rfl, fun _ ht => ⟨n, (Option.some.inj ht).symm, Int.not_lt.mp hn⟩⟩
        simp only [patchInstr, isLarge, decide_eq_false hn]
        rfl
    | _ => exact .inl ⟨rfl, .inl rfl, fun _ ht => by cases ht⟩
  | _ => cases a <;> exact .inl ⟨rfl, .inr rfl, fun _ ht => by cases ht⟩

/-- A tidy operation on two operands and its encodable form, whatever code follows them. -/
theorem patchInstr_follows_binary (hi : (Instr.op name [a, b]).isTidy fresh) :
    ∃ js, patchInstr (.op name [a, b]) = .ok js ∧ js.all isOrdinary ∧
      ∀ ts us, Follows false ts us →
        Follows fresh ((Instr.op name [a, b]).node :: ts) (js.map Instr.node ++ us) := by
  have hordinary : (Instr.op name [a, b]).isOrdinary := (Bool.and_eq_true_iff.mp hi).1
  obtain ⟨hname, ha, hb⟩ := fits_of_isTidy hi
  simp only [Instr.isOrdinary, and_eq_true] at hordinary
  obtain ⟨-, haordinary, hbordinary⟩ := hordinary
  have hplain := isPlain_of_isOrdinary haordinary
  have hplain' := isPlain_of_isOrdinary hbordinary
  have hrax : (Operand.reg "rax").isOrdinary := rfl
  rcases patchInstr_binary haordinary b name with ⟨hpatch, -⟩ | ⟨⟨s, v, rfl⟩, hpatch, -⟩
  · refine ⟨_, hpatch, ?_, fun ts us hrest => ?_⟩
    · simp only [List.all_cons, all_nil, Instr.isOrdinary, hname, haordinary, hbordinary,
        Bool.and_self]
    · rw [List.map_singleton, List.singleton_append, node_binary hplain hplain']
      obtain hb | ⟨rfl, rfl⟩ := hb
      · exact hrest.binary hname ha hb
      · exact hrest.fill ha
  · refine ⟨_, hpatch, ?_, fun ts us hrest => ?_⟩
    · have hmove : ["movq", "addq", "subq"].contains "movq" := rfl
      simp only [List.all_cons, all_nil, Instr.isOrdinary, hname, hmove, haordinary,
        hbordinary, hrax, Bool.and_self]
    · have hb' : (Operand.deref s v).fits false := by
        simp [fits, hbordinary, isScratch]
      rw [map_cons, List.map_singleton, node_binary hplain hplain', node_binary hplain rfl,
        node_binary rfl hplain']
      exact hrest.through hname ha hb'

theorem patchInstr_follows (hi : i.isTidy fresh) :
    ∃ js, patchInstr i = .ok js ∧ js.all isOrdinary ∧
      ∀ ts us, Follows i.isRead ts us → Follows fresh (i.node :: ts) (js.map Instr.node ++ us) := by
  obtain ⟨hordinary, hreads⟩ := and_eq_true_iff.mp hi
  cases i with
  | op name args =>
    match args, hi, hordinary, hreads with
    | [a], _, hordinary, hreads =>
      have hall : [Instr.op name [a]].all isOrdinary := by
        rw [all_cons, hordinary]
        rfl
      simp only [Instr.isOrdinary, and_eq_true, beq_iff_eq] at hordinary
      obtain ⟨rfl, ha⟩ := hordinary
      have hfits : a.fits fresh := by
        simpa [fits, ha, readsScratch, sources, operands] using hreads
      have hplain : [a].all isPlain := by simp [isPlain_of_fits hfits]
      have hpatch : patchInstr (.op "negq" [a]) = .ok [.op "negq" [a]] := by cases a <;> rfl
      refine ⟨_, hpatch, hall, fun ts us hrest => ?_⟩
      rw [map_singleton, singleton_append, node_op hplain]
      exact hrest.op rfl (.cons (sameOperand_fits hfits) .nil)
    | [a, b], hi, _, _ => exact patchInstr_follows_binary hi
  | call l n =>
    simp only [Instr.isOrdinary, or_eq_true, beq_iff_eq] at hordinary
    rcases hordinary with rfl | rfl
    · exact ⟨_, rfl, rfl, fun ts us hrest => Follows.print hrest n⟩
    · exact ⟨_, rfl, rfl, fun ts us hrest => Follows.read hrest n⟩
  | _ => cases hordinary

theorem patchInstrs_follows (his : isTidy fresh is) :
    ∃ js, patchInstrs is = .ok js ∧ js.all isOrdinary ∧
      Follows fresh (is.map Instr.node) (js.map Instr.node) := by
  induction is generalizing fresh with
  | nil => exact ⟨[], rfl, rfl, fun _ _ _ _ => Sim.pure fun _ _ h => ⟨rfl, h.forget⟩⟩
  | cons i is ih =>
    simp only [isTidy, and_eq_true] at his
    obtain ⟨js, hpatch, hordinary, hfollows⟩ := patchInstr_follows his.1
    obtain ⟨ks, hpatches, hordinary', hrest⟩ := ih his.2
    refine ⟨js ++ ks, ?_, ?_, ?_⟩
    · rw [patchInstrs, hpatch, hpatches]
      rfl
    · rw [all_append, hordinary, hordinary', Bool.and_self]
    · rw [map_cons, map_append]
      exact hfollows _ _ hrest

end

/-! ## Programs -/

theorem patch_flat (h : patchInstrs is = .ok js) (space) :
    patch { code := .flat is, stackSpace := space } =
      .ok { code := .flat js, stackSpace := space } := by
  change (patchInstrs is >>= fun js => pure (Assembly.mk (.flat js) space)) = _
  rw [h]
  rfl

theorem all_isStraight_of_isOrdinary (h : is.all isOrdinary) :
    is.all isStraight :=
  all_eq_true.mpr fun i hi => isStraight_of_isOrdinary (all_eq_true.mp h i hi)

theorem all_isOrdinary_of_isTidy (h : isTidy fresh is) : is.all isOrdinary := by
  induction is generalizing fresh with
  | nil => rfl
  | cons i is ih =>
    simp only [isTidy, Instr.isTidy, and_eq_true] at h
    rw [List.all_cons, h.1.1, ih h.2, Bool.and_self]

/-- Code that follows other code keeps machines that differ in the scratch register in step. -/
theorem Follows.lockstep (h : Follows false (is.map Instr.node) (js.map Instr.node)) :
    Lockstep (Scratch false) (mainRun is) (mainRun js) := by
  obtain ⟨blocks, enter, hrun⟩ := mainRun_eq is
  obtain ⟨blocks', enter', hrun'⟩ := mainRun_eq js
  rw [hrun, hrun']
  exact h blocks blocks' enter enter'

theorem Scratch.refl (hm : m.logging = false) (fresh) : Scratch fresh m m :=
  ⟨fun _ _ => rfl, rfl, rfl, rfl, rfl, hm, hm⟩

/-- What can be seen of two runs of a program, before and after it was made encodable: how they end,
what they print and how much they read, the variables, the memory, and the registers but for the
scratch register. -/
structure SameButScratch (before after : Except Fault Unit × Machine) : Prop where
  result : after.1 = before.1
  output : after.2.output = before.2.output
  input : after.2.console.input = before.2.console.input
  vars : after.2.vars = before.2.vars
  memory : after.2.memory = before.2.memory
  registers : ∀ r, r ≠ "rax" → after.2.register r = before.2.register r

theorem Scratch.sameButScratch (hresult : after.1 = before.1) (h : Scratch false before.2 after.2) :
    SameButScratch before after where
  result := hresult
  output := h.output
  input := congrArg Console.input h.console
  vars := h.vars
  memory := h.memory
  registers := fun r hr => h.registers r fun hrax => absurd hrax hr

/-- Runs that can be seen to be the same still are if the machines keep a log. -/
theorem SameButScratch.of_hushed (h : SameButScratch before' after')
    (hbefore : before'.1 = before.1 ∧ Hushed before.2 before'.2)
    (hafter : after'.1 = after.1 ∧ Hushed after.2 after'.2) : SameButScratch before after where
  result := by rw [← hafter.1, h.result, hbefore.1]
  output := by rw [← hafter.2.output, h.output, hbefore.2.output]
  input := by rw [← hafter.2.input, h.input, hbefore.2.input]
  vars := by rw [← hafter.2.vars, h.vars, hbefore.2.vars]
  memory := by rw [← hafter.2.memory, h.memory, hbefore.2.memory]
  registers := fun r hr => by rw [← hafter.2.register, h.registers r hr, hbefore.2.register]

/-- Making code encodable keeps its behaviour if the scratch register is read only right after a
number was read into it: from every state of the machine, the program ends in the same way, with
the same output, memory and registers other than the scratch register. A machine that keeps a log
has to be able to show its state. -/
theorem patch_behaves (is : List Instr) (his : isTidy false is = true) (space : Option Int) :
    ∃ js, patchInstrs is = .ok js ∧
      patch { code := .flat is, stackSpace := space } =
        .ok { code := .flat js, stackSpace := space } ∧
      ∀ m : Machine, (m.logging = true → m.Shown) → SameButScratch
        (runTerm (Assembly.toTerm { code := .flat is, stackSpace := space }) m)
        (runTerm (Assembly.toTerm { code := .flat js, stackSpace := space }) m) := by
  obtain ⟨js, hjs, hordinary, hfollows⟩ := patchInstrs_follows his
  have hstraight := all_isStraight_of_isOrdinary (all_isOrdinary_of_isTidy his)
  have hstraight' := all_isStraight_of_isOrdinary hordinary
  refine ⟨js, hjs, patch_flat hjs space, fun m hm => ?_⟩
  obtain ⟨hresult, hscratch⟩ := lockstep_runTerm (Scratch.logs false)
    (all_isPlain_of_isStraight hstraight) (all_isPlain_of_isStraight hstraight') hfollows.lockstep
    (Scratch.refl (m := entered { m with logging := false }) rfl false) space space
  exact (hscratch.sameButScratch hresult).of_hushed (runTerm_hushed hstraight hm space)
    (runTerm_hushed hstraight' hm space)

/-- A program that adds a number it reads to a place, goes on with a large constant, and leaves
something in the scratch register that nothing looks at. -/
theorem patch_behaves_total :
    let place : Int → Operand := fun k => .deref "rbp" (.int k)
    let is : List Instr := [.op "movq" [.immediate (.int 70000), place (-8)],
      .call "read_int" (.int 0), .op "addq" [.reg "rax", place (-8)],
      .op "movq" [place (-8), .reg "rax"], .op "movq" [place (-8), place (-16)],
      .op "negq" [place (-16)], .op "movq" [place (-16), .reg "rdi"],
      .call "print_int" (.int 1)]
    isTidy false is = true ∧ ∃ js, patchInstrs is = .ok js ∧ js.length = 10 ∧
      ∀ c : Console, SameButScratch
        (runTerm (Assembly.toTerm { code := .flat is, stackSpace := some 16 })
          { console := c })
        (runTerm (Assembly.toTerm { code := .flat js, stackSpace := some 16 })
          { console := c }) := by
  intro place is
  have htidy : isTidy false is = true := by decide
  obtain ⟨js, hjs, -, hbehaves⟩ := patch_behaves is htidy (some 16)
  refine ⟨htidy, js, hjs, ?_, fun c => hbehaves { console := c } fun hlogging => by cases hlogging⟩
  cases hjs
  rfl

end CompilerKit.X86
