import CompilerKit.Proofs.X86.Layout
import CompilerKit.Proofs.X86.Log

/-!
# Variables in the frame

Code over variables and the code that has places of the frame in their stead run side by side: a
variable and its place hold the same at every step.

* `sameOperand_settle`: a variable and its place are read and written alike.
* `lockstep_settle`: so the code and the code with places run alike, with a log or without.
-/

namespace CompilerKit.X86

open Emulation Bindings Machine EStateM Instr CompilerKit.Word List Operand Assembly

/-! ## Addresses -/

/-- The address of the place number `k` of the frame with the base `b`. -/
def address (b : Int) (k : Nat) : Cell := .word (add b (offset k))

theorem inRange_offset (hk : k < maxPlaces) : inRange (offset k) := by
  rw [maxPlaces] at hk
  rw [inRange_iff, least, greatest, offset]
  omega

/-- The places of a frame do not run into each other, although addresses wrap around. -/
theorem address_inj (hk : k < maxPlaces) (hl : l < maxPlaces)
    (h : address b k = address b l) : k = l := by
  have hword : wrap (b + offset k) = wrap (b + offset l) := Cell.word.inj h
  rw [maxPlaces] at hk hl
  have hlt : (b + offset k - (b + offset l)).natAbs < modulus := by
    rw [offset, offset, modulus]
    omega
  have hoffset := eq_of_wrap_eq hword hlt
  rw [offset, offset] at hoffset
  omega

/-- The base of the frame is `b`. -/
def AtBase (b : Int) (m : Machine) : Prop := get? m.registers "rbp" = some (.word b)

variable {x : String} {zs : List String}

section

variable {k : Nat}

variable (h : AtBase b n)
include h

theorem AtBase.touch : n.touch { name := "rbp" } = n := by
  have hhas : has n.registers "rbp" := by rw [has, h]; rfl
  simp only [Machine.touch, hhas, if_true]

theorem AtBase.register : n.register "rbp" = .word b := by
  rw [Machine.register, h]
  rfl

theorem AtBase.setRegister (hr : r ≠ "rbp") (c) : AtBase b (n.setRegister r c) := by
  rw [AtBase, Machine.setRegister, get?_put, if_neg (by simpa using Ne.symm hr), h]

variable (hk : k < maxPlaces)
include hk

theorem run_addressOf :
    (addressOf (.number (.int (offset k))) { name := "rbp" }).run n = .ok (address b k) n := by
  have hread : (readRegister { name := "rbp" }).run n = .ok (.word b) n := by
    change Result.ok (n.register "rbp") (n.touch { name := "rbp" }) = _
    rw [h.touch, h.register]
  have hvalue : (Immediate.number (.int (offset k))).eval = pure (offset k) := by
    simp only [Immediate.eval, Immediate.value, wholeNumber, inRange_offset hk, if_true]
  simp only [addressOf, run_bind, hread, hvalue]
  rfl

theorem run_read_place : (readOperand (place k).node).run n = .ok (n.cellAt (address b k))
      (if has n.memory (address b k) then n else n.setCell (address b k) .empty) :=
  (run_next (run_addressOf h hk)).trans rfl

theorem run_write_place (c) :
    (writeOperand (place k).node c).run n = .ok () (n.setCell (address b k) c) :=
  (run_next (run_addressOf h hk)).trans rfl

end

/-! ## A machine with variables and a machine with a frame -/

/-- The machine `n` has in its frame what the machine `m` has in the variables `zs`, and both are
alike apart from that. -/
structure Framed (zs : List String) (m n : Machine) : Prop where
  registers : n.registers = m.registers
  output : n.output = m.output
  console : n.console = m.console
  base : AtBase 1000 m
  quiet : m.logging = false
  quiet' : n.logging = false
  cells : ∀ x ∈ zs, n.cellAt (address 1000 (zs.idxOf x)) = m.variableCell x

namespace Framed

theorem logs (zs) : Logs (Framed zs) := Quiet.logs fun _ _ h => ⟨h.quiet, h.quiet'⟩

variable (h : Framed zs m n)
include h

theorem base' : AtBase 1000 n := by
  rw [AtBase, h.registers]
  exact h.base

theorem register (r) : n.register r = m.register r := by
  rw [Machine.register, Machine.register, h.registers]

theorem setVariable (hzs : zs.length ≤ maxPlaces) (hx : x ∈ zs) (c) :
    Framed zs (m.setVariable x c) (n.setCell (address 1000 (zs.idxOf x)) c) where
  registers := h.registers
  output := h.output
  console := h.console
  base := h.base
  quiet := h.quiet
  quiet' := h.quiet'
  cells := by
    intro y hy
    have hbound : ∀ z ∈ zs, zs.idxOf z < maxPlaces := fun z hz =>
      Nat.lt_of_lt_of_le (idxOf_lt_length_of_mem hz) hzs
    rw [cellAt_setCell, variableCell_setVariable]
    by_cases hyx : y = x
    · subst hyx
      simp
    · have hne : address 1000 (zs.idxOf y) ≠ address 1000 (zs.idxOf x) := fun hadr =>
        hyx ((idxOf_inj hy).mp (address_inj (hbound y hy) (hbound x hx) hadr))
      rw [if_neg hne, if_neg hyx, h.cells y hy]

theorem readVariable (x) : Framed zs (if has m.vars x then m else m.setVariable x .empty) n := by
  split
  · exact h
  · next hx =>
    refine { h with cells := fun y hy => ?_ }
    rw [variableCell_setVariable_empty (by simpa using hx)]
    exact h.cells y hy

theorem readCell (a) : Framed zs m (if has n.memory a then n else n.setCell a .empty) := by
  split
  · exact h
  · next ha =>
    refine { h with cells := fun y hy => ?_ }
    rw [cellAt_setCell_empty (by simpa using ha)]
    exact h.cells y hy

theorem setRegister (hr : r ≠ "rbp") (c) : Framed zs (m.setRegister r c) (n.setRegister r c) := by
  refine { h with registers := ?_, base := h.base.setRegister hr c }
  simp only [Machine.setRegister, h.registers]

theorem touch (r) : Framed zs (m.touch { name := r }) (n.touch { name := r }) := by
  by_cases hr : has m.registers r
  · simp only [Machine.touch, h.registers, hr, if_true]
    exact h
  · have hrbp : r ≠ "rbp" := by
      rintro rfl
      have hbase := h.base
      rw [AtBase] at hbase
      simp [has, hbase] at hr
    have hset := h.setRegister hrbp .empty
    simp only [Machine.setRegister, h.registers] at hset
    simp only [Machine.touch, h.registers, if_neg hr]
    exact hset

end Framed

/-! ## Operands -/

/-- The operand does without a frame: a variable, a constant, or one of two registers. -/
def Operand.isPseudo : Operand → Bool
  | .variable _ | .immediate _ => true
  | .reg r => r == "rax" || r == "rdi"
  | _ => false

/-- The instruction does without a frame: arithmetic on such operands, or a call that prints or
reads a number. -/
def Instr.isPseudo : Instr → Bool
  | .op name args =>
    ["movq", "addq", "subq", "negq"].contains name && args.all Operand.isPseudo
  | .call l _ => l == "print_int" || l == "read_int"
  | _ => false

variable {a : Operand} {i : Instr} {is : List Instr}

theorem Operand.isPlain_of_isPseudo (h : a.isPseudo) : a.isPlain := by
  cases a with
  | other t => cases h
  | _ => rfl

theorem Instr.isPlain_of_isPseudo (h : i.isPseudo) : i.isPlain := by
  cases i with
  | op name as =>
    simp only [isPseudo, Bool.and_eq_true, all_eq_true] at h
    exact all_eq_true.mpr fun a ha => isPlain_of_isPseudo (h.2 a ha)
  | call l n => rfl
  | _ => cases h

theorem all_isPlain_of_isPseudo (h : is.all isPseudo) : is.all isPlain :=
  all_eq_true.mpr fun i hi => isPlain_of_isPseudo (all_eq_true.mp h i hi)

theorem Operand.isPlain_settle (h : a.isPlain) (zs) : (a.settle zs).isPlain := by
  cases a with
  | other t => cases h
  | _ => rfl

theorem Instr.isStraight_of_isPseudo (h : i.isPseudo) : i.isStraight := by
  cases i with
  | op name as =>
    have hplain := isPlain_of_isPseudo h
    simp only [isPseudo, Bool.and_eq_true] at h
    have hname := h.1
    simp only [contains_cons, contains_nil, Bool.or_false, Bool.or_eq_true, beq_iff_eq] at hname
    refine Bool.and_eq_true_iff.mpr ⟨?_, hplain⟩
    rcases hname with rfl | rfl | rfl | rfl <;> rfl
  | call l n => exact h
  | _ => cases h

theorem Instr.isPlain_settle (h : i.isPlain) (zs) : (i.settle zs).isPlain := by
  cases i with
  | op name as =>
    simp only [isPlain, Instr.settle, all_map, all_eq_true] at h ⊢
    exact fun a ha => isPlain_settle (h a ha) zs
  | call l n => rfl
  | _ => cases h

theorem Instr.isStraight_settle (h : i.isStraight) (zs) : (i.settle zs).isStraight := by
  cases i with
  | op name as =>
    obtain ⟨hname, hplain⟩ := Bool.and_eq_true_iff.mp h
    exact Bool.and_eq_true_iff.mpr ⟨hname, isPlain_settle (i := .op name as) hplain zs⟩
  | call l n => exact h
  | _ => cases h

section

theorem sameOperand_variable (hzs : zs.length ≤ maxPlaces) (hx : x ∈ zs) :
    SameOperand (Framed zs) (Operand.variable x).node (place (zs.idxOf x)).node := by
  have hk : zs.idxOf x < maxPlaces := Nat.lt_of_lt_of_le (idxOf_lt_length_of_mem hx) hzs
  constructor
  · intro m n hmn
    rw [run_read_place hmn.base' hk, hmn.cells x hx]
    exact .ok ⟨rfl, (hmn.readVariable x).readCell _⟩
  · intro c m n hmn
    rw [run_write_place hmn.base' hk]
    exact .ok ⟨rfl, hmn.setVariable hzs hx c⟩

theorem sameOperand_reg (hr : r ≠ "rbp") : SameOperand (Framed zs) (reg r).node (reg r).node :=
  sameOperand_register (Lockstep.modifyGet fun _ _ hmn => ⟨hmn.register r, hmn.touch r⟩)
    fun _ _ c hmn => hmn.setRegister hr c

theorem sameOperand_settle (hzs : zs.length ≤ maxPlaces) (ha : a.isPseudo)
    (hvars : ∀ x ∈ a.variables, x ∈ zs) : SameOperand (Framed zs) a.node (a.settle zs).node := by
  cases a with
  | «variable» x => exact sameOperand_variable hzs (hvars x mem_cons_self)
  | immediate v => exact sameOperand_immediate v
  | reg r =>
    refine sameOperand_reg ?_
    rintro rfl
    simp [Operand.isPseudo] at ha
  | _ => cases ha

/-! ## Instructions -/

theorem lockstep_printInt : Lockstep (Framed zs) printInt printInt :=
  (Framed.logs zs).printInt (sameOperand_reg (by decide)).read
    fun _ _ c hmn => { hmn with output := congrArg (· ++ [c]) hmn.output }

theorem lockstep_readInt : Lockstep (Framed zs) readInt readInt := by
  refine (Framed.logs zs).readInt (fun m n hmn => ?_) fun _ _ c hmn => hmn.setRegister (by decide) c
  rw [hmn.console]
  exact ⟨rfl, { hmn with console := rfl }⟩

/-- Code over variables and the code with their places keep a machine with variables and a machine
with a frame in step. -/
theorem lockstep_settle (hzs : zs.length ≤ maxPlaces) (his : is.all isPseudo)
    (hvars : ∀ x ∈ is.flatMap Instr.variables, x ∈ zs) :
    Lockstep (Framed zs) (mainRun is) (mainRun (is.map (Instr.settle zs))) := by
  have hpseudo : ∀ i ∈ is, i.isPseudo := all_eq_true.mp his
  have hstraight : is.all isStraight :=
    all_eq_true.mpr fun i hi => isStraight_of_isPseudo (hpseudo i hi)
  refine lockstep_replace (Framed.logs zs) (fun a ha => isPlain_settle ha zs)
    lockstep_printInt lockstep_readInt hstraight fun i hi a ha => ?_
  cases i with
  | op name as =>
    have has := (Bool.and_eq_true_iff.mp (hpseudo _ hi)).2
    refine sameOperand_settle hzs (all_eq_true.mp has a ha) fun x hx => hvars x ?_
    exact mem_flatMap.mpr ⟨_, hi, mem_flatMap.mpr ⟨a, ha, hx⟩⟩
  | _ => cases ha

end

/-! ## Programs -/

/-- What can be seen of two runs of a program, before and after its variables got the places
`homes`: how they end, what they print and read, the registers, and every variable at its place. -/
structure SameBehaviour (homes : Homes) (before after : Except Fault Unit × Machine) : Prop where
  result : after.1 = before.1
  output : after.2.output = before.2.output
  console : after.2.console = before.2.console
  registers : after.2.registers = before.2.registers
  cells : ∀ x home, homes.get? (.variable x) = some home → ∃ b d,
    home = .deref "rbp" (.int d) ∧ after.2.register "rbp" = .word b ∧
      after.2.cellAt (.word (add b d)) = before.2.variableCell x

/-- What can be seen of two such runs on machines that keep a log, apart from the log. -/
structure SameButLog (homes : Homes) (before after : Except Fault Unit × Machine) : Prop where
  result : after.1 = before.1
  output : after.2.output = before.2.output
  input : after.2.console.input = before.2.console.input
  registers : ∀ r, after.2.register r = before.2.register r
  cells : ∀ x home, homes.get? (.variable x) = some home → ∃ b d,
    home = .deref "rbp" (.int d) ∧ after.2.register "rbp" = .word b ∧
      after.2.cellAt (.word (add b d)) = before.2.variableCell x

theorem SameBehaviour.sameButLog {homes : Homes} {before after before' after'}
    (h : SameBehaviour homes before' after')
    (hbefore : before'.1 = before.1 ∧ Hushed before.2 before'.2)
    (hafter : after'.1 = after.1 ∧ Hushed after.2 after'.2) : SameButLog homes before after where
  result := by rw [← hafter.1, h.result, hbefore.1]
  output := by rw [← hafter.2.output, h.output, hbefore.2.output]
  input := by rw [← hafter.2.input, h.console, hbefore.2.input]
  registers r := by rw [← hafter.2.register, register, h.registers, ← register, hbefore.2.register]
  cells x home hhome := by
    obtain ⟨b, d, hplace, hbase, hcell⟩ := h.cells x home hhome
    rw [hafter.2.register] at hbase
    rw [cellAt, hafter.2.memory, variableCell, hbefore.2.vars] at hcell
    exact ⟨b, d, hplace, hbase, hcell⟩

theorem Framed.sameBehaviour {before after} (hresult : after.1 = before.1)
    (h : Framed zs before.2 after.2) : SameBehaviour (layout 0 zs) before after where
  result := hresult
  output := h.output
  console := h.console
  registers := h.registers
  cells := by
    intro x home hhome
    rw [get?_layout, Nat.zero_add] at hhome
    split at hhome
    · next hx =>
      cases hhome
      exact ⟨1000, _, rfl, h.base'.register, h.cells x hx⟩
    · cases hhome

theorem framed_start (zs c) : Framed zs (entered { console := c }) (entered { console := c }) where
  registers := rfl
  output := rfl
  console := rfl
  base := rfl
  quiet := rfl
  quiet' := rfl
  cells := fun _ _ => rfl

theorem sameBehaviour_settle (hzs : zs.length ≤ maxPlaces) (his : is.all isPseudo)
    (hvars : ∀ x ∈ is.flatMap Instr.variables, x ∈ zs) (k l c) :
    SameBehaviour (layout 0 zs)
      (runTerm (toTerm { code := .flat is, stackSpace := k }) { console := c })
      (runTerm (toTerm
        { code := .flat (is.map (Instr.settle zs)), stackSpace := l }) { console := c }) := by
  have hplain := all_isPlain_of_isPseudo his
  have hsettled : (is.map (Instr.settle zs)).all isPlain := by
    rw [all_map, all_eq_true]
    exact fun i hi => isPlain_settle (all_eq_true.mp hplain i hi) zs
  obtain ⟨hresult, hframed⟩ := lockstep_runTerm (Framed.logs zs) hplain hsettled
    (lockstep_settle hzs his hvars) (framed_start zs c) k l
  exact hframed.sameBehaviour hresult

/-- Assigning homes keeps the behaviour of every program over variables, at every step: after any
number of instructions the two runs have ended alike or are going on alike, and every variable is
what its place holds. This is so whether the machines keep a log or not. -/
theorem assignHomes_behaves (is : List Instr) (his : is.all isPseudo = true)
    (hvars : (is.flatMap Instr.variables).toFinset.card ≤ maxPlaces) (space : Option Int) :
    ∃ js homes, homeInstrs [] is = (js, homes) ∧
      assignHomes { code := .flat is, stackSpace := space } =
        .ok { code := .flat js, stackSpace := some (frameSize homes.length) } ∧
      (∀ x ∈ is.flatMap Instr.variables, ∃ home, homes.get? (.variable x) = some home) ∧
      ∀ (c : Console) (k : Nat), SameBehaviour homes
          (runTerm (toTerm
            { code := .flat (is.take k), stackSpace := space }) { console := c })
          (runTerm (toTerm
            { code := .flat (js.take k), stackSpace := some (frameSize homes.length) })
            { console := c }) ∧
        SameButLog homes
          (runTerm (toTerm
            { code := .flat (is.take k), stackSpace := space }) { console := c, logging := true })
          (runTerm (toTerm
            { code := .flat (js.take k), stackSpace := some (frameSize homes.length) })
            { console := c, logging := true }) := by
  obtain ⟨zs, hhomes, hlength, hmem⟩ := homeInstrs_layout (all_isPlain_of_isPseudo his)
  refine ⟨_, _, hhomes, assignHomes_flat hhomes space, fun x hx => ?_, fun c k => ?_⟩
  · exact ⟨_, by rw [get?_layout, if_pos (hmem x hx)]⟩
  have hpseudo : (is.take k).all isPseudo :=
    all_eq_true.mpr fun i hi => all_eq_true.mp his i (mem_of_mem_take hi)
  have hknown : ∀ x ∈ (is.take k).flatMap Instr.variables, x ∈ zs := by
    intro x hx
    obtain ⟨i, hi, hxi⟩ := mem_flatMap.mp hx
    exact hmem x (mem_flatMap.mpr ⟨i, mem_of_mem_take hi, hxi⟩)
  have hstraight : ∀ i ∈ is.take k, i.isStraight := fun i hi =>
    isStraight_of_isPseudo (all_eq_true.mp hpseudo i hi)
  have hsettled : ((is.take k).map (Instr.settle zs)).all isStraight := by
    rw [all_map, all_eq_true]
    exact fun i hi => isStraight_settle (hstraight i hi) zs
  have hshown : ({ console := c, logging := true } : Machine).Shown := forall_mem_nil _
  rw [← map_take]
  have hsame := sameBehaviour_settle (hlength ▸ hvars) hpseudo hknown space
    (some (frameSize (layout 0 zs).length)) c
  exact ⟨hsame, hsame.sameButLog (runTerm_hushed (all_eq_true.mpr hstraight) (fun _ => hshown) _)
    (runTerm_hushed hsettled (fun _ => hshown) _)⟩

/-- A program that reads a number, takes a constant from it and then stops at a variable that was
never written. -/
theorem assignHomes_behaves_unwritten :
    let is : List Instr := [.op "movq" [.immediate (.int 5), .variable "x"],
      .call "read_int" (.int 0), .op "movq" [.reg "rax", .variable "y"],
      .op "subq" [.variable "x", .variable "y"], .op "negq" [.variable "z"]]
    is.all Instr.isPseudo = true ∧ (is.flatMap Instr.variables).toFinset.card ≤ maxPlaces ∧
      ∃ js homes, homeInstrs [] is = (js, homes) ∧
        ∀ (c : Console) (k : Nat), SameBehaviour homes
          (runTerm (toTerm
            { code := .flat (is.take k), stackSpace := none }) { console := c })
          (runTerm (toTerm
            { code := .flat (js.take k), stackSpace := some (frameSize homes.length) })
            { console := c }) := by
  intro is
  have hpseudo : is.all isPseudo = true := by decide
  have hcard : (is.flatMap Instr.variables).toFinset.card ≤ maxPlaces := by decide
  obtain ⟨js, homes, hhomes, -, -, hbehaves⟩ := assignHomes_behaves is hpseudo hcard none
  exact ⟨hpseudo, hcard, js, homes, hhomes, fun c k => (hbehaves c k).1⟩

end CompilerKit.X86
