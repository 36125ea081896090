import CompilerKit.Proofs.X86.Frame
import CompilerKit.Proofs.X86.Log
import CompilerKit.Proofs.X86.Runs

/-!
# Entering and leaving a frame

Code that is run in a frame of its own has its places at other addresses than code that is run by
itself, because the base of the frame is another one. Apart from that it does the same, and it does
not touch the place where the old base is kept.
-/

namespace CompilerKit.X86

open Emulation List Bindings Instr Machine CompilerKit.Word

/-! ## The code around -/

/-- Keep the base of the frame, and make a frame of so many bytes. -/
def enterFrame (space : Int) : List Instr :=
  [.op "pushq" [.reg "rbp"], .op "movq" [.reg "rsp", .reg "rbp"],
    .op "subq" [.immediate (.int space), .reg "rsp"]]

/-- Drop the frame, and take the old base back. -/
def leaveFrame (space : Int) : List Instr :=
  [.op "addq" [.immediate (.int space), .reg "rsp"], .op "popq" [.reg "rbp"]]

/-- The text that stands for the return at the end of a program. -/
def returnText : Instr := .other (.str "    retq\n")

/-- The failure of a program that has this text in it. -/
def returnFailure : Fault := .failure "error in convert_instr, unhandled '    retq\\n'"

theorem frame_flat (is space) : frame { code := .flat is, stackSpace := some space } =
      .ok { code := .flat (enterFrame space ++ is ++ leaveFrame space ++ [returnText]),
            stackSpace := some space } := by
  rw [append_assoc]
  rfl

theorem isPlain_enterFrame (space) : (enterFrame space).all isPlain := rfl

theorem isPlain_leaveFrame (space) : (leaveFrame space).all isPlain := rfl

/-- A text is no instruction, and code with one in it is not even converted. -/
theorem trees_returnText (his : is.all isPlain) :
    trees (is ++ [returnText]) = .error returnFailure := by
  induction is with
  | nil => rfl
  | cons i is ih =>
    rw [all_cons, Bool.and_eq_true] at his
    rw [cons_append, trees, tree_eq his.1, ih his.2]
    rfl

theorem runTerm_returnText (his : is.all isPlain) (space m) :
    runTerm (Assembly.toTerm
      { code := .flat (is ++ [returnText]), stackSpace := space }) m =
        (.error returnFailure, m) := by
  have hcode : codeTree? (Assembly.toTerm
      { code := .flat (is ++ [returnText]), stackSpace := space }) = .error returnFailure := by
    rw [codeTree?_eq, trees_returnText his]
    · rfl
    · rw [map_append, map_append, map_ofTerm_toTerm his]
      rfl
  rw [runTerm, hcode]

/-- With an instruction in place of the text, the program returns. -/
theorem Runs.mainRun_return (h : Runs is m n) (hn : n.logging = false) :
    (X86.mainRun (is ++ [.op "retq" []])).run m = .ok () n := by
  obtain ⟨blocks, enter, hblocks⟩ := mainRun_eq (is ++ [.op "retq" []])
  rw [hblocks, map_append, h]
  exact (run_next (run_log hn _)).trans rfl

/-! ## Settled code -/

/-- The operand is a constant, one of two registers, or one of the first `k` places of the frame. -/
inductive Operand.Settled (k : Nat) : Operand → Prop where
  | immediate (v) : Settled k (.immediate v)
  | reg (h : r = "rax" ∨ r = "rdi") : Settled k (.reg r)
  | place (h : j < k) : Settled k (place j)

/-- The instruction is arithmetic on such operands, or a call that prints or reads a number. -/
structure Instr.Settled (k : Nat) (i : Instr) : Prop where
  straight : i.isStraight
  operands : ∀ a ∈ i.operands, a.Settled k

variable {k : Nat} {a : Operand} {r : String}

theorem Operand.Settled.isPlain (h : a.Settled k) : a.isPlain := by
  cases h <;> rfl

theorem Operand.Settled.mono (hkl : k ≤ l) (h : a.Settled k) : a.Settled l := by
  cases h with
  | immediate v => exact .immediate v
  | reg h => exact .reg h
  | place h => exact .place (Nat.lt_of_lt_of_le h hkl)

theorem Instr.Settled.mono {l} (hkl : k ≤ l) {i : Instr} (h : i.Settled k) : i.Settled l :=
  ⟨h.straight, fun a ha => (h.operands a ha).mono hkl⟩

theorem all_isStraight_of_settled {is : List Instr} (h : ∀ i ∈ is, i.Settled k) :
    is.all isStraight :=
  all_eq_true.mpr fun i hi => (h i hi).straight

/-! ## A machine with another frame -/

theorem address_ne_base (hb : inRange b) (hk : k < maxPlaces) : address b k ≠ .word b := by
  intro h
  have hword : wrap (b + offset k) = wrap b := (Cell.word.inj h).trans (wrap_of_inRange hb).symm
  rw [maxPlaces] at hk
  have hoffset : b + offset k = b := by
    refine eq_of_wrap_eq hword ?_
    rw [offset, modulus]
    omega
  rw [offset] at hoffset
  omega

/-- The machine `n` has the first `k` places of the machine `m` in a frame with the base `b`, where
it keeps the base of `m`, and both are alike apart from that. The top of its stack is `top`. -/
structure Moved (k : Nat) (b top : Int) (m n : Machine) : Prop where
  base : AtBase 1000 m
  base' : AtBase b n
  top : get? n.registers "rsp" = some (.word top)
  kept : n.cellAt (.word b) = .word 1000
  registers : ∀ r, r ≠ "rbp" → r ≠ "rsp" → n.register r = m.register r
  cells : ∀ j < k, n.cellAt (address b j) = m.cellAt (address 1000 j)
  output : n.output = m.output
  console : n.console = m.console
  quiet : m.logging = false
  quiet' : n.logging = false

namespace Moved

variable {b top : Int} {m n : Machine}

theorem logs (k b top) : Logs (Moved k b top) := Quiet.logs fun _ _ h => ⟨h.quiet, h.quiet'⟩

variable (h : Moved k b top m n)
include h

theorem setRegister (hrbp : r ≠ "rbp") (hrsp : r ≠ "rsp") (c) :
    Moved k b top (m.setRegister r c) (n.setRegister r c) := by
  refine { h with
    base := h.base.setRegister hrbp c
    base' := h.base'.setRegister hrbp c
    top := ?_
    registers := fun s hs hs' => ?_ }
  · rw [Machine.setRegister, Bindings.get?_put, if_neg (by simpa using Ne.symm hrsp), h.top]
  · rw [register_setRegister, register_setRegister, h.registers s hs hs']

theorem touch (hrbp : r ≠ "rbp") (hrsp : r ≠ "rsp") :
    Moved k b top (m.touch { name := r }) (n.touch { name := r }) := by
  have hbase : AtBase 1000 (m.touch { name := r }) := (get?_touch (Ne.symm hrbp)).trans h.base
  have hbase' : AtBase b (n.touch { name := r }) := (get?_touch (Ne.symm hrbp)).trans h.base'
  have htop : get? (n.touch { name := r }).registers "rsp" = some (.word top) :=
    (get?_touch (Ne.symm hrsp)).trans h.top
  have hregisters : ∀ s, s ≠ "rbp" → s ≠ "rsp" →
      (n.touch { name := r }).register s = (m.touch { name := r }).register s := fun s hs hs' => by
    rw [register_touch, register_touch, h.registers s hs hs']
  obtain ⟨_, _, hm⟩ := touch_eq m { name := r }
  obtain ⟨_, _, hn⟩ := touch_eq n { name := r }
  rw [hm] at hbase hregisters ⊢
  rw [hn] at hbase' htop hregisters ⊢
  exact { h with base := hbase, base' := hbase', top := htop, registers := hregisters }

theorem readCell (a) :
    Moved k b top (if has m.memory a then m else m.setCell a .empty) n := by
  split
  · exact h
  · next ha =>
    refine { h with cells := fun j hj => ?_ }
    rw [cellAt_setCell_empty (by simpa using ha), h.cells j hj]

theorem readCell' (a) :
    Moved k b top m (if has n.memory a then n else n.setCell a .empty) := by
  split
  · exact h
  · next ha =>
    have hcell := cellAt_setCell_empty (by simpa using ha)
    exact { h with
      kept := (hcell _).trans h.kept
      cells := fun j hj => (hcell _).trans (h.cells j hj) }

theorem setCell (hb : inRange b) (hk : k ≤ maxPlaces) (hj : j < k) (c) :
    Moved k b top (m.setCell (address 1000 j) c) (n.setCell (address b j) c) := by
  have hbound : ∀ {l : Nat}, l < k → l < maxPlaces := fun hl => Nat.lt_of_lt_of_le hl hk
  refine { h with kept := ?_, cells := fun l hl => ?_ }
  · rw [cellAt_setCell, if_neg (Ne.symm (address_ne_base hb (hbound hj))), h.kept]
  · rw [cellAt_setCell, cellAt_setCell]
    by_cases hlj : l = j
    · subst hlj
      rw [if_pos rfl, if_pos rfl]
    · -- other places stay as they are in both frames, although addresses wrap around
      have hne : ∀ b, address b l ≠ address b j := fun b hadr =>
        hlj (address_inj (hbound hl) (hbound hj) hadr)
      rw [if_neg (hne b), if_neg (hne 1000), h.cells l hl]

end Moved

section

variable {b top : Int}

theorem sameOperand_reg_moved (hr : r = "rax" ∨ r = "rdi") :
    SameOperand (Moved k b top) (Operand.reg r).node (Operand.reg r).node := by
  have hrbp : r ≠ "rbp" := by rcases hr with rfl | rfl <;> decide
  have hrsp : r ≠ "rsp" := by rcases hr with rfl | rfl <;> decide
  exact sameOperand_register
    (Lockstep.modifyGet fun _ _ hmn => ⟨hmn.registers r hrbp hrsp, hmn.touch hrbp hrsp⟩)
    fun _ _ c hmn => hmn.setRegister hrbp hrsp c

theorem sameOperand_moved (hb : inRange b) (hk : k ≤ maxPlaces) (ha : a.Settled k) :
    SameOperand (Moved k b top) a.node a.node := by
  cases ha with
  | immediate v => exact sameOperand_immediate v
  | reg hr => exact sameOperand_reg_moved hr
  | @place j hj =>
    have hj' : j < maxPlaces := Nat.lt_of_lt_of_le hj hk
    constructor
    · intro m n hmn
      rw [run_read_place hmn.base hj', run_read_place hmn.base' hj', hmn.cells j hj]
      exact .ok ⟨rfl, (hmn.readCell _).readCell' _⟩
    · intro c m n hmn
      rw [run_write_place hmn.base hj', run_write_place hmn.base' hj']
      exact .ok ⟨rfl, hmn.setCell hb hk hj c⟩

theorem lockstep_readInt_moved : Lockstep (Moved k b top) readInt readInt := by
  refine (Moved.logs k b top).readInt (fun m n hmn => ?_)
    fun _ _ c hmn => hmn.setRegister (by decide) (by decide) c
  rw [hmn.console]
  exact ⟨rfl, { hmn with console := rfl }⟩

theorem lockstep_moved (hb : inRange b) (hk : k ≤ maxPlaces) {is}
    (his : ∀ i ∈ is, i.Settled k) : Lockstep (Moved k b top) (mainRun is) (mainRun is) := by
  have hprint : Lockstep (Moved k b top) printInt printInt :=
    (Moved.logs k b top).printInt (sameOperand_reg_moved (.inr rfl)).read
      fun _ _ c hmn => { hmn with output := congrArg (· ++ [c]) hmn.output }
  have hcode := lockstep_replace (Moved.logs k b top) (f := id) (fun _ ha => ha) hprint
    lockstep_readInt_moved (all_isStraight_of_settled his)
    fun i hi a ha => sameOperand_moved hb hk ((his i hi).operands a ha)
  rwa [map_replace_id] at hcode

end

/-! ## Runs in a frame -/

section

/-- The base of the frame that is entered from the start. -/
def innerBase : Int := 992

/-- The machine in a new frame of so many bytes, before the code in the frame is run. -/
def innerStart (space : Int) (c : Console) : Machine :=
  { entered { console := c } with
    registers := [("rbp", .word innerBase), ("rsp", .word (sub innerBase space))]
    memory := [(.word innerBase, .word 1000)] }

theorem runs_enterFrame (hspace : inRange space) :
    Runs (enterFrame space) (entered { console := c }) (innerStart space c) := by
  -- all but the console is known at the start, so the tables on the way can be computed
  have hpush := runs_push (m := entered { console := c }) rfl (r := "rbp") (by decide) rfl rfl
  have hmove := Runs.append hpush (runs_move rfl (reads_register (r := "rsp") rfl)
    (writes_register _ "rbp"))
  exact Runs.append hmove
    (runs_sub rfl (reads_immediate _ hspace) (reads_register rfl) (writes_register ..))

theorem moved_innerStart (hk : k ≤ maxPlaces) :
    Moved k innerBase (sub innerBase space) (entered { console := c })
      (innerStart space c) where
  base := rfl
  base' := rfl
  top := rfl
  kept := rfl
  registers := by
    intro r hrbp hrsp
    rw [← beq_eq_false_iff_ne] at hrbp hrsp
    simp [register, innerStart, entered, get?, lookup_cons, hrbp, hrsp]
  cells := by
    intro j hj
    have hne := address_ne_base (b := innerBase) (by decide) (Nat.lt_of_lt_of_le hj hk)
    rw [← beq_eq_false_iff_ne] at hne
    simp [cellAt, innerStart, entered, get?, lookup_cons, hne]
  output := rfl
  console := rfl
  quiet := rfl
  quiet' := rfl

theorem runs_leaveFrame (hspace : inRange space)
    (h : Moved k innerBase (sub innerBase space) m n) :
    ∃ n', Runs (leaveFrame space) n n' ∧ n'.output = m.output ∧ n'.console = m.console ∧
      n'.register "rsp" = .word 1000 ∧ n'.register "rbp" = .word 1000 ∧ n'.logging = false := by
  have hadd := runs_add h.quiet' (reads_immediate n hspace) (reads_register h.top)
    (writes_register ..)
  have htop : add space (sub innerBase space) = innerBase := by
    rw [add, sub, wrap, wrap, modulus, least, innerBase]
    omega
  rw [htop] at hadd
  have hkept : get? n.memory (.word innerBase) = some (.word 1000) := by
    have hcell := h.kept
    rw [cellAt] at hcell
    cases hget : get? n.memory (.word innerBase) with
    | none => rw [hget] at hcell; cases hcell
    | some c => rw [hget] at hcell; exact congrArg some hcell
  have hrsp : get? (n.setRegister "rsp" (.word innerBase)).registers "rsp" =
      some (.word innerBase) := by simp [setRegister, get?_put]
  have hpop := runs_pop (m := n.setRegister "rsp" (.word innerBase)) h.quiet' "rbp" hrsp hkept
  refine ⟨_, hadd.append hpop, h.output, h.console, ?_, ?_, h.quiet'⟩
  · rw [register_setRegister, if_neg (by decide), register_setRegister, if_pos rfl]
    rfl
  · rw [register_setRegister, if_pos rfl]

variable (hspace : inRange space) (hk : k ≤ maxPlaces) (his : ∀ i ∈ is, i.Settled k)
  (hrun : (mainRun is).run (entered { console := c }) = .ok () m)

include hspace hk his hrun

/-- Settled code that runs to its end by itself does so in a frame, and the old base is still kept
there. -/
theorem runs_entered :
    ∃ n, Runs (enterFrame space ++ is) (entered { console := c }) n ∧
      Moved k innerBase (sub innerBase space) m n := by
  obtain ⟨_, n, hrun', -, hmoved⟩ :=
    (lockstep_moved (by decide) hk his).run_ok (moved_innerStart hk) hrun
  exact ⟨n, (runs_enterFrame hspace).append
    (runs_of_mainRun (all_isStraight_of_settled his) hrun'), hmoved⟩

theorem runs_entered_take (l) :
    ∃ m' n, Runs (enterFrame space ++ is.take l) (entered { console := c }) n ∧
      Moved k innerBase (sub innerBase space) m' n := by
  have hstraight := all_isStraight_of_settled his
  have his' : ∀ i ∈ is.take l, i.Settled k := fun i hi => his i (mem_of_mem_take hi)
  have hstraight' := all_isStraight_of_settled his'
  -- the whole run goes through the end of its first part
  have hparts : (straightRun (is.take l) >>= fun _ => straightRun (is.drop l)).run
      (entered { console := c }) = .ok () m := by
    rw [← straightRun_append hstraight', take_append_drop, ← mainRun_straight hstraight, hrun]
  obtain ⟨_, m', hfirst, -⟩ := next_ok hparts
  rw [← mainRun_straight hstraight'] at hfirst
  obtain ⟨n, hruns, hmoved⟩ := runs_entered hspace hk his' hfirst
  exact ⟨m', n, hruns, hmoved⟩

/-- Settled code that runs to its end by itself does so in a frame, with the same output, and after
it both registers of the stack are what they were. -/
theorem runs_framed :
    ∃ n, Runs (enterFrame space ++ is ++ leaveFrame space) (entered { console := c }) n ∧
      n.output = m.output ∧ n.console = m.console ∧ n.register "rsp" = .word 1000 ∧
      n.register "rbp" = .word 1000 ∧ n.logging = false := by
  obtain ⟨n, hruns, hmoved⟩ := runs_entered hspace hk his hrun
  obtain ⟨n', hruns', hend⟩ := runs_leaveFrame hspace hmoved
  exact ⟨n', hruns.append hruns', hend⟩

end

end CompilerKit.X86
