import CompilerKit.Proofs.X86.Straight

/-!
# What instructions do

The exact effect of the instructions that code over variables is made of, on a machine that keeps no
log and whose operands hold numbers.
-/

namespace CompilerKit.X86

open Emulation List Bindings Instr Machine EStateM Operand CompilerKit.Word CompilerKit.X86.Flow

variable {m : Machine} {n : Int}
variable {x : String} {console : Console}

/-! ## Operands -/

/-- The operand has the value `c`, and reading it changes nothing. -/
structure Reads (m : Machine) (a : Operand) (c : Cell) : Prop where
  plain : a.isPlain
  run : (readOperand a.node).run m = .ok c m

theorem reads_variable (h : m.variableCell x = .word n) : Reads m (.variable x) (.word n) := by
  have hhas : has m.vars x := by
    rw [variableCell] at h
    cases hx : get? m.vars x with
    | none => rw [hx] at h; cases h
    | some c => rw [has, hx]; rfl
  refine ⟨rfl, ?_⟩
  change Result.ok (m.variableCell x) (if has m.vars x = true then m else _) = _
  rw [h, if_pos hhas]

theorem reads_immediate (m) (h : inRange n) : Reads m (.immediate (.int n)) (.word n) := by
  have heval : (Immediate.number (.int n)).eval = pure n := by
    simp only [Immediate.eval, Immediate.value, wholeNumber, h, if_true]
  refine ⟨rfl, ?_⟩
  change (Immediate.eval (.number (.int n)) >>= fun n => pure (Cell.word n)).run m = _
  rw [heval]
  rfl

theorem reads_register (h : get? m.registers r = some c) : Reads m (.reg r) c := by
  refine ⟨rfl, ?_⟩
  change Result.ok (m.register r) (m.touch { name := r }) = _
  simp only [register, touch, has, h, Option.isSome_some, if_true, Option.getD_some]

/-- Writing a value `c` to the operand leads to the machine `w c`. -/
structure Writes (m : Machine) (a : Operand) (w : Cell → Machine) : Prop where
  plain : a.isPlain
  run : ∀ c, (writeOperand a.node c).run m = .ok () (w c)
  quiet : ∀ c, (w c).logging = m.logging

theorem writes_variable (m x) : Writes m (.variable x) (m.setVariable x) :=
  ⟨rfl, fun _ => rfl, fun _ => rfl⟩

theorem writes_register (m r) : Writes m (.reg r) (m.setRegister r) :=
  ⟨rfl, fun _ => rfl, fun _ => rfl⟩

theorem Reads.setVariable (hne : y ≠ x) (h : m.variableCell y = .word n) (c) :
    Reads (m.setVariable x c) (.variable y) (.word n) :=
  reads_variable (by rw [variableCell_setVariable, if_neg hne, h])

/-! ## Code -/

/-- The code runs to its end and leaves the machine `m'`, whatever code follows. -/
def Runs (is : List Instr) (m m' : Machine) : Prop :=
  ∀ blocks enter rest, (Machine.runWith blocks enter (is.map Instr.node ++ rest)).run m =
    (runWith blocks enter rest).run m'

theorem Runs.nil (m) : Runs [] m m := fun _ _ _ => rfl

theorem Runs.append (h : Runs is m m') (h' : Runs js m' m'') : Runs (is ++ js) m m'' := by
  intro blocks enter rest
  rw [map_append, append_assoc, h, h']

theorem Runs.mainRun (h : Runs is m m') : (mainRun is).run m = .ok () m' := by
  obtain ⟨blocks, enter, hblocks⟩ := mainRun_eq is
  have hrun := h blocks enter []
  rw [append_nil] at hrun
  rw [hblocks, hrun]
  rfl

theorem runs_of_mainRun (his : is.all isStraight)
    (h : (X86.mainRun is).run m = .ok () m') : Runs is m m' := by
  intro blocks enter rest
  rw [mainRun_straight his] at h
  rw [runWith_straight his, run_bind, h]

theorem Runs.single (hi : i.node = .bare name args) (hm : m.logging = false)
    (hm' : m'.logging = false)
    (h : ∀ blocks enter, (step blocks enter (.ofName name) args).run m = .ok .next m') :
    Runs [i] m m' := by
  intro blocks enter rest
  rw [map_singleton, singleton_append, hi]
  exact (run_next (run_log hm _)).trans ((run_next (h _ _)).trans (run_next (run_logState hm')))

theorem node_binary (ha : a.isPlain) (hb : b.isPlain) (name) :
    (op name [a, b]).node = .bare name [a.node, b.node] :=
  node_op (by rw [all_cons, all_cons, ha, hb]; rfl)

section

variable {k : Int}

variable (hm : m.logging = false)

include hm

section

variable {w : Cell → Machine}

theorem runs_move (ha : Reads m a c) (hw : Writes m b w) : Runs [.op "movq" [a, b]] m (w c) := by
  refine Runs.single (node_binary ha.plain hw.plain _) hm ((hw.quiet c).trans hm) fun _ _ => ?_
  exact (run_next ha.run).trans ((run_next (hw.run c)).trans rfl)

variable (ha : Reads m a (.word k)) (hb : Reads m b (.word l)) (hw : Writes m b w)
include ha hb hw

theorem runs_combine {f : Int → Int → Int} {name : String}
    (hname : ∀ blocks enter args, step blocks enter (.ofName name) args =
      (do combine f args; pure next)) :
    Runs [.op name [a, b]] m (w (.word (f k l))) := by
  refine Runs.single (node_binary ha.plain hb.plain _) hm ((hw.quiet _).trans hm) fun _ _ => ?_
  have hcombine : (combine f [a.node, b.node]).run m = .ok () (w (.word (f k l))) :=
    (run_next ha.run).trans ((run_next hb.run).trans (hw.run _))
  rw [hname]
  exact (run_next hcombine).trans rfl

theorem runs_add : Runs [.op "addq" [a, b]] m (w (.word (add k l))) :=
  runs_combine hm ha hb hw fun _ _ _ => rfl

theorem runs_sub : Runs [.op "subq" [a, b]] m (w (.word (sub l k))) :=
  runs_combine (f := fun i j => sub j i) hm ha hb hw fun _ _ _ => rfl

end

theorem runs_push (hr : r ≠ "rsp") (htop : get? m.registers "rsp" = some (.word top))
    (hc : get? m.registers r = some c) :
    Runs [.op "pushq" [.reg r]] m
      ((m.setRegister "rsp" (.word (top - 8))).setCell (.word (top - 8)) c) := by
  refine Runs.single (node_op rfl) hm hm fun blocks enter => ?_
  have hread : (readNamed "rsp").run m = .ok (.word top) m := (reads_register htop).run
  have hreads : Reads (m.setRegister "rsp" (.word (top - 8))) (.reg r) c :=
    reads_register (by rw [setRegister, get?_put, if_neg (by simpa using hr), hc])
  have hread' : (readNamed "rsp").run (m.setRegister "rsp" (.word (top - 8))) =
      .ok (.word (top - 8)) (m.setRegister "rsp" (.word (top - 8))) :=
    (reads_register (by simp [setRegister, get?_put])).run
  exact (run_next rfl).trans ((run_next hread).trans ((run_next rfl).trans ((run_next rfl).trans
    ((run_next hreads.run).trans ((run_next hread').trans rfl)))))

theorem runs_pop (r) (htop : get? m.registers "rsp" = some (.word top))
    (hc : get? m.memory (.word top) = some c) :
    Runs [.op "popq" [.reg r]] m ((m.setRegister "rsp" (.word (top + 8))).setRegister r c) := by
  refine Runs.single (node_op rfl) hm hm fun blocks enter => ?_
  have hread : (readNamed "rsp").run m = .ok (.word top) m := (reads_register htop).run
  have hcell : (readCell (.word top)).run m = .ok c m := by
    change Result.ok (m.cellAt (.word top)) (if has m.memory (.word top) = true then m else _) = _
    rw [cellAt, has, hc]
    rfl
  exact (run_next rfl).trans ((run_next hread).trans ((run_next hcell).trans rfl))

theorem runs_neg (hx : m.variableCell x = .word k) :
    Runs [.op "negq" [.variable x]] m (m.setVariable x (.word (neg k))) := by
  refine Runs.single (node_op rfl) hm hm fun blocks enter => ?_
  exact (run_next rfl).trans ((run_next (reads_variable hx).run).trans rfl)

theorem runs_readInt (h : m.console.readInt = (.ok n, console)) (k) :
    Runs [.call "read_int" k] m (setRegister { m with console } "rax" (.word n)) := by
  refine Runs.single rfl hm hm fun blocks enter => ?_
  have hread : readInt.run m = .ok () (setRegister { m with console } "rax" (.word n)) := by
    have hquiet : (setRegister { m with console } "rax" (.word n)).logging = false := hm
    unfold readInt
    rw [run_bind, run_modifyGet]
    simp only [h, run_bind, run_modify]
    rw [run_log hquiet]
    exact run_logState hquiet
  exact (run_next hread).trans rfl

theorem run_readInt_error (h : m.console.readInt = (.error f, console)) (k blocks)
    (enter : List ParseTree → Emulation Unit) (rest) :
    (runWith blocks enter ((call "read_int" k).node :: rest)).run m =
      .error (.fault f) { m with console } := by
  have hread : readInt.run m = .error (.fault f) { m with console } := by
    unfold readInt
    rw [run_bind, run_modifyGet]
    simp only [h]
    rfl
  refine (run_next (run_log hm _)).trans ?_
  change ((readInt >>= fun _ => pure next) >>= _).run m = _
  rw [run_bind, run_bind, hread]

theorem runs_printInt (h : get? m.registers "rdi" = some c) (k) :
    Runs [.call "print_int" k] m { m with output := m.output ++ [c] } := by
  refine Runs.single rfl hm hm fun blocks enter => ?_
  have hprint : printInt.run m = .ok () { m with output := m.output ++ [c] } := by
    have hrdi : (readNamed "rdi").run m = .ok c m := (reads_register h).run
    unfold printInt
    rw [run_bind, hrdi]
    simp only [run_bind, run_log hm, run_modify]
    exact run_logState hm
  exact (run_next hprint).trans rfl

end

end CompilerKit.X86
