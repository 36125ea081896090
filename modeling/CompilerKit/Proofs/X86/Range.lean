import CompilerKit.Proofs.X86.Straight

/-!
# The range of words

All arithmetic of the machine wraps its results into 64 bits, except for the two instructions of the
stack: they move the stack pointer by eight without wrapping it. Code without them keeps the words
of the machine in their range.

* `keeps_step`: an instruction keeps the words in range, if the blocks of the program do so. There
  is a case for each instruction.
* `keeps_run`: so does a run, by induction on the depth and along the code.
* `mayReach_ranged`: at every instruction that a run comes to the words are in range.
-/

namespace CompilerKit.X86

open Emulation Bindings Machine EStateM

variable {α β : Type} {m m' : Machine} {c : Cell}

/-! ## Machines in range -/

/-- The cell is empty or holds a word of 64 bits. -/
def Cell.isNarrow : Cell → Bool
  | .empty => true
  | .word n => Word.inRange n
  | _ => false

/-- What is in a register other than the flags, in a variable or in memory, and what has been
printed, is narrow. -/
structure Machine.Ranged (m : Machine) : Prop where
  registers : ∀ e ∈ m.registers, e.1 ≠ flagsRegister → e.2.isNarrow
  vars : ∀ e ∈ m.vars, e.2.isNarrow
  memory : ∀ e ∈ m.memory, e.2.isNarrow
  output : ∀ c ∈ m.output, c.isNarrow

theorem isNarrow_getD {κ : Type} [BEq κ] [LawfulBEq κ] {es : List (κ × Cell)} {x : κ}
    (h : ∀ c, (x, c) ∈ es → c.isNarrow) : ((get? es x).getD .empty).isNarrow := by
  cases hx : get? es x with
  | none => rfl
  | some c => exact h c (mem_of_get? hx)

namespace Machine.Ranged

theorem setRegister (h : m.Ranged) {r : String} (hc : r ≠ flagsRegister → c.isNarrow) :
    (m.setRegister r c).Ranged :=
  { h with registers := forall_put h.registers hc }

theorem setVariable (h : m.Ranged) (x : String) (hc : c.isNarrow) : (m.setVariable x c).Ranged :=
  { h with vars := forall_put h.vars hc }

theorem setCell (h : m.Ranged) (a : Cell) (hc : c.isNarrow) : (m.setCell a c).Ranged :=
  { h with memory := forall_put h.memory hc }

theorem write (h : m.Ranged) (console : Console) : { m with console }.Ranged := { h with }

theorem touch (h : m.Ranged) (b : Base) : (m.touch b).Ranged := by
  unfold Machine.touch
  split
  · exact h
  · exact { h with registers := forall_put h.registers fun _ => rfl }

end Machine.Ranged

/-! ## Computations that stay in range -/

/-- A machine in range is left behind, also by a failure, and a result has the property. -/
inductive Within (P : α → Prop) : Result MachineError Machine α → Prop where
  | ok {a : α} {m : Machine} (ha : P a) (hm : m.Ranged) : Within P (.ok a m)
  | error {e : MachineError} {m : Machine} (hm : m.Ranged) : Within P (.error e m)

/-- From a machine in range the computation stays in range. -/
def Ranging (x : Emulation α) (P : α → Prop) : Prop := ∀ m, m.Ranged → Within P (x.run m)

/-- The computation stays in range, whatever its result is. -/
abbrev KeepsRange (x : Emulation α) : Prop := Ranging x fun _ => True

namespace Ranging

variable {P : α → Prop} {Q : β → Prop} {x : Emulation α} {a : α}

theorem pure (ha : P a) : Ranging (pure a) P := fun _ hm => .ok ha hm

theorem throw (e : MachineError) : Ranging (throw e) P := fun _ hm => .error hm

theorem modifyGet {f : Machine → α × Machine}
    (h : ∀ m, m.Ranged → P (f m).1 ∧ (f m).2.Ranged) :
    Ranging (modifyGet f) P := fun m hm => .ok (h m hm).1 (h m hm).2

theorem bind {f : α → Emulation β} (hx : Ranging x P) (hf : ∀ a, P a → Ranging (f a) Q) :
    Ranging (x >>= f) Q := by
  intro m hm
  have h := hx m hm
  rw [run_bind]
  generalize x.run m = r at h
  cases h with
  | ok ha hm' => exact hf _ ha _ hm'
  | error hm' => exact .error hm'

theorem ranged (hx : Ranging x P) (hm : m.Ranged) (hrun : x.run m = .ok a m') : m'.Ranged := by
  have h := hx m hm
  rw [hrun] at h
  cases h with
  | ok _ hm' => exact hm'

end Ranging

theorem keeps_log (s : String) : KeepsRange (log s) := by
  refine Ranging.modifyGet fun m hm => ⟨trivial, ?_⟩
  dsimp only
  split
  · exact hm.write _
  · exact hm

theorem keeps_logState : KeepsRange logState := by
  intro m hm
  unfold logState
  rw [run_bind, run_get]
  dsimp only
  split
  · split
    · exact .ok trivial (hm.write _)
    · exact .error hm
  · exact .ok trivial hm

/-! ## Operands -/

/-- The operand is neither the register of the flags nor a global. -/
def Argument.isLocal : Argument → Bool
  | register r => r != flagsRegister
  | global _ _ => false
  | _ => true

theorem safe_readRegister (b : Base) :
    Ranging (readRegister b) fun c => b.name ≠ flagsRegister → c.isNarrow :=
  Ranging.modifyGet fun _ hm =>
    ⟨fun hb => isNarrow_getD fun c hc => hm.registers (b.name, c) hc hb, hm.touch b⟩

theorem keeps_wordOf (c : Cell) : KeepsRange (wordOf c) := by
  unfold wordOf
  split
  · exact .pure trivial
  · exact .throw _

/-- An immediate operand is checked to be a word. -/
theorem safe_eval (v : Immediate) : Ranging v.eval fun n => Word.inRange n := by
  unfold Immediate.eval
  cases hv : v.value with
  | error e => exact .throw e
  | ok n =>
    refine .pure ?_
    cases v with
    | number t =>
      simp only [Immediate.value] at hv
      split at hv
      · cases hv
      · split at hv
        · next hn => cases hv; exact hn
        · cases hv
    | nested | unknown => cases hv

theorem keeps_addressOf (v : Immediate) (b : Base) : KeepsRange (addressOf v b) := by
  refine (safe_readRegister b).bind fun start _ => ?_
  refine (safe_eval v).bind fun n _ => ?_
  exact (keeps_wordOf start).bind fun _ _ => .pure trivial

theorem keeps_checkAddress (a : Cell) : KeepsRange (checkAddress a) := by
  cases a with
  | code l => exact .throw _
  | _ => exact .pure trivial

theorem safe_readCell (a : Cell) : Ranging (readCell a) fun c => c.isNarrow := by
  refine (keeps_checkAddress a).bind fun _ _ => Ranging.modifyGet fun m hm => ⟨?_, ?_⟩
  · exact isNarrow_getD fun c hc => hm.memory (a, c) hc
  · dsimp only
    split
    · exact hm
    · exact hm.setCell a rfl

theorem keeps_writeCell (a : Cell) (hc : c.isNarrow) : KeepsRange (writeCell a c) :=
  (keeps_checkAddress a).bind fun _ _ => Ranging.modifyGet fun _ hm => ⟨trivial, hm.setCell a hc⟩

theorem safe_readOperand {t : ParseTree} (ht : (Argument.ofTree t).isLocal) :
    Ranging (readOperand t) fun c => c.isNarrow := by
  unfold readOperand
  cases harg : Argument.ofTree t with
  | register r =>
    rw [harg] at ht
    exact fun m hm => .ok (isNarrow_getD fun c hc => hm.registers (r, c) hc (bne_iff_ne.mp ht))
      (hm.touch _)
  | «variable» x =>
    refine Ranging.modifyGet fun m hm => ⟨isNarrow_getD fun c hc => hm.vars (x, c) hc, ?_⟩
    dsimp only
    split
    · exact hm
    · exact hm.setVariable x rfl
  | immediate v => exact (safe_eval v).bind fun n hn => .pure hn
  | negative v => exact (safe_eval v).bind fun n _ => .pure (Word.inRange_wrap _)
  | offset v b => exact (keeps_addressOf v b).bind fun a _ => safe_readCell a
  | global x base => rw [harg] at ht; cases ht
  | direct | other => exact .throw _

theorem keeps_writeOperand {t : ParseTree} (ht : (Argument.ofTree t).isLocal) (hc : c.isNarrow) :
    KeepsRange (writeOperand t c) := by
  unfold writeOperand
  cases harg : Argument.ofTree t with
  | register r => exact Ranging.modifyGet fun _ hm => ⟨trivial, hm.setRegister fun _ => hc⟩
  | «variable» x => exact Ranging.modifyGet fun _ hm => ⟨trivial, hm.setVariable x hc⟩
  | offset v b => exact (keeps_addressOf v b).bind fun a _ => keeps_writeCell a hc
  | direct b => exact (safe_readRegister b).bind fun a _ => keeps_writeCell a hc
  | global x base => rw [harg] at ht; cases ht
  | immediate | negative | other => exact .throw _

/-! ## Instructions -/

/-- The instruction works on numbers in local operands. It does not move the stack pointer by
itself, takes no address of code and leaves the heap alone. -/
def isNumeric (op : Opcode) (args : List ParseTree) : Bool :=
  match op with
  | .jump _ => true
  | .call => args.all fun t => nameOf t != "initialize" && nameOf t != "collect"
  | .push | .pop | .address | .callIndirect | .jumpIndirect => false
  | _ => args.all fun t => (Argument.ofTree t).isLocal

theorem safe_firstOf {Q : ParseTree → Prop} {args : List ParseTree} (h : ∀ t ∈ args, Q t) :
    Ranging (firstOf args) Q := by
  cases args with
  | nil => exact .throw _
  | cons t args => exact .pure (h t List.mem_cons_self)

theorem safe_pairOf {Q : ParseTree → Prop} {args : List ParseTree} (h : ∀ t ∈ args, Q t) :
    Ranging (pairOf args) fun p => Q p.1 ∧ Q p.2 := by
  match args with
  | [a, b] => exact .pure ⟨h a (by simp), h b (by simp)⟩
  | [] | [_] | _ :: _ :: _ :: _ => exact .throw _

/-- Whatever the numbers are, the result is wrapped. -/
theorem keeps_combine {f : Int → Int → Int} (hf : ∀ x y, Word.inRange (f x y))
    {args : List ParseTree} (h : ∀ t ∈ args, (Argument.ofTree t).isLocal) :
    KeepsRange (combine f args) := by
  refine (safe_pairOf h).bind fun p hp => ?_
  refine (safe_readOperand hp.1).bind fun x _ => ?_
  refine (safe_readOperand hp.2).bind fun y _ => ?_
  refine (keeps_wordOf x).bind fun i _ => ?_
  exact (keeps_wordOf y).bind fun j _ => keeps_writeOperand hp.2 (hf i j)

theorem keeps_flags (c : Condition) : KeepsRange c.flags := by
  cases c with
  | always => exact .pure trivial
  | _ => exact (safe_readRegister _).bind fun _ _ => .pure trivial

theorem keeps_compareCells (args : List ParseTree) (a b : Cell) :
    KeepsRange (compareCells args a b) := by
  unfold compareCells
  split
  · exact .pure trivial
  · exact .pure trivial
  · exact .pure trivial
  · split
    · exact .pure trivial
    · exact .throw _
  · split <;> first | exact .pure trivial | exact .throw _

theorem keeps_printInt : KeepsRange printInt := by
  refine (safe_readRegister { name := "rdi" }).bind fun c hc => ?_
  refine (keeps_log _).bind fun _ _ => ?_
  refine (Ranging.modifyGet (P := fun _ => True) fun m hm => ⟨trivial, ?_⟩).bind
    fun _ _ => keeps_logState
  exact { hm with
    output := List.forall_mem_append.mpr ⟨hm.output, by simpa using hc (by decide)⟩ }

theorem keeps_readInt : KeepsRange readInt := by
  intro m hm
  unfold readInt
  rw [run_bind, run_modifyGet]
  cases hread : m.console.readInt with
  | mk r console =>
    cases r with
    | error f => exact .error (hm.write console)
    | ok n =>
      have hset : KeepsRange (modify fun m => m.setRegister "rax" (.word n) : Emulation Unit) :=
        Ranging.modifyGet fun _ hm =>
          ⟨trivial, hm.setRegister fun _ => Console.inRange_readInt hread⟩
      refine (hset.bind fun _ _ => ?_) _ (hm.write console)
      exact (keeps_log _).bind fun _ _ => keeps_logState

section

variable {blocks : Blocks} {enter : List ParseTree → Emulation Unit}
  (henter : ∀ b ∈ blocks, KeepsRange (enter b.2))
include henter

theorem keeps_callLabel {label : String} (hset : label ≠ "initialize")
    (hcollect : label ≠ "collect") : KeepsRange (callLabel blocks enter label) := by
  unfold callLabel
  split
  · exact keeps_printInt
  · exact keeps_readInt
  · exact (hset rfl).elim
  · exact (hcollect rfl).elim
  · unfold callBlock
    split
    · next code hcode => exact henter _ (mem_of_get? hcode)
    · exact .throw _

theorem keeps_jumpTo (label : String) : KeepsRange (jumpTo blocks enter label) := by
  unfold jumpTo
  split
  · next code hcode => exact henter _ (mem_of_get? hcode)
  · split
    · exact .pure trivial
    · exact .throw _

/-- An instruction stays in range, if all blocks of the program do so. -/
theorem keeps_step {op : Opcode} {args : List ParseTree} (hop : isNumeric op args) :
    KeepsRange (step blocks enter op args) := by
  have hargs : args.all (fun t => (Argument.ofTree t).isLocal) →
      ∀ t ∈ args, (Argument.ofTree t).isLocal := fun h t ht => List.all_eq_true.mp h t ht
  cases op with
  | move =>
    refine (safe_pairOf (hargs hop)).bind fun p hp => ?_
    refine (safe_readOperand hp.1).bind fun c hc => ?_
    exact (keeps_writeOperand hp.2 hc).bind fun _ _ => .pure trivial
  | add | sub | xor =>
    refine (keeps_combine (fun _ _ => ?_) (hargs hop)).bind fun _ _ => .pure trivial
    exact Word.inRange_wrap _
  | neg =>
    refine (safe_firstOf (hargs hop)).bind fun a ha => ?_
    refine (safe_readOperand ha).bind fun c _ => ?_
    refine (keeps_wordOf c).bind fun n _ => ?_
    have hword : (Cell.word (Word.neg n)).isNarrow := Word.inRange_wrap _
    exact (keeps_writeOperand ha hword).bind fun _ _ => .pure trivial
  | jump c =>
    refine (safe_firstOf (Q := fun _ => True) fun _ _ => trivial).bind fun a _ => ?_
    refine (keeps_flags c).bind fun flags _ => ?_
    split
    · exact (keeps_jumpTo henter _).bind fun _ _ => .pure trivial
    · exact .pure trivial
  | set c =>
    refine (safe_firstOf (hargs hop)).bind fun a ha => ?_
    refine (keeps_flags c).bind fun flags _ => ?_
    have hbit : (Cell.word (if c.sets flags then 1 else 0)).isNarrow := by
      split
      · decide
      · decide
    exact (keeps_writeOperand ha hbit).bind fun _ _ => .pure trivial
  | call =>
    have hlabels : ∀ t ∈ args, nameOf t ≠ "initialize" ∧ nameOf t ≠ "collect" := fun t ht => by
      simpa using List.all_eq_true.mp hop t ht
    refine (safe_firstOf hlabels).bind fun a ha => ?_
    exact (keeps_callLabel henter ha.1 ha.2).bind fun _ _ => .pure trivial
  | ret => exact .pure trivial
  | compare =>
    refine (safe_pairOf (hargs hop)).bind fun p hp => ?_
    refine (safe_readOperand hp.1).bind fun x _ => ?_
    refine (safe_readOperand hp.2).bind fun y _ => ?_
    refine (keeps_compareCells args x y).bind fun outcome _ => ?_
    refine (Ranging.modifyGet (P := fun _ => True) fun m hm => ⟨trivial, ?_⟩).bind
      fun _ _ => .pure trivial
    exact hm.setRegister fun hflags => (hflags rfl).elim
  | push | pop | address | callIndirect | jumpIndirect => cases hop
  | unknown name => exact .throw _

end

/-! ## Runs -/

/-- The instruction is one that works on numbers. -/
def isNumericTree : ParseTree → Bool
  | .node name args _ => isNumeric (.ofName name) args
  | _ => true

/-- A run that is about to run `code` on `m` may come to run `code'` on `m'`: it goes on to the next
instruction, or an instruction enters a block, after it has looked at the flags. -/
inductive MayReach (blocks : Blocks) :
    List ParseTree → Machine → List ParseTree → Machine → Prop where
  | here (code m) : MayReach blocks code m code m
  | next {name args span rest m m₁ m₂ m₃ code' m'} (k : Nat) (s : String)
      (hlog : (log s).run m = .ok () m₁)
      (hstep : (step blocks (run blocks k) (.ofName name) args).run m₁ = .ok .next m₂)
      (hshow : logState.run m₂ = .ok () m₃) (hrest : MayReach blocks rest m₃ code' m') :
      MayReach blocks (.node name args span :: rest) m code' m'
  | enter {name args span rest m m₁ m₂ label code flags code' m'} (s : String) (c : Condition)
      (hlog : (log s).run m = .ok () m₁) (hflags : c.flags.run m₁ = .ok flags m₂)
      (hblock : (label, code) ∈ blocks) (hcode : MayReach blocks code m₂ code' m') :
      MayReach blocks (.node name args span :: rest) m code' m'

section

variable {blocks : Blocks} (hblocks : ∀ b ∈ blocks, b.2.all isNumericTree)
include hblocks

/-- Code that works on numbers stays in range, however deep it may go. -/
theorem keeps_run (k : Nat) {code : List ParseTree} (hcode : code.all isNumericTree) :
    KeepsRange (run blocks k code) := by
  induction k generalizing code with
  | zero => exact .throw _
  | succ k ihk =>
    change KeepsRange (runWith blocks (run blocks k) code)
    induction code with
    | nil => exact .pure trivial
    | cons t rest ih =>
      rw [List.all_cons, Bool.and_eq_true] at hcode
      cases t with
      | node name args span =>
        have hstep := keeps_step (fun b hb => ihk (hblocks b hb)) hcode.1
        refine (keeps_log _).bind fun _ _ => hstep.bind fun flow _ => ?_
        cases flow with
        | leave => exact .pure trivial
        | next => exact keeps_logState.bind fun _ _ => ih hcode.2
      | _ => exact .throw _

/-- In a program over instructions that work on numbers in local operands, which `pushq` and `popq`
are not among, the words stay in range: at every instruction that a run may come to, and where the
run ends or fails. -/
theorem mayReach_ranged {code : List ParseTree} (hcode : code.all isNumericTree) {m : Machine}
    (hm : m.Ranged) :
    (∀ code' m', MayReach blocks code m code' m' → m'.Ranged) ∧
      ∀ k, Within (fun _ => True) ((run blocks k code).run m) := by
  refine ⟨fun code' m' hreach => ?_, fun k => keeps_run hblocks k hcode m hm⟩
  induction hreach with
  | here => exact hm
  | next k s hlog hstep hshow _ ih =>
    rw [List.all_cons, Bool.and_eq_true] at hcode
    have hkeeps := keeps_step (fun b hb => keeps_run hblocks k (hblocks b hb)) hcode.1
    have hm₁ := (keeps_log s).ranged hm hlog
    exact ih hcode.2 (keeps_logState.ranged (hkeeps.ranged hm₁ hstep) hshow)
  | enter s c hlog hflags hblock _ ih =>
    exact ih (hblocks _ hblock) ((keeps_flags c).ranged ((keeps_log s).ranged hm hlog) hflags)

end

/-- The machine that a program starts on is in range. -/
theorem ranged_initial (console : Console) : { console : Machine }.Ranged where
  registers := by
    change ∀ e ∈ [("rbp", Cell.word 1000), ("rsp", .word 1000)], _
    decide
  vars := by simp
  memory := by simp
  output := by simp

/-- Add one to the greatest word and print the sum. -/
def overflow : List ParseTree :=
  [Instr.op "movq" [.immediate (.int Word.greatest), .reg "rdi"],
    .op "addq" [.immediate (.int 1), .reg "rdi"], .call "print_int" (.int 1)].map Instr.node

theorem mayReach_ranged_overflow :
    overflow.all isNumericTree = true ∧
      Within (fun _ => True) ((run [("main", overflow)] maxDepth overflow).run {}) :=
  ⟨by decide, (mayReach_ranged (by decide) (by decide) (ranged_initial {})).2 maxDepth⟩

end CompilerKit.X86
