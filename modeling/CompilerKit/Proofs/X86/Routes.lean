import CompilerKit.Proofs.X86.Written

/-!
# Two routes to the machine

A program can be turned into a code tree at once, or be written as a text, which is parsed again.
The trees that come out have other leaves: numbers and names against tokens. The machine does the
same with both, except for two kinds of operands. A number after a dollar is parsed to a number
inside a number, which the machine cannot read, and it does not know a negative offset.

* `mirrors_step`: an instruction does the same with both trees, up to two kinds of operands.
* `mirrors_run`: so does a run, by induction on its depth.
-/

namespace CompilerKit

open List Bindings EStateM X86.Instr X86.Machine

/-! ## Trees without places -/

mutual

/-- The tree without the places of its nodes and tokens. -/
def ParseTree.stripped : ParseTree → ParseTree
  | .node l cs _ => .bare l (strippeds cs)
  | .token t => .token { kind := t.kind, text := t.text }
  | .leaf t => .leaf t

def ParseTree.strippeds : List ParseTree → List ParseTree
  | [] => []
  | t :: ts => stripped t :: strippeds ts

end

variable {u : ParseTree} {cs us : List ParseTree} {k : Int} {a : Atom} {name : String} {l : Line}
  {ls : List Line}

namespace X86

open Emulation

theorem exists_node {l} (h : u.stripped = .bare l cs) :
    ∃ us info, u = .node l us info ∧ ParseTree.strippeds us = cs := by
  cases u with
  | node k us info =>
    obtain ⟨rfl, hus, -⟩ := ParseTree.node.inj h
    exact ⟨us, info, rfl, hus⟩
  | _ => cases h

theorem exists_cons {c} (h : ParseTree.strippeds us = c :: cs) :
    ∃ v vs, us = v :: vs ∧ v.stripped = c ∧ ParseTree.strippeds vs = cs := by
  cases us with
  | nil => cases h
  | cons v vs =>
    obtain ⟨hv, hvs⟩ := cons.inj h
    exact ⟨v, vs, rfl, hv, hvs⟩

theorem eq_nil (h : ParseTree.strippeds us = []) : us = [] := by
  cases us with
  | nil => rfl
  | cons v vs => cases h

theorem exists_token {t} (h : u.stripped = .token t) : ∃ t', u = .token t' ∧ t'.text = t.text := by
  cases u with
  | token t' =>
    cases h
    exact ⟨t', rfl, rfl⟩
  | _ => cases h

theorem exists_headed {l t} (h : u.stripped = .bare l (.token t :: cs)) :
    ∃ t' us info, u = .node l (.token t' :: us) info ∧ t'.text = t.text ∧
      ParseTree.strippeds us = cs := by
  obtain ⟨us, info, rfl, hus⟩ := exists_node h
  obtain ⟨v, vs, rfl, hv, hvs⟩ := exists_cons hus
  obtain ⟨t', rfl, ht⟩ := exists_token hv
  exact ⟨t', vs, info, rfl, ht, hvs⟩

/-! ## Machines that differ in what they have logged -/

/-- The second machine is the first with other texts on the console, and with registers that came
into the table by other tokens. -/
inductive Same : Machine → Machine → Prop where
  | intro {m c tokens} (input : c.input = m.console.input) :
      Same m { m with console := c, tokens := tokens }

namespace Same

theorem refl (m) : Same m m := .intro rfl

variable {m n : Machine} (h : Same m n)
include h

theorem setRegister (r c) : Same (m.setRegister r c) (n.setRegister r c) := by
  cases h with
  | intro input => exact .intro input

theorem setCell (a c) : Same (m.setCell a c) (n.setCell a c) := by
  cases h with
  | intro input => exact .intro input

theorem setGlobals (f : List (String × Cell) → List (String × Cell)) :
    Same { m with globals := f m.globals } { n with globals := f n.globals } := by
  cases h with
  | intro input => exact .intro input

theorem setOutput (f : List Cell → List Cell) :
    Same { m with output := f m.output } { n with output := f n.output } := by
  cases h with
  | intro input => exact .intro input

theorem register (r) : n.register r = m.register r := by
  cases h
  rfl

theorem memory : n.memory = m.memory := by
  cases h
  rfl

theorem globals : n.globals = m.globals := by
  cases h
  rfl

theorem touch {b'} (hname : b'.name = b.name) : Same (m.touch b) (n.touch b') := by
  cases h with
  | @intro c tokens input =>
    unfold touch
    rw [hname]
    by_cases hhas : has m.registers b.name
    · simp only [hhas, if_true]
      exact .intro input
    · simp only [if_neg hhas]
      exact .intro input

end Same

theorem same_log (s t) : Lockstep Same (log s) (log t) := by
  refine Lockstep.modify fun m n hmn => ?_
  cases hmn with
  | @intro c tokens input =>
    split
    · exact .intro input
    · exact .intro input

theorem same_logState : Lockstep Same logState logState := by
  intro m n hmn
  cases hmn with
  | @intro c tokens input =>
    unfold logState
    rw [run_bind, run_bind, run_get, run_get]
    dsimp only
    split
    · have htext : stateText { m with console := c, tokens := tokens } = m.stateText := rfl
      rw [htext]
      cases m.stateText with
      | ok s => exact .ok ⟨rfl, .intro input⟩
      | error e => exact .error (.intro input)
    · exact .ok ⟨rfl, .intro input⟩

theorem same_readRegister {b'} (hname : b'.name = b.name) :
    Lockstep Same (readRegister b) (readRegister b') :=
  Lockstep.modifyGet fun m n hmn => by
    rw [hname]
    exact ⟨hmn.register b.name, hmn.touch hname⟩

theorem same_readNamed (r) : Lockstep Same (readNamed r) (readNamed r) := same_readRegister rfl

/-! ## The runtime -/

theorem same_printInt : Lockstep Same printInt printInt := by
  refine Lockstep.bind (same_readNamed "rdi") fun c => ?_
  refine Lockstep.bind (same_log _ _) fun _ => ?_
  exact Lockstep.bind (Lockstep.modify fun m n hmn => hmn.setOutput (· ++ [c])) fun _ =>
    same_logState

theorem same_readInt : Lockstep Same readInt readInt := by
  refine Lockstep.bind (Lockstep.modifyGet fun m n hmn => ?_) fun r => ?_
  · cases hmn with
    | @intro c tokens input =>
      rw [Console.readInt_congr input]
      exact ⟨rfl, .intro rfl⟩
  · cases r with
    | error f => exact .throw _
    | ok n =>
      refine Lockstep.bind (Lockstep.modify fun m n hmn => hmn.setRegister "rax" _) fun _ => ?_
      exact Lockstep.bind (same_log _ _) fun _ => same_logState

theorem same_setUp : Lockstep Same setUp setUp := by
  refine Lockstep.bind (same_readNamed "rdi") fun roots => ?_
  refine Lockstep.bind (same_readNamed "rsi") fun heap => ?_
  refine Lockstep.bind (same_log _ _) fun _ => ?_
  refine Lockstep.bind (lockstep_wordOf roots) fun i => ?_
  refine Lockstep.bind (lockstep_wordOf heap) fun j => ?_
  exact Lockstep.bind (Lockstep.modify fun m n hmn => hmn.setGlobals (putAll · _)) fun _ =>
    same_logState

theorem same_globalCell (x) : Lockstep Same (globalCell x) (globalCell x) := by
  intro m n hmn
  unfold globalCell
  rw [run_bind, run_bind, run_get, run_get]
  dsimp only
  rw [hmn.globals]
  cases get? m.globals x with
  | some c => exact .ok ⟨rfl, hmn⟩
  | none => exact .error hmn

theorem same_collect : Lockstep Same collect collect := by
  refine Lockstep.bind (same_readNamed "rsi") fun needed => ?_
  refine Lockstep.bind (same_log _ _) fun _ => ?_
  refine Lockstep.bind (same_globalCell _) fun start => ?_
  refine Lockstep.bind (same_globalCell _) fun stop => ?_
  refine Lockstep.bind (lockstep_wordOf stop) fun j => ?_
  refine Lockstep.bind (lockstep_wordOf start) fun i => ?_
  refine Lockstep.bind (lockstep_wordOf needed) fun n => ?_
  dsimp only
  split
  · exact Lockstep.bind (Lockstep.modify fun m n hmn => hmn.setGlobals (put · _ _)) fun _ =>
      same_logState
  · exact .throw _

/-! ## Computations by both routes -/

/-- The errors have one cause, with other trees in their messages. -/
inductive SameCause : MachineError → MachineError → Prop where
  | refl (e) : SameCause e e
  | unwritable (t u : ParseTree) : SameCause (.unwritable t) (.unwritable u)
  | incomparable (t u : ParseTree) : SameCause (.incomparable t) (.incomparable u)

/-- The second run ends as the first does, or it stops at an operand that it cannot read: at a
number, where `I` holds, or at a negative offset, where `N` holds. -/
inductive Tracks (I N : Prop) {α : Type} :
    Result MachineError Machine α → Result MachineError Machine α → Prop where
  | ok {a m n} (h : Same m n) : Tracks I N (.ok a m) (.ok a n)
  | error {m n} (he : SameCause e e') (h : Same m n) : Tracks I N (.error e m) (.error e' n)
  | nested {n} (hI : I) : Tracks I N r (.error (.fault .wrongKind) n)
  | unknown {n} (hN : N) : Tracks I N r (.error (.unknownImmediate t) n)

/-- The second computation tracks the first on machines that are the same. -/
def Mirrors (I N : Prop) {α : Type} (x y : Emulation α) : Prop :=
  ∀ m n, Same m n → Tracks I N (x.run m) (y.run n)

section

variable {I N : Prop} {α β : Type}

namespace Mirrors

theorem of_lockstep {x y : Emulation α} (h : Lockstep Same x y) : Mirrors I N x y := by
  intro m n hmn
  have hend := h m n hmn
  generalize x.run m = r at hend
  generalize y.run n = r' at hend
  cases hend with
  | ok h =>
    obtain ⟨rfl, h⟩ := h
    exact .ok h
  | error h => exact .error (.refl _) h

theorem pure (a) : Mirrors I N (Pure.pure a : Emulation α) (Pure.pure a) := of_lockstep (.pure a)

theorem throw {e e'} (he : SameCause e e') : Mirrors I N (throw e : Emulation α) (throw e') :=
  fun _ _ hmn => .error he hmn

theorem bind {x y} {f g : α → Emulation β} (hxy : Mirrors I N x y)
    (hfg : ∀ a, Mirrors I N (f a) (g a)) : Mirrors I N (x >>= f) (y >>= g) := by
  intro m n hmn
  have hend := hxy m n hmn
  rw [run_bind, run_bind]
  generalize x.run m = r at hend
  generalize y.run n = r' at hend
  cases hend with
  | ok h => exact hfg _ _ _ h
  | error he h => exact .error he h
  | nested hI => exact .nested hI
  | unknown hN => exact .unknown hN

end Mirrors

/-! ## Operands -/

def Operand.isImmediate : Operand → Bool
  | .immediate _ => true
  | _ => false

/-- The operand has a negative offset. -/
def Operand.isBelow : Operand → Bool
  | .deref _ (.scalar (.int k)) => decide (k < 0)
  | _ => false

/-- The second operand is read and written as the first is. -/
structure MirrorsOperand (I N : Prop) (t u : ParseTree) : Prop where
  read : Mirrors I N (readOperand t) (readOperand u)
  write : ∀ c, Mirrors I N (writeOperand t c) (writeOperand u c)

theorem mirrors_register {r : Word registerNames.contains} (hu : u.stripped = (Arg.reg r).tree) :
    MirrorsOperand I N (Operand.reg r.text).node u := by
  obtain ⟨t, vs, info, rfl, ht, -⟩ := exists_headed hu
  have hread : readOperand (.node "reg_a" (.token t :: vs) info) = readNamed t.text := rfl
  have hwrite (c : Cell) : writeOperand (.node "reg_a" (.token t :: vs) info) c =
    modify fun m => m.setRegister t.text c := rfl
  constructor
  · rw [hread, ht]
    exact .of_lockstep (same_readNamed r.text)
  · intro c
    rw [hwrite, ht]
    exact .of_lockstep (Lockstep.modify fun _ _ hmn => hmn.setRegister r.text c)

theorem mirrors_immediate (hI : I) (hu : u.stripped = (Arg.int a).tree) :
    MirrorsOperand I N (Operand.immediate (.int k)).node u := by
  obtain ⟨us, info, rfl, hus⟩ := exists_node hu
  obtain ⟨v, vs, rfl, hv, -⟩ := exists_cons hus
  obtain ⟨l, ws, info', rfl⟩ : ∃ l ws info', v = .node l ws info' := by
    cases a with
    | number | neg =>
      obtain ⟨ws, info', rfl, -⟩ := exists_node hv
      exact ⟨_, _, _, rfl⟩
  exact ⟨fun m n _ => .nested hI, fun c => .throw (.unwritable _ _)⟩

theorem mirrors_deref {r : Word registerNames.contains} (ha : IntAtom k a) (hN : k < 0 → N)
    (hu : u.stripped = (Arg.mem a r).tree) :
    MirrorsOperand I N (Operand.deref r.text (.int k)).node u := by
  obtain ⟨us, info, rfl, hus⟩ := exists_node hu
  obtain ⟨v, vs, rfl, hv, hvs⟩ := exists_cons hus
  obtain ⟨w, ws, rfl, hw, hws⟩ := exists_cons hvs
  obtain rfl := eq_nil hws
  obtain ⟨t, rfl, ht⟩ := exists_token hw
  cases ha with
  | nonneg hk n hn =>
    obtain ⟨d, xs, info', rfl, hd, -⟩ := exists_headed hv
    have hvalue : (Immediate.number (.str d.text)).value = (Immediate.number (.int k)).value := by
      have hwhole : wholeNumber (.str d.text) = .ok k := by
        simp only [wholeNumber, Term.str?, hd, hn]
      rw [Immediate.value, hwhole]
      rfl
    refine ⟨.of_lockstep (lockstep_addressOf (same_readRegister ht) hvalue fun a => ?_), fun c =>
      .of_lockstep (lockstep_addressOf (same_readRegister ht) hvalue fun a => ?_)⟩
    · exact lockstep_readCell (fun _ _ hmn => hmn.memory) fun _ _ c hmn => hmn.setCell (.word a) c
    · exact lockstep_writeCell fun _ _ hmn => hmn.setCell (.word a) c
  | neg hk n =>
    obtain ⟨xs, info', rfl, -⟩ := exists_node hv
    exact ⟨fun m n _ => .unknown (hN hk), fun c m n _ => .unknown (hN hk)⟩

theorem mirrors_operand {a : Operand} (ha : a.Derives g) (hI : a.isImmediate → I)
    (hN : a.isBelow → N) (hu : u.stripped = g.tree) : MirrorsOperand I N a.node u := by
  cases ha with
  | immediate => exact mirrors_immediate (hI rfl) hu
  | reg r => exact mirrors_register hu
  | deref hk r => exact mirrors_deref hk (fun hlt => hN (decide_eq_true hlt)) hu

theorem Operand.Derives.isPlain {a : Operand} (h : a.Derives g) : a.isPlain := by
  cases h <;> rfl

/-! ## Instructions -/

theorem mirrors_compareCells (ts us c d) :
    Mirrors I N (compareCells ts c d) (compareCells us c d) := by
  unfold compareCells
  split
  · exact .pure _
  · exact .pure _
  · exact .pure _
  · split
    · exact .pure _
    · exact .throw (.refl _)
  · split
    · exact .pure _
    · exact .pure _
    · exact .pure _
    · exact .throw (.incomparable _ _)
    · exact .throw (.refl _)

section

variable {t : ParseTree} {blocks blocks' : Blocks}
  {enter enter' : List ParseTree → Emulation Unit}

theorem mirrors_combine (f : Int → Int → Int) (h : MirrorsOperand I N t u)
    (h' : MirrorsOperand I N t' u') : Mirrors I N (combine f [t, t']) (combine f [u, u']) := by
  refine h.read.bind fun x => h'.read.bind fun y => ?_
  refine (Mirrors.of_lockstep (lockstep_wordOf x)).bind fun i => ?_
  exact (Mirrors.of_lockstep (lockstep_wordOf y)).bind fun j => h'.write _

theorem mirrors_pair (hname : name ∈ ["movq", "addq", "subq", "xorq", "cmpq"])
    (h : MirrorsOperand I N t u) (h' : MirrorsOperand I N t' u') :
    Mirrors I N (step blocks enter (.ofName name) [t, t'])
      (step blocks' enter' (.ofName name) [u, u']) := by
  simp only [mem_cons, not_mem_nil, or_false] at hname
  rcases hname with rfl | rfl | rfl | rfl | rfl
  · exact h.read.bind fun c => (h'.write c).bind fun _ => .pure _
  · exact (mirrors_combine _ h h').bind fun _ => .pure _
  · exact (mirrors_combine _ h h').bind fun _ => .pure _
  · exact (mirrors_combine _ h h').bind fun _ => .pure _
  · refine h.read.bind fun x => h'.read.bind fun y => ?_
    refine (mirrors_compareCells _ _ x y).bind fun o => ?_
    exact .of_lockstep (Lockstep.bind
      (Lockstep.modify fun _ _ hmn => hmn.setRegister flagsRegister _) fun _ => .pure _)

theorem mirrors_single (hname : name ∈ ["negq", "pushq", "popq"]) (h : MirrorsOperand I N t u) :
    Mirrors I N (step blocks enter (.ofName name) [t])
      (step blocks' enter' (.ofName name) [u]) := by
  simp only [mem_cons, not_mem_nil, or_false] at hname
  have hrsp : Mirrors I N (readNamed "rsp") (readNamed "rsp") := .of_lockstep (same_readNamed "rsp")
  have hmove (c : Cell) :
      Mirrors I N (modify (·.setRegister "rsp" c)) (modify (·.setRegister "rsp" c)) :=
    .of_lockstep (Lockstep.modify fun _ _ hmn => hmn.setRegister "rsp" c)
  rcases hname with rfl | rfl | rfl
  · refine h.read.bind fun c => (Mirrors.of_lockstep (lockstep_wordOf c)).bind fun i => ?_
    exact (h.write _).bind fun _ => .pure _
  · let push (t : ParseTree) : Emulation Flow := do
      let top ← wordOf (← readNamed "rsp")
      modify (·.setRegister "rsp" (.word (top - 8)))
      let c ← readOperand t
      writeCell (← readNamed "rsp") c
      pure .next
    change Mirrors I N (push t) (push u)
    refine hrsp.bind fun c => (Mirrors.of_lockstep (lockstep_wordOf c)).bind fun top => ?_
    refine (hmove _).bind fun _ => h.read.bind fun c => hrsp.bind fun a => ?_
    exact .of_lockstep (Lockstep.bind (lockstep_writeCell fun _ _ hmn => hmn.setCell a c) fun _ =>
      .pure _)
  · let pop (t : ParseTree) : Emulation Flow := do
      let a ← readNamed "rsp"
      let c ← readCell a
      let top ← wordOf a
      modify (·.setRegister "rsp" (.word (top + 8)))
      writeOperand t c
      pure .next
    change Mirrors I N (pop t) (pop u)
    refine hrsp.bind fun a => ?_
    refine (Mirrors.of_lockstep (lockstep_readCell (fun _ _ hmn => hmn.memory)
      fun _ _ c hmn => hmn.setCell a c)).bind fun c => ?_
    refine (Mirrors.of_lockstep (lockstep_wordOf a)).bind fun top => ?_
    exact (hmove _).bind fun _ => (h.write c).bind fun _ => .pure _

/-- The blocks of two programs are run alike. -/
structure MirrorsBlocks (I N : Prop) (blocks blocks' : Blocks)
    (enter enter' : List ParseTree → Emulation Unit) : Prop where
  call : ∀ l, Mirrors I N (callBlock blocks enter l) (callBlock blocks' enter' l)
  jump : ∀ l, Mirrors I N (jumpTo blocks enter l) (jumpTo blocks' enter' l)

theorem mirrors_callLabel (h : MirrorsBlocks I N blocks blocks' enter enter') (l) :
    Mirrors I N (callLabel blocks enter l) (callLabel blocks' enter' l) := by
  unfold callLabel
  split
  · exact .of_lockstep same_printInt
  · exact .of_lockstep same_readInt
  · exact .of_lockstep same_setUp
  · exact .of_lockstep same_collect
  · exact h.call _

theorem Instr.Derives.all_isPlain {i : Instr} (h : i.Derives l) :
    i.operands.all Operand.isPlain := by
  cases h with
  | pair op hop ha hb => simp [operands, ha.isPlain, hb.isPlain]
  | single op hop ha => simp [operands, ha.isPlain]
  | _ => rfl

/-- The operands of the instruction that a parsed program cannot read. -/
def Instr.hasImmediate (i : Instr) : Bool := i.operands.any Operand.isImmediate

def Instr.hasBelow (i : Instr) : Bool := i.operands.any Operand.isBelow

theorem mirrors_step (h : MirrorsBlocks I N blocks blocks' enter enter') {i : Instr}
    (hi : i.Derives l) (hI : i.hasImmediate → I) (hN : i.hasBelow → N)
    (hu : u.stripped = l.tree) :
    ∃ name ts us info, i.node = .bare name ts ∧ u = .node name us info ∧
      Mirrors I N (step blocks enter (.ofName name) ts)
        (step blocks' enter' (.ofName name) us) := by
  have hplain := hi.all_isPlain
  cases hi with
  | pair op hop ha hb =>
    obtain ⟨us, info, rfl, hus⟩ := exists_node hu
    obtain ⟨v, vs, rfl, hv, hvs⟩ := exists_cons hus
    obtain ⟨w, ws, rfl, hw, hws⟩ := exists_cons hvs
    obtain rfl := eq_nil hws
    simp only [hasImmediate, hasBelow, operands, List.any_cons, any_nil,
      Bool.or_false, Bool.or_eq_true] at hI hN
    refine ⟨_, _, _, _, node_op hplain, rfl, mirrors_pair hop ?_ ?_⟩
    · exact mirrors_operand ha (fun h => hI (.inl h)) (fun h => hN (.inl h)) hv
    · exact mirrors_operand hb (fun h => hI (.inr h)) (fun h => hN (.inr h)) hw
  | single op hop ha =>
    obtain ⟨us, info, rfl, hus⟩ := exists_node hu
    obtain ⟨v, vs, rfl, hv, hvs⟩ := exists_cons hus
    obtain rfl := eq_nil hvs
    simp only [hasImmediate, hasBelow, operands, List.any_cons, any_nil, Bool.or_false] at hI hN
    exact ⟨_, _, _, _, node_op hplain, rfl, mirrors_single hop (mirrors_operand ha hI hN hv)⟩
  | call x k =>
    obtain ⟨t, us, info, rfl, ht, -⟩ := exists_headed hu
    refine ⟨"callq", _, _, _, rfl, rfl, ?_⟩
    change Mirrors I N (callLabel blocks enter x.text >>= fun _ => pure Flow.next)
      (callLabel blocks' enter' t.text >>= fun _ => pure Flow.next)
    rw [ht]
    exact (mirrors_callLabel h x.text).bind fun _ => .pure _
  | jump x =>
    obtain ⟨t, us, info, rfl, ht, -⟩ := exists_headed hu
    refine ⟨"jmp", _, _, _, rfl, rfl, ?_⟩
    change Mirrors I N (jumpTo blocks enter x.text >>= fun _ => pure Flow.leave)
      (jumpTo blocks' enter' t.text >>= fun _ => pure Flow.leave)
    rw [ht]
    exact (h.jump x.text).bind fun _ => .pure _

/-! ## Code -/

theorem mirrors_runWith (h : MirrorsBlocks I N blocks blocks' enter enter') {is}
    (his : Forall₂ Derives is ls) (hI : is.any hasImmediate → I)
    (hN : is.any hasBelow → N) (hus : ParseTree.strippeds us = ls.map Line.tree) :
    Mirrors I N (runWith blocks enter (is.map node))
      (runWith blocks' enter' us) := by
  induction his generalizing us with
  | nil =>
    obtain rfl := eq_nil hus
    exact .pure _
  | cons hi _ ih =>
    obtain ⟨u, us, rfl, hu, htail⟩ := exists_cons hus
    simp only [any_cons, Bool.or_eq_true] at hI hN
    obtain ⟨name, ts, vs, info, hnode, rfl, hstep⟩ :=
      mirrors_step h hi (fun h => hI (.inl h)) (fun h => hN (.inl h)) hu
    have hrest := ih (fun h => hI (.inr h)) (fun h => hN (.inr h)) htail
    rw [map_cons, hnode]
    refine (Mirrors.of_lockstep (same_log _ _)).bind fun _ => ?_
    refine hstep.bind fun flow => ?_
    cases flow with
    | leave => exact .pure _
    | next => exact (Mirrors.of_lockstep same_logState).bind fun _ => hrest

end

theorem get?_main (l : String) (c : α) :
    get? [("main", c)] l = if l = "main" then some c else none := by
  rw [get?, lookup_cons]
  by_cases hl : l = "main"
  · rw [if_pos hl, hl]
    rfl
  · rw [if_neg hl, beq_false_of_ne hl]
    rfl

theorem mirrors_run {is} (his : Forall₂ Derives is ls) (hI : is.any hasImmediate → I)
    (hN : is.any hasBelow → N) (hus : ParseTree.strippeds us = ls.map Line.tree) (fuel) :
    Mirrors I N (run [("main", is.map node)] fuel (is.map node))
      (run [("main", us)] fuel us) := by
  induction fuel with
  | zero => exact .throw (.refl _)
  | succ fuel ih =>
    refine mirrors_runWith ⟨fun l => ?_, fun l => ?_⟩ his hI hN hus
    · unfold callBlock
      rw [get?_main, get?_main]
      by_cases hl : l = "main"
      · rw [if_pos hl, if_pos hl]
        exact ih
      · rw [if_neg hl, if_neg hl]
        exact .throw (.refl _)
    · unfold jumpTo
      rw [get?_main, get?_main]
      by_cases hl : l = "main"
      · rw [if_pos hl, if_pos hl]
        exact ih
      · rw [if_neg hl, if_neg hl]
        dsimp only
        split
        · exact .pure _
        · exact .throw (.refl _)

/-! ## Programs -/

theorem mirrors_logged {x y} (h : Mirrors I N x y) : Mirrors I N (logged x) (logged y) := by
  have hlog (s t : String) : Mirrors I N (log s) (log t) := .of_lockstep (same_log s t)
  refine (hlog _ _).bind fun _ => h.bind fun _ => (hlog _ _).bind fun _ => ?_
  refine (Mirrors.of_lockstep same_logState).bind fun _ => ?_
  refine Mirrors.of_lockstep (Sim.bind (fun m n hmn => .ok hmn) ?_)
  exact fun m n => Lockstep.bind (same_log _ _) fun _ => same_log _ _

theorem Instr.Derives.tree_eq {i} (h : i.Derives l) :
    i.tree = .ok i.node ∧ ofTerm i.toTerm = i := by
  have hplain (hi : i.isPlain) : i.tree = .ok i.node ∧ ofTerm i.toTerm = i :=
    ⟨Instr.tree_eq hi, Instr.ofTerm_toTerm hi⟩
  have hall := h.all_isPlain
  cases h with
  | pair | single => exact hplain hall
  | call x k => exact hplain rfl
  | jump x => exact ⟨rfl, rfl⟩

theorem codeTree?_derives {is} (h : Forall₂ Derives is ls) (k) :
    codeTree? (Assembly.toTerm { code := .flat is, stackSpace := k }) =
      .ok (some (mainTree is)) := by
  have hparts : trees is = .ok (is.map node) ∧ (is.map toTerm).map ofTerm = is := by
    induction h with
    | nil => exact ⟨rfl, rfl⟩
    | cons hi _ ih =>
      constructor
      · rw [trees, hi.tree_eq.1, ih.1]
        rfl
      · rw [map_cons, map_cons, hi.tree_eq.2, ih.2]
  rw [codeTree?_eq hparts.2, hparts.1]
  rfl

/-- A directive for a label and a block with that label are one block. -/
theorem run_mainSections {t} (ht : t.stripped = derivedTree (mainSections ls)) :
    ∃ us, ParseTree.strippeds us = ls.map Line.tree ∧ ∀ m : Machine,
      (Machine.runProgram t).run m = (logged (run [("main", us)] maxDepth us)).run m.entered := by
  obtain ⟨bs, info, rfl, hbs⟩ := exists_node ht
  obtain ⟨b, rest, rfl, hb, hrest⟩ := exists_cons hbs
  obtain ⟨c, rest', rfl, hc, hnil⟩ := exists_cons hrest
  obtain rfl := eq_nil hnil
  obtain ⟨p, xs, infob, rfl, hp, hxs⟩ := exists_headed hb
  obtain rfl := eq_nil hxs
  obtain ⟨q, us, infoc, rfl, hq, hus⟩ := exists_headed hc
  refine ⟨us, hus, fun m => ?_⟩
  obtain ⟨kind, text, start, stop⟩ := p
  obtain rfl : text = "main" := hp
  obtain ⟨kind', text', start', stop'⟩ := q
  obtain rfl : text' = "main" := hq
  let main : Cell := .code "main"
  change (logged (run [("main", us)] maxDepth us)).run
    { m with output := [], globals := put (put m.globals "main" main) "main" main }
      = _
  rw [put_put]
  rfl

end

/-- Two runs end alike: both normally or with the same fault, on machines that are the same. Only
the words about an operand of the machine may differ. -/
inductive SameEnd : Except Fault Unit × Machine → Except Fault Unit × Machine → Prop where
  | normal {m n} (h : Same m n) : SameEnd (.ok (), m) (.ok (), n)
  | fault (f : Fault) {m n} (h : Same m n) : SameEnd (.error f, m) (.error f, n)
  | machine (s s' : String) {m n} (h : Same m n) :
      SameEnd (.error (.machine s), m) (.error (.machine s'), n)

theorem SameEnd.of_sameCause {e e'} (h : SameCause e e') {m n} (hmn : Same m n) :
    SameEnd (.error e.toFault, m) (.error e'.toFault, n) := by
  cases h with
  | refl => exact .fault _ hmn
  | unwritable t u => exact .machine _ _ hmn
  | incomparable t u => exact .machine _ _ hmn

/-- A program with one block and its written form. The text has one derivation, and the tree of it
makes the machine do what the program does, unless it comes to a number after a dollar or to a
negative offset, which it cannot read. -/
theorem runTree_of_text {is : List Instr} (his : is.all isNamed = true) {k : Option Int}
    {s : String}
    (hs : (Assembly.toTerm { code := .flat is, stackSpace := k }).text baseIndent = .ok s) :
    ∃ ss, (∀ rs, lexemes s.toList = derived rs ↔ rs = ss) ∧
      ∀ t : ParseTree, t.stripped = derivedTree ss → ∀ m : Machine,
        SameEnd (runTerm (Assembly.toTerm { code := .flat is, stackSpace := k }) m)
            (runTree t m) ∨
          is.any hasImmediate = true ∧ (runTree t m).1 = .error .wrongKind ∨
          is.any hasBelow = true ∧
            ∃ text, (runTree t m).1 = .error (.failure text) := by
  obtain ⟨ls, hls, hlex⟩ := exists_sections his hs
  refine ⟨mainSections ls, fun rs => ?_, fun t ht m => ?_⟩
  · rw [hlex]
    exact ⟨fun h => (derived_inj h).symm, fun h => by rw [h]⟩
  · obtain ⟨us, hus, hrun⟩ := run_mainSections ht
    have hend := mirrors_logged (mirrors_run hls id id hus maxDepth) _ _ (Same.refl m.entered)
    simp only [runTerm, codeTree?_derives hls, runTree, run_runProgram, hrun]
    change Tracks _ _ ((logged (mainRun is)).run m.entered) _ at hend
    generalize (logged (mainRun is)).run m.entered = r at hend
    generalize (logged (run [("main", us)] maxDepth us)).run m.entered = r' at hend
    cases hend with
    | ok h => exact .inl (.normal h)
    | error he h => exact .inl (.of_sameCause he h)
    | nested hI => exact .inr (.inl ⟨hI, rfl⟩)
    | unknown hN => exact .inr (.inr ⟨hN, _, rfl⟩)

/-- A program that loads a number. -/
def loadsOne : List Instr := [.op "movq" [.immediate (.int 1), .reg "rax"]]

/-- By way of its text the program stops where it should load the number. -/
theorem runTree_of_text_loadsOne :
    ∃ ss, (∀ rs, lexemes "\t.globl main\nmain:\n    movq $1, %rax\n\n".toList = derived rs ↔
        rs = ss) ∧
      (runTerm (Assembly.toTerm { code := .flat loadsOne, stackSpace := none }) {}).1 =
        .ok () ∧
      (runTree (derivedTree ss) {}).1 = .error .wrongKind := by
  have hs : (Assembly.toTerm { code := .flat loadsOne, stackSpace := none }).text baseIndent =
      .ok "\t.globl main\nmain:\n    movq $1, %rax\n\n" := by rfl
  obtain ⟨ss, hss, -⟩ := @runTree_of_text loadsOne (by decide) none _ hs
  have hparts : mainSections [.pair ⟨"movq", by decide⟩ (.int (.number ⟨"1", by decide⟩))
      (.reg ⟨"rax", by decide⟩)] = ss := (hss _).mp (by decide)
  refine ⟨ss, hss, by rfl, ?_⟩
  subst hparts
  rfl

end X86

end CompilerKit
