import CompilerKit.Proofs.Vars.Compiler
import CompilerKit.Proofs.X86.Entry

/-!
# Finished programs

The last pass puts the code that enters and leaves a frame around a compiled program. What the
passes before it yield is settled code, whatever program they are given, so it does the same in the
frame. The return at the end is a text, though, and the machine does not know it.

* `compile_settled`: the code of every program that is compiled is settled, pass by pass.
* `frame_restores`, `finished_stops`: such code in its frame, without and with the return.
-/

namespace CompilerKit

open X86.Machine Artifact

variable {e : Expr} {p : Program}

namespace X86

open List Bool Instr Nat

variable {homes : Homes} {k : Nat}

/-! ## Places -/

/-- The operand is a constant, one of two registers, or a variable, whatever its name is. -/
def Operand.isSelected : Operand → Bool
  | .immediate _ | .variable _ => true
  | .reg r => r == "rax" || r == "rdi"
  | .other (.node (.record .variable) _ _) => true
  | _ => false

/-- The instruction is arithmetic on such operands, or a call that prints or reads a number. -/
def Instr.isSelected : Instr → Bool
  | .op name args => (Opcode.ofName name).isArithmetic && args.all Operand.isSelected
  | .call l _ => l == "print_int" || l == "read_int"
  | _ => false

/-- All places that were given out are among the first ones of the frame. -/
def Homes.Placed (homes : Homes) : Prop := ∀ e ∈ homes, ∃ j < homes.length, e.2 = X86.place j

/-- More places were given out. -/
structure Homes.Grown (homes homes' : Homes) : Prop where
  placed : homes'.Placed
  length_le : homes.length ≤ homes'.length

theorem Homes.Placed.refl (h : homes.Placed) : homes.Grown homes := ⟨h, le_refl _⟩

theorem Homes.Grown.trans (h : homes.Grown homes')
    (h' : homes'.Grown homes'') : homes.Grown homes'' :=
  ⟨h'.placed, le_trans h.length_le h'.length_le⟩

variable {a : Operand} {i : Instr} {is js : List Instr}

theorem Homes.exists_of_get? (h : homes.get? x = some a) : ∃ e ∈ homes, e.2 = a := by
  induction homes with
  | nil => cases h
  | cons e homes ih =>
    rw [Homes.get?, lookup_cons] at h
    split at h
    · exact ⟨e, mem_cons_self, Option.some.inj h⟩
    · obtain ⟨e', he', ha⟩ := ih h
      exact ⟨e', mem_cons_of_mem e he', ha⟩

section

variable (h : homes.Placed)

include h

theorem place_settled (x) :
    (homes.place x).1.Settled (homes.place x).2.length ∧ homes.Grown (homes.place x).2 := by
  rw [Homes.place]
  split
  · next a ha =>
    obtain ⟨e, he, rfl⟩ := Homes.exists_of_get? ha
    obtain ⟨j, hj, hplace⟩ := h e he
    exact ⟨hplace ▸ .place hj, h.refl⟩
  · have hlength : (homes ++ [(x, homes.next)]).length = homes.length + 1 := length_append
    refine ⟨?_, ?_, ?_⟩
    · rw [hlength]
      exact .place (lt_succ_self homes.length)
    · intro e he
      rw [hlength]
      rcases mem_append.mp he with he | he
      · obtain ⟨j, hj, hplace⟩ := h e he
        exact ⟨j, lt_succ_of_lt hj, hplace⟩
      · rw [mem_singleton.mp he]
        exact ⟨homes.length, lt_succ_self _, rfl⟩
    · rw [hlength]
      exact le_succ _

theorem homeOf_settled (ha : a.isSelected) :
    (homeOf homes a).1.Settled (homeOf homes a).2.length ∧ homes.Grown (homeOf homes a).2 := by
  unfold Operand.isSelected at ha
  split at ha
  · exact ⟨.immediate _, h.refl⟩
  · exact place_settled h _
  · exact ⟨.reg (by simpa using ha), h.refl⟩
  · exact place_settled h _
  · cases ha

theorem homesOf_settled (has : as.all Operand.isSelected) :
    (∀ a ∈ (homesOf homes as).1, a.Settled (homesOf homes as).2.length) ∧
      homes.Grown (homesOf homes as).2 := by
  induction as generalizing homes with
  | nil => exact ⟨forall_mem_nil _, h.refl⟩
  | cons a as ih =>
    rw [all_cons, and_eq_true] at has
    obtain ⟨hfirst, hgrown⟩ := homeOf_settled h has.1
    obtain ⟨hrest, hgrown'⟩ := ih hgrown.placed has.2
    have hfirst' := hfirst.mono hgrown'.length_le
    exact ⟨forall_mem_cons.mpr ⟨hfirst', hrest⟩, hgrown.trans hgrown'⟩

theorem homeInstr_settled (hi : i.isSelected) :
    (homeInstr homes i).1.Settled (homeInstr homes i).2.length ∧
      homes.Grown (homeInstr homes i).2 := by
  cases i with
  | op name args =>
    obtain ⟨hname, hargs⟩ := and_eq_true_iff.mp hi
    obtain ⟨hsettled, hgrown⟩ := homesOf_settled h hargs
    refine ⟨⟨and_eq_true_iff.mpr ⟨hname, ?_⟩, hsettled⟩, hgrown⟩
    exact all_eq_true.mpr fun a ha => (hsettled a ha).isPlain
  | call l n => exact ⟨⟨hi, forall_mem_nil _⟩, h.refl⟩
  | _ => cases hi

theorem homeInstrs_settled (his : is.all isSelected) :
    (∀ i ∈ (homeInstrs homes is).1, i.Settled (homeInstrs homes is).2.length) ∧
      homes.Grown (homeInstrs homes is).2 := by
  induction is generalizing homes with
  | nil => exact ⟨forall_mem_nil _, h.refl⟩
  | cons i is ih =>
    rw [all_cons, and_eq_true] at his
    obtain ⟨hfirst, hgrown⟩ := homeInstr_settled h his.1
    obtain ⟨hrest, hgrown'⟩ := ih hgrown.placed his.2
    have hfirst' := hfirst.mono hgrown'.length_le
    exact ⟨forall_mem_cons.mpr ⟨hfirst', hrest⟩, hgrown.trans hgrown'⟩

end

theorem inRange_frameSize (hk : k ≤ maxPlaces) : Word.inRange (frameSize k) := by
  rw [maxPlaces] at hk
  rw [Word.inRange_iff, Word.least, Word.greatest, frameSize]
  split <;> omega

/-! ## Encodable code -/

theorem settled_through (h : (op name [a, b]).Settled k) :
    ∀ i ∈ [op "movq" [a, .reg "rax"], .op name [.reg "rax", b]], i.Settled k := by
  have ha : a.Settled k := h.operands a (by simp [operands])
  have hb : b.Settled k := h.operands b (by simp [operands])
  have hrax : (Operand.reg "rax").Settled k := .reg (.inl rfl)
  have hbinary : ∀ {name : String} {a b : Operand}, (Opcode.ofName name).isArithmetic →
      a.Settled k → b.Settled k → (op name [a, b]).Settled k := by
    intro name a b hname ha hb
    refine ⟨by simp [isStraight, hname, ha.isPlain, hb.isPlain], ?_⟩
    exact forall_mem_cons.mpr ⟨ha, forall_mem_singleton.mpr hb⟩
  have hlast := hbinary (and_eq_true_iff.mp h.straight).1 hrax hb
  exact forall_mem_cons.mpr ⟨hbinary rfl ha hrax, forall_mem_singleton.mpr hlast⟩

theorem patchInstr_settled (hi : i.Settled k) (h : patchInstr i = .ok js) :
    ∀ j ∈ js, j.Settled k := by
  have hself : ∀ j ∈ [i], j.Settled k := fun j hj => mem_singleton.mp hj ▸ hi
  unfold patchInstr at h
  split at h
  · cases h
    exact settled_through hi
  · obtain ⟨large, -, hjs⟩ := ok_of_bind h
    cases large <;> cases hjs
    · exact hself
    · exact settled_through hi
  · cases h
    exact hself

theorem patchInstrs_settled (his : ∀ i ∈ is, i.Settled k) (h : patchInstrs is = .ok js) :
    ∀ j ∈ js, j.Settled k := by
  induction is generalizing js with
  | nil =>
    cases h
    exact forall_mem_nil _
  | cons i is ih =>
    obtain ⟨hi, his⟩ := forall_mem_cons.mp his
    obtain ⟨first, hfirst, h1⟩ := ok_of_bind h
    obtain ⟨rest, hrest, hjs⟩ := ok_of_bind h1
    cases hjs
    exact forall_mem_append.mpr ⟨patchInstr_settled hi hfirst, ih his hrest⟩

end X86

namespace Vars

open X86

variable {h : Heap} {is : List Instr} {n n' : Nat} {a : Artifact}

/-! ## Selected code -/

theorem selectAtom_isSelected (hs : selectAtom h e = .ok s) : s.isSelected := by
  unfold selectAtom at hs
  split at hs <;> cases hs <;> rfl

theorem isSelected_binary (hname : (Opcode.ofName name).isArithmetic)
    (hs : s.isSelected) (ht : t.isSelected) :
    (Instr.op name [s, t]).isSelected := by
  simp [Instr.isSelected, hname, hs, ht]

theorem selectAssign_isSelected (his : selectAssign h x e = .ok is) : is.all Instr.isSelected := by
  -- two operations into the assigned variable, whose sources are atoms
  have hpair : ∀ {name : String} {s t : Operand}, (Opcode.ofName name).isArithmetic →
      s.isSelected → t.isSelected →
      [Instr.op "movq" [s, .variable x], .op name [t, .variable x]].all
        Instr.isSelected := by
    intro name s t hname hs ht
    rw [List.all_cons, List.all_cons, isSelected_binary rfl hs rfl, isSelected_binary hname ht rfl]
    rfl
  unfold selectAssign at his
  split at his
  · cases his; rfl
  · cases his; rfl
  · cases his; rfl
  · split at his
    · cases his; rfl
    · obtain ⟨s, hs, his⟩ := ok_of_bind his
      cases his
      rw [List.all_cons, isSelected_binary rfl (selectAtom_isSelected hs) rfl]
      rfl
  · split at his
    · obtain ⟨_, -, his⟩ := ok_of_bind his
      cases his
    · split at his
      · obtain ⟨_, -, his⟩ := ok_of_bind his
        cases his
      · obtain ⟨s, hs, his⟩ := ok_of_bind his
        obtain ⟨t, ht, his⟩ := ok_of_bind his
        cases his
        exact hpair rfl (selectAtom_isSelected hs) (selectAtom_isSelected ht)
  · split at his
    · obtain ⟨_, -, his⟩ := ok_of_bind his
      cases his
    · obtain ⟨s, hs, his⟩ := ok_of_bind his
      obtain ⟨t, ht, his⟩ := ok_of_bind his
      cases his
      exact hpair rfl (selectAtom_isSelected hs) (selectAtom_isSelected ht)
  · cases his

theorem selectStmt?_isSelected {s} (his : selectStmt? h s = .ok (some is)) :
    is.all Instr.isSelected := by
  unfold selectStmt? at his
  split at his
  · obtain ⟨t, ht, his⟩ := ok_of_bind his
    cases his
    rw [List.all_cons, isSelected_binary rfl (selectAtom_isSelected ht) rfl]
    rfl
  · cases his
    rfl
  · cases his
    rfl
  · obtain ⟨js, hjs, his⟩ := ok_of_bind his
    cases his
    exact selectAssign_isSelected hjs
  · cases his

theorem selectStmts_isSelected (his : selectStmts h ss = .ok is) : is.all Instr.isSelected := by
  induction ss generalizing is with
  | nil =>
    cases his
    rfl
  | cons s ss ih =>
    obtain ⟨js, ks, hjs, hks, rfl⟩ := selectStmts_cons_ok his
    rw [List.all_append, selectStmt?_isSelected hjs, ih hks, Bool.and_self]

/-! ## Compiled programs -/

/-- The number of places that the program needs, one for each of its variables once its code is
selected, is at most `2 ^ 59`. -/
def FewVariables (h : Heap) (p : Program) (n : Nat) : Prop :=
  ∀ is n', (Pass.run .frames h .atoms (.program p) >>= Pass.run .frames h .select).run n =
    .ok (.assembly { code := .flat is }, n') → (homeInstrs [] is).2.length ≤ maxPlaces

theorem atoms_ok (ha : (Pass.run .frames h .atoms (.program p)).run n = .ok (a, n')) :
    ∃ ss, a = .program (.module ss {}) := by
  unfold Pass.run at ha
  split at ha
  · obtain ⟨ss, _, -, ha⟩ := bind_ok ha
    cases ha
    exact ⟨ss, rfl⟩
  · obtain ⟨_, _, -, ha⟩ := bind_ok ha
    obtain ⟨ss, _, -, ha⟩ := bind_ok ha
    cases ha
    exact ⟨ss, rfl⟩
  · cases ha
  all_goals contradiction

theorem select_ok
    (ha : (Pass.run .frames h .select (.program (.module ss {}))).run n = .ok (a, n')) :
    ∃ is, selectStmts h ss = .ok is ∧ a = .assembly { code := .flat is } := by
  rw [Pass.run] at ha
  cases his : selectStmts h ss <;> rw [his] at ha <;> cases ha
  exact ⟨_, rfl, rfl⟩

theorem homes_run (h : Heap) (is n) :
    (Pass.run .frames h .homes (.assembly { code := .flat is })).run n =
      .ok (.assembly
        { code := .flat (homeInstrs [] is).1
          stackSpace := some (frameSize (homeInstrs [] is).2.length) }, n) := by
  rfl

theorem patch_ok
    (ha : (Pass.run .frames h .patch (.assembly { code := .flat is, stackSpace := space })).run n =
      .ok (a, n')) :
    ∃ js, patchInstrs is = .ok js ∧ a = .assembly { code := .flat js, stackSpace := space } := by
  cases hjs : patchInstrs is with
  | error f =>
    have herror : patch { code := .flat is, stackSpace := space } = .error f := by
      change (patchInstrs is >>= fun js => pure (Assembly.mk (.flat js) space)) = _
      rw [hjs]
      rfl
    rw [Pass.run, onAssembly, herror] at ha
    cases ha
  | ok js =>
    rw [Pass.run, onAssembly, patch_flat hjs] at ha
    cases ha
    exact ⟨js, rfl, rfl⟩

/-- Whatever program is compiled, the code is settled in a frame with a place for each variable. -/
theorem compile_settled (ha : (compile h p).run n = .ok (a, n')) :
    ∃ k is, a = .assembly { code := .flat is, stackSpace := some (frameSize k) } ∧
      (∀ i ∈ is, i.Settled k) ∧ (FewVariables h p n → k ≤ maxPlaces) := by
  obtain ⟨a1, n1, hatoms, ha1⟩ := bind_ok ha
  obtain ⟨ss, rfl⟩ := atoms_ok hatoms
  obtain ⟨a2, n2, hselect, ha2⟩ := bind_ok ha1
  obtain ⟨is, his, rfl⟩ := select_ok hselect
  obtain ⟨a3, n3, hhomes, ha3⟩ := bind_ok ha2
  cases hhomes.symm.trans (homes_run h is n2)
  obtain ⟨a4, n4, hpatch, ha4⟩ := bind_ok ha3
  obtain ⟨js, hjs, rfl⟩ := patch_ok hpatch
  cases ha4
  -- no place is given out before the first variable
  have hempty : Homes.Placed [] := List.forall_mem_nil _
  obtain ⟨hsettled, -⟩ := homeInstrs_settled hempty (selectStmts_isSelected his)
  refine ⟨_, js, rfl, patchInstrs_settled hsettled hjs, fun hfew => hfew is n2 ?_⟩
  rw [run_bind_ok hatoms, hselect]

/-! ## Programs in their frame -/

theorem all_isPlain_framed (his : ∀ i ∈ is, i.Settled k) (space) :
    (enterFrame space ++ is ++ leaveFrame space).all Instr.isPlain := by
  have hplain := all_isPlain_of_isStraight (all_isStraight_of_settled his)
  rw [List.all_append, List.all_append, isPlain_enterFrame, isPlain_leaveFrame, hplain]
  rfl

/-- A compiled program with at most `2 ^ 59` variables, and the same in its frame, without the
return at the end: if the first runs to its end, then so does the second, it prints and reads the
same, and both registers of the stack are at the end what they were at the start. After every
instruction of the program, the memory at the base of the frame still holds the old base. -/
theorem frame_restores (h : Heap) (p : Program) (n n' : Nat) (a : Artifact)
    (ha : (compile h p).run n = .ok (a, n')) (hfew : FewVariables h p n) :
    ∃ is js space, a = .assembly { code := .flat is, stackSpace := some space } ∧
      frame { code := .flat is, stackSpace := some space } =
        .ok { code := .flat js, stackSpace := some space } ∧
      ∀ (c : Console) (m : Machine),
        runTerm (Assembly.toTerm { code := .flat is, stackSpace := some space })
          { console := c } = (.ok (), m) →
        (∃ m', runTerm (Assembly.toTerm
            { code := .flat js.dropLast, stackSpace := some space }) { console := c } =
              (.ok (), m') ∧
          m'.output = m.output ∧ m'.console = m.console ∧
          m'.register "rsp" = register {} "rsp" ∧
          m'.register "rbp" = register {} "rbp") ∧
        ∀ l ≤ is.length, ∃ m' b, runTerm (Assembly.toTerm
            { code := .flat (js.take (3 + l)), stackSpace := some space }) { console := c } =
              (.ok (), m') ∧
          m'.register "rbp" = .word b ∧ m'.cellAt (.word b) = register {} "rbp" := by
  obtain ⟨k, is, rfl, his, hcount⟩ := compile_settled ha
  have hk := hcount hfew
  have hspace := inRange_frameSize hk
  generalize frameSize k = space at hspace
  refine ⟨is, _, space, rfl, frame_flat is space, fun c m hrun => ?_⟩
  rw [runTerm_eq_ok_iff (all_isStraight_of_settled his) rfl] at hrun
  have hplain := all_isPlain_framed his space
  constructor
  · obtain ⟨m', hruns, houtput, hconsole, hrsp, hrbp, hquiet⟩ := runs_framed hspace hk his hrun
    refine ⟨m', ?_, houtput, hconsole, hrsp, hrbp⟩
    rw [List.dropLast_concat]
    exact runTerm_of_run hplain rfl hquiet hruns.mainRun _
  · intro l hl
    obtain ⟨_, m', hruns, hmoved⟩ := runs_entered_take hspace hk his hrun l
    refine ⟨m', innerBase, ?_, hmoved.base'.register, hmoved.kept⟩
    have htake : (enterFrame space ++ is ++ leaveFrame space ++ [returnText]).take (3 + l) =
        enterFrame space ++ is.take l := by
      have hlength : (enterFrame space).length = 3 := rfl
      rw [List.append_assoc, List.append_assoc, List.take_append, hlength, Nat.add_sub_cancel_left,
        List.take_of_length_le (by omega), List.take_append_of_le_length hl]
    rw [htake]
    refine runTerm_of_run ?_ rfl hmoved.quiet' hruns.mainRun _
    have his' : (is.take l).all Instr.isPlain = true :=
      all_isPlain_of_isStraight (all_isStraight_of_settled fun i hi =>
        his i (List.mem_of_mem_take hi))
    rw [List.all_append, isPlain_enterFrame, his']
    rfl

/-- A program with two variables and a large constant, and a run of it. -/
theorem frame_restores_difference :
    let input : Expr := .call (.name "input_int" {}) [] {}
    let p : Program := .module [
      .assign [.name "x" {}] (.arith input .sub (.const (.int 70000 9) {}) {}) {},
      .assign [.name "y" {}] (.unary .neg (.name "x" {}) {}) {},
      .expr (.call (.name "print" {}) [.arith (.name "x" {}) .sub (.name "y" {}) {}] {}) {}] {}
    let start : Machine := { console := .ofInput "5\n" }
    ∃ a n', (compile #[] p).run 0 = .ok (a, n') ∧ FewVariables #[] p 0 ∧
      ∃ is js space m m', a = .assembly { code := .flat is, stackSpace := some space } ∧
        frame { code := .flat is, stackSpace := some space } =
          .ok { code := .flat js, stackSpace := some space } ∧
        runTerm (Assembly.toTerm { code := .flat is, stackSpace := some space }) start =
          (.ok (), m) ∧
        runTerm (Assembly.toTerm
          { code := .flat js.dropLast, stackSpace := some space }) start = (.ok (), m') ∧
        m.output = [.word (-139990)] ∧ m'.output = [.word (-139990)] ∧
        m'.register "rsp" = .word 1000 ∧ m'.register "rbp" = .word 1000 := by
  intro input p start
  have hends : ((compile #[] p).run 0).toOption.any (fun r =>
      (runTerm (r.1.toTerm #[]) start).1.isOk &&
        (runTerm (r.1.toTerm #[]) start).2.output == [.word (-139990)]) = true := by
    decide +kernel
  have hfew : FewVariables #[] p 0 := by
    intro is n' hrun
    cases hrun
    decide
  obtain ⟨a, n', ha⟩ : ∃ a n', (compile #[] p).run 0 = .ok (a, n') := ⟨_, _, rfl⟩
  obtain ⟨is, js, space, rfl, hframe, hruns⟩ := frame_restores #[] p 0 n' a ha hfew
  rw [ha] at hends
  have hend := Bool.and_eq_true_iff.mp hends
  rw [toTerm] at hend
  rcases hrun : runTerm (Assembly.toTerm { code := .flat is, stackSpace := some space })
    start with ⟨r, m⟩
  rw [hrun] at hend
  cases r with
  | error f => cases hend.1
  | ok u =>
    have houtput := beq_iff_eq.mp hend.2
    obtain ⟨⟨m', hrun', houtput', -, hrsp, hrbp⟩, -⟩ := hruns _ m hrun
    exact ⟨_, n', ha, hfew, is, js, space, m, m', rfl, hframe, hrun, hrun', houtput,
      houtput'.trans houtput, hrsp, hrbp⟩

/-! ## The return -/

theorem printed_eq_ok_iff :
    printed t c = (.ok (), c') ↔ ∃ m, runTerm t { console := c } = (.ok (), m) ∧
      m.console.write (String.join (m.output.map Cell.text)) = c' := by
  rw [printed]
  rcases runTerm t { console := c } with ⟨r, m⟩
  cases r with
  | error f => simp
  | ok u => simp

/-- All passes of the compiler. -/
def finish (h : Heap) (p : Program) : Compile Artifact :=
  Pass.all.foldlM (fun a pass => pass.run .frames h a) (.program p)

theorem finish_eq (h : Heap) (p) : finish h p = compile h p >>= Pass.run .frames h .frame := by
  simp only [finish, Pass.all, compile, List.foldlM_cons, List.foldlM_nil, bind_assoc, bind_pure]

/-- A program that went through all passes is never run: its last instruction is a text, which the
machine does not know, so nothing is read and nothing is printed. With an instruction that returns
in place of that text, it prints and reads what the program before the last pass prints and
reads. -/
theorem finished_stops (h : Heap) (p : Program) (n n' : Nat) (b : Artifact)
    (hb : (finish h p).run n = .ok (b, n')) :
    (∀ c, printed (b.toTerm h) c = (.error returnFailure, c)) ∧
      ∃ a js space, (compile h p).run n = .ok (a, n') ∧
        b = .assembly { code := .flat (js ++ [returnText]), stackSpace := space } ∧
        (FewVariables h p n → ∀ c c', printed (a.toTerm h) c = (.ok (), c') →
          printed (Assembly.toTerm
            { code := .flat (js ++ [.op "retq" []]), stackSpace := space }) c = (.ok (), c')) := by
  rw [finish_eq] at hb
  obtain ⟨a, n₁, ha, hframe⟩ := bind_ok hb
  obtain ⟨k, is, rfl, his, hcount⟩ := compile_settled ha
  have hplain := all_isPlain_framed his (frameSize k)
  rw [Pass.run, onAssembly, frame_flat] at hframe
  cases hframe
  refine ⟨fun c => ?_, _, _, _, ha, rfl, fun hfew c c' hprinted => ?_⟩
  · rw [toTerm, printed, runTerm_returnText hplain]
  · have hk := hcount hfew
    obtain ⟨m, hrun, hconsole⟩ := printed_eq_ok_iff.mp hprinted
    rw [toTerm, runTerm_eq_ok_iff (all_isStraight_of_settled his) rfl] at hrun
    obtain ⟨m', hruns, houtput, hconsole', -, -, hquiet⟩ :=
      runs_framed (inRange_frameSize hk) hk his hrun
    have hplain' : (enterFrame (frameSize k) ++ is ++ leaveFrame (frameSize k) ++
        [Instr.op "retq" []]).all Instr.isPlain = true := by
      rw [List.all_append, hplain]
      rfl
    refine printed_eq_ok_iff.mpr ⟨m', ?_, ?_⟩
    · exact runTerm_of_run hplain' rfl hquiet (hruns.mainRun_return hquiet) _
    · rw [houtput, hconsole', hconsole]

/-- A program that prints a number before the last pass, and nothing after it. -/
theorem finished_stops_answer :
    let p : Program := .module [
      .expr (.call (.name "print" {}) [.const (.int 42 9) {}] {}) {}] {}
    ∃ a b js n' space, (compile #[] p).run 0 = .ok (a, n') ∧ (finish #[] p).run 0 = .ok (b, n') ∧
      b = .assembly { code := .flat (js ++ [returnText]), stackSpace := space } ∧
      printed (a.toTerm #[]) {} = (.ok (), { output := "42" }) ∧
      printed (b.toTerm #[]) {} = (.error returnFailure, {}) ∧
      printed (Assembly.toTerm
        { code := .flat (js ++ [.op "retq" []]), stackSpace := space }) {} =
          (.ok (), { output := "42" }) := by
  intro p
  obtain ⟨b, n', hb⟩ : ∃ b n', (finish #[] p).run 0 = .ok (b, n') := ⟨_, _, rfl⟩
  obtain ⟨hstops, a, js, space, ha, hcode, hprints⟩ := finished_stops #[] p 0 n' b hb
  have hfew : FewVariables #[] p 0 := by
    intro is n' hrun
    cases hrun
    decide
  have hprinted : printed (a.toTerm #[]) {} = (.ok (), { output := "42" }) := by
    cases ha
    rfl
  exact ⟨a, b, js, n', space, ha, hb, hcode, hprinted, hstops {}, hprints hfew {} _ hprinted⟩

end Vars

end CompilerKit
