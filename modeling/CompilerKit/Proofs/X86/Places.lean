import CompilerKit.Proofs.X86.Straight

/-!
# Places

An operand that can be written to stands for a place: a register, a variable, an address or a
global. Writing changes what is at this place and at no other, and reading gives what is there. One
kind of operand is written to and never read: the address in a register without an offset.
-/

namespace CompilerKit.X86

open Emulation Bindings Machine EStateM Argument

inductive Place where
  | register (r : String)
  | variable (x : String)
  | memory (a : Cell)
  | global (x : String)

variable {m n : Machine} {p q : Place} {c : Cell} {a : Argument}

namespace Machine

/-- What is at a place. A global that has not been written to is not there. -/
def contents (m : Machine) : Place → Except MachineError Cell
  | .register r => .ok (m.register r)
  | .variable x => .ok (m.variableCell x)
  | .memory a => .ok (m.cellAt a)
  | .global x => match get? m.globals x with
    | some c => .ok c
    | none => .error (.noGlobal x)

def write (m : Machine) (c : Cell) : Place → Machine
  | .register r => m.setRegister r c
  | .variable x => m.setVariable x c
  | .memory a => m.setCell a c
  | .global x => m.setGlobal x c

theorem contents_write (m : Machine) (c p) : (m.write c p).contents p = .ok c := by
  cases p <;> simp [write, contents, register_setRegister, variableCell_setVariable, cellAt_setCell,
    setGlobal, get?_put]

theorem contents_write_ne (m : Machine) (c) (h : q ≠ p) :
    (m.write c p).contents q = m.contents q := by
  cases p <;> cases q <;> first
    | rfl
    | simp_all [write, contents, register_setRegister, variableCell_setVariable, cellAt_setCell,
        setGlobal, get?_put]

theorem contents_touch (m : Machine) (b p) : (m.touch b).contents p = m.contents p := by
  have hregister := register_touch m b
  obtain ⟨registers, tokens, htouch⟩ := touch_eq m b
  cases p with
  | register r => exact congrArg Except.ok (hregister r)
  | _ => rw [htouch]; rfl

/-- The address at an offset from a register, if both are numbers. -/
def address? (m : Machine) (v : Immediate) (b : Base) : Option Int := do
  let n ← v.value.toOption
  let start ← (m.register b.name).word?
  pure (Word.add start n)

end Machine

namespace Argument

/-- The place that an operand stands for. -/
def place? (m : Machine) : Argument → Option Place
  | register r => some (.register r)
  | .variable x => some (.variable x)
  | offset v b => (m.address? v b).map fun i => .memory (.word i)
  | direct b => some (.memory (m.register b.name))
  | global x base => if base == "rip" then some (.global x) else none
  | immediate _ | negative _ | other => none

/-- The register that the address is relative to. -/
def base? : Argument → Option String
  | offset _ b | direct b => some b.name
  | _ => none

def isDirect : Argument → Bool
  | direct _ => true
  | _ => false

theorem place?_congr (h : ∀ r, a.base? = some r → n.register r = m.register r) :
    a.place? n = a.place? m := by
  cases a with
  | offset v b => simp only [place?, address?, h b.name rfl]
  | direct b => simp only [place?, h b.name rfl]
  | _ => rfl

/-- An operand with an address is no register. -/
theorem place?_ne_register {r s} (h : a.place? m = some p) (hr : a.base? = some r) :
    p ≠ .register s := by
  rintro rfl
  cases a with
  | offset v b => cases hi : m.address? v b <;> simp [place?, hi] at h
  | direct b => cases h
  | _ => cases hr

end Argument

theorem addressOf_cases {α : Type} (v b) (f : Cell → Emulation α) (m : Machine) :
    (∃ i, m.address? v b = some i ∧ (addressOf v b >>= f).run m = (f (.word i)).run (m.touch b)) ∨
      m.address? v b = none ∧ ∃ e, (addressOf v b >>= f).run m = .error e (m.touch b) := by
  have hread : (readRegister b).run m = .ok (m.register b.name) (m.touch b) := rfl
  simp only [addressOf, bind_assoc, pure_bind, address?, Immediate.eval, wordOf]
  rw [run_next hread]
  cases v.value with
  | error e => exact .inr ⟨rfl, e, rfl⟩
  | ok n =>
    cases (m.register b.name).word? with
    | none => exact .inr ⟨rfl, _, rfl⟩
    | some i => exact .inl ⟨_, rfl, rfl⟩

theorem write_ok {t m'} (h : (a.write t c).run m = .ok () m') :
    ∃ p, ∃ m₁ : Machine, a.place? m = some p ∧ (∀ q, m₁.contents q = m.contents q) ∧
      m' = m₁.write c p := by
  cases a with
  | register r => cases h; exact ⟨.register r, m, rfl, fun q => rfl, rfl⟩
  | «variable» x => cases h; exact ⟨.variable x, m, rfl, fun q => rfl, rfl⟩
  | offset v b =>
    obtain ⟨i, hi, hrun⟩ | ⟨-, e, hrun⟩ := addressOf_cases v b (writeCell · c) m
    · cases hrun.symm.trans h
      exact ⟨.memory (.word i), m.touch b, by simp [Argument.place?, hi], contents_touch m b, rfl⟩
    · cases hrun.symm.trans h
  | direct b =>
    refine ⟨.memory (m.register b.name), m.touch b, rfl, contents_touch m b, ?_⟩
    replace h : (writeCell (m.register b.name) c).run (m.touch b) = .ok () m' := h
    cases hb : m.register b.name <;> rw [hb] at h <;> cases h <;> rfl
  | global x base =>
    simp only [Argument.write, checkGlobalBase] at h
    split at h
    · cases h
      next hbase => exact ⟨.global x, m, if_pos hbase, fun q => rfl, rfl⟩
    · cases h
  | immediate | negative | other => cases h

/-- How a run ends, without the machine that it leaves behind. -/
def outcome {ε σ α : Type} : Result ε σ α → Except ε α
  | .ok a _ => .ok a
  | .error e _ => .error e

theorem outcome_read {t} (h : a.place? m = some p) :
    outcome ((a.read t).run m) =
      if a.isDirect then .error (.unreadable t) else m.contents p := by
  cases a with
  | register r | «variable» x => cases h; rfl
  | offset v b =>
    obtain ⟨i, hi, hrun⟩ | ⟨hnone, -⟩ := addressOf_cases v b readCell m
    · rw [Argument.place?, hi] at h
      cases h
      exact (congrArg outcome hrun).trans (contents_touch m b (.memory (.word i)))
    · rw [Argument.place?, hnone] at h
      cases h
  | direct b => rfl
  | global x base =>
    simp only [Argument.place?] at h
    split at h
    · cases h
      next hbase =>
        simp only [Argument.read, checkGlobalBase, if_pos hbase, pure_bind, run_bind, run_get,
          contents]
        cases get? m.globals x <;> rfl
    · cases h
  | immediate | negative | other => cases h

/-- Reading after writing: an operand that was written to is read as what was written, if it can be
read at all, and one that stands for another place is read as before, unless its address is relative
to the register that was written to. -/
theorem read_after_write {t m'} (h : (writeOperand t c).run m = .ok () m') :
    ∃ p, (Argument.ofTree t).place? m = some p ∧
      outcome ((readOperand t).run m') =
        (if (Argument.ofTree t).isDirect then .error (.unreadable t) else .ok c) ∧
      ∀ u q, (Argument.ofTree u).place? m = some q → q ≠ p →
        (∀ r, p = .register r → (Argument.ofTree u).base? ≠ some r) →
        outcome ((readOperand u).run m') = outcome ((readOperand u).run m) := by
  obtain ⟨p, m₁, hp, hm₁, rfl⟩ := write_ok h
  have hcontents (q) (hq : q ≠ p) : (m₁.write c p).contents q = m.contents q :=
    (contents_write_ne m₁ c hq).trans (hm₁ q)
  have hregister (r) (hr : p ≠ .register r) : (m₁.write c p).register r = m.register r :=
    Except.ok.inj (hcontents (.register r) hr.symm)
  refine ⟨p, hp, ?_, fun u q hq hne hbase => ?_⟩
  · have hp' := (place?_congr fun r hr => hregister r (place?_ne_register hp hr)).trans hp
    rw [readOperand, outcome_read hp', contents_write]
  · have hq' := (place?_congr fun r hr => hregister r fun hp => hbase r hp hr).trans hq
    rw [readOperand, outcome_read hq', outcome_read hq, hcontents q hne]

/-- `popq` to the address in a register: it is written to and cannot be read, and a variable is
kept. -/
theorem read_after_write_direct :
    let t : ParseTree := .bare "direct_mem_a" [nameLeaf "rsp"]
    let x : ParseTree := .bare "var_a" [nameLeaf "x"]
    let m : Machine := { vars := [("x", .word 7)] }
    let m' : Machine := { m with memory := [(.word 1000, .word 5)] }
    (writeOperand t (.word 5)).run m = .ok () m' ∧
      outcome ((readOperand t).run m') = .error (.unreadable t) ∧
      outcome ((readOperand x).run m') = .ok (.word 7) := by
  intro t x m m'
  have hwrite : (writeOperand t (.word 5)).run m = .ok () m' := rfl
  obtain ⟨p, hp, hself, hother⟩ := read_after_write hwrite
  cases hp
  exact ⟨hwrite, hself, hother x (.variable "x") rfl (by simp) (by simp)⟩

end CompilerKit.X86
