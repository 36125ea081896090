import CompilerKit.Proofs.X86.Patch
import CompilerKit.Proofs.Vars.Meaning

/-!
# Instructions for assignments

The instructions that are selected for an assignment compute it, except for one: a subtraction of
the assigned variable itself overwrites the variable before it is read, and gives zero.

* `selectAssign_atom_runs` and its like: the code of each kind of expression, on any machine.
* `selectAssign_outcome`: what the code does where evaluation gives a value, and where it fails.
-/

namespace CompilerKit.Vars

open Run X86 List Word X86.Instr selectAssign Machine

/-! ## The selected instructions -/

/-- The constant is a word. -/
def IsWord (c : Value) : Prop := ∃ n id, c = .int n id ∧ inRange n = true

/-- The assignment of the expression reads its own variable after it has written it. -/
def clobbers (x : String) : Expr → Bool
  | .arith _ .sub b _ => isVariable x b
  | _ => false

section

variable {h : Heap} {x : String} {e : Expr} {is : List Instr}

theorem isVariable_eq (hx : isVariable x a) : ∃ note, a = .name x note := by
  cases a with
  | name y note =>
    obtain rfl := beq_iff_eq.mp hx
    exact ⟨note, rfl⟩
  | _ => cases hx

theorem selectAssign_atom_ok (hatom : isAtom e) (hs : selectAtom h e = .ok s)
    (hsel : selectAssign h x e = .ok is) : is = [.op "movq" [s, .variable x]] := by
  cases e with
  | name | const => cases hs; cases hsel; rfl
  | _ => cases hatom

variable (hs : selectAtom h a = .ok s)
include hs

theorem selectAssign_neg_ok (hsel : selectAssign h x (.unary .neg a note) = .ok is) :
    isVariable x a ∧ is = [.op "negq" [.variable x]] ∨
      is = [.op "movq" [s, .variable x], .op "negq" [.variable x]] := by
  rw [selectAssign, hs] at hsel
  split at hsel
  · next hx => cases hsel; exact .inl ⟨hx, rfl⟩
  · cases hsel; exact .inr rfl

theorem selectAssign_add_ok (ht : selectAtom h b = .ok t)
    (hsel : selectAssign h x (.arith a .add b note) = .ok is) :
    isVariable x a = false ∧
      is = [.op "movq" [t, .variable x], .op "addq" [s, .variable x]] := by
  rw [selectAssign, hs, ht] at hsel
  split at hsel
  · cases hsel
  · next hx =>
    split at hsel
    · cases hsel
    · cases hsel; exact ⟨Bool.eq_false_iff.mpr hx, rfl⟩

theorem selectAssign_sub_ok (ht : selectAtom h b = .ok t)
    (hsel : selectAssign h x (.arith a .sub b note) = .ok is) :
    is = [.op "movq" [s, .variable x], .op "subq" [t, .variable x]] := by
  rw [selectAssign, hs, ht] at hsel
  split at hsel
  · cases hsel
  · cases hsel; rfl

end

/-! ## The form of the code -/

/-- The tree is a number in `K`. -/
def IsNumeral (K : Value → Prop) (t : Term) : Prop := ∃ c id, t = .int c ∧ K (.int c id)

/-- The code computes on variables in `S` and numbers in `K`, and uses the scratch register right
after a number was read into it only. -/
structure Selected (K : Value → Prop) (S : String → Prop) (is : List Instr) : Prop where
  pseudo : is.all isPseudo
  tidy : isTidy false is
  names : ∀ y ∈ is.flatMap Instr.variables, S y
  consts : ∀ t, .immediate t ∈ is.flatMap operands → IsNumeral K t

/-- The operand may stand anywhere in the code, and its variable is in `D` or its number in `K`. -/
structure Source (K : Value → Prop) (D : String → Prop) (s : Operand) : Prop where
  pseudo : s.isPseudo
  fits : s.fits false
  names : ∀ y ∈ s.variables, D y
  const : ∀ t, .immediate t = s → IsNumeral K t

variable {k : Int}

section

variable {K : Value → Prop} {S D : String → Prop} {h : Heap} {x : String} {e : Expr}
  {is : List Instr}

theorem Selected.append (h : Selected K S is) (h' : Selected K S js) :
    Selected K S (is ++ js) where
  pseudo := by rw [all_append, h.pseudo, h'.pseudo, Bool.and_self]
  tidy := isTidy_append h.tidy h'.tidy
  names := by
    intro y hy
    rw [flatMap_append, mem_append] at hy
    exact hy.elim (h.names y) (h'.names y)
  consts := by
    intro t ht
    rw [flatMap_append, mem_append] at ht
    exact ht.elim (h.consts t) (h'.consts t)

theorem Selected.mono (h : Selected K S is) (hS : ∀ y, S y → D y) : Selected K D is :=
  { h with names := fun y hy => hS y (h.names y hy) }

theorem selected_nil : Selected K S [] := ⟨rfl, rfl, by simp, by simp⟩

theorem selected_call (hname : x = "print_int" ∨ x = "read_int") (n) :
    Selected K S [.call x n] := by
  rcases hname with rfl | rfl
  all_goals exact ⟨rfl, rfl, by simp [Instr.variables], by simp [Instr.operands]⟩

theorem selected_binary (hs : Source K S s) (ht : Source K S t)
    (hname : name = "movq" ∨ name = "addq" ∨ name = "subq") : Selected K S [.op name [s, t]] where
  pseudo := by
    rcases hname with rfl | rfl | rfl <;> simp [isPseudo, hs.pseudo, ht.pseudo]
  tidy := by
    have hcontains : ["movq", "addq", "subq"].contains name := by
      rcases hname with rfl | rfl | rfl <;> rfl
    rw [X86.isTidy, Instr.isTidy_of_fits hcontains hs.fits ht.fits]
    rfl
  names := by
    intro y hy
    simp only [flatMap_cons, flatMap_nil, Instr.variables, List.append_nil, mem_append] at hy
    exact hy.elim (hs.names y) (ht.names y)
  consts := by
    intro u hu
    simp only [flatMap_cons, flatMap_nil, operands, List.append_nil,
      mem_cons, not_mem_nil, or_false] at hu
    exact hu.elim (hs.const u) (ht.const u)

theorem source_variable (hx : S x) : Source K S (.variable x) :=
  ⟨rfl, rfl, fun _ hy => mem_singleton.mp hy ▸ hx, fun _ ht => by cases ht⟩

theorem Source.mono (h : Source K S s) (hS : ∀ y, S y → D y) : Source K D s :=
  { h with names := fun y hy => hS y (h.names y hy) }

theorem selected_into (hs : Source K D s) (hname : name = "movq" ∨ name = "addq" ∨ name = "subq") :
    Selected K (fun y => y = x ∨ D y) [.op name [s, .variable x]] :=
  selected_binary (hs.mono fun _ => .inr) (source_variable (.inl rfl)) hname

theorem selected_neg : Selected K (fun y => y = x ∨ D y) [.op "negq" [.variable x]] :=
  ⟨rfl, rfl, fun _ hy => .inl (mem_singleton.mp hy), by simp [operands]⟩

theorem selected_input :
    Selected K (fun y => y = x ∨ D y)
      [.call "read_int" (.int 0), .op "movq" [.reg "rax", .variable x]] :=
  ⟨rfl, rfl, fun _ hy => .inl (mem_singleton.mp hy), by simp [operands]⟩

section

variable (hK : ∀ c, K c → IsWord c)

include hK

theorem selectAtom_source (ha : Built D K a) (hatom : isAtom a) (h : Heap) :
    ∃ s, selectAtom h a = .ok s ∧ Source K D s := by
  cases ha with
  | name note hy => exact ⟨_, rfl, source_variable hy⟩
  | const note hc =>
    obtain ⟨n, id, rfl, -⟩ := hK _ hc
    exact ⟨_, rfl, rfl, rfl, nofun, fun t ht => ⟨n, id, Operand.immediate.inj ht, hc⟩⟩
  | _ => cases hatom

theorem selectAssign_selected (he : Built D K e) (hsimple : isSimple e)
    (hsel : selectAssign h x e = .ok is) : Selected K (fun y => y = x ∨ D y) is := by
  have hbuilt := he
  cases he with
  | name | const =>
    obtain ⟨s, hs, hsource⟩ := selectAtom_source hK hbuilt rfl h
    rw [selectAssign_atom_ok rfl hs hsel]
    exact selected_into hsource (.inl rfl)
  | input j k => cases hsel; exact selected_input
  | neg note ha =>
    obtain ⟨s, hs, hsource⟩ := selectAtom_source hK ha hsimple h
    obtain ⟨-, rfl⟩ | rfl := selectAssign_neg_ok hs hsel
    · exact selected_neg
    · exact (selected_into hsource (.inl rfl)).append selected_neg
  | @arith a b op note hop ha hb =>
    obtain ⟨hatom, hatom'⟩ := Bool.and_eq_true_iff.mp hsimple
    obtain ⟨s, hs, hsource⟩ := selectAtom_source hK ha hatom h
    obtain ⟨t, ht, hsource'⟩ := selectAtom_source hK hb hatom' h
    cases op with
    | add =>
      obtain ⟨-, rfl⟩ := selectAssign_add_ok hs ht hsel
      exact (selected_into hsource' (.inl rfl)).append (selected_into hsource (.inr (.inl rfl)))
    | sub =>
      obtain rfl := selectAssign_sub_ok hs ht hsel
      exact (selected_into hsource (.inl rfl)).append (selected_into hsource' (.inr (.inr rfl)))
    | _ => cases hop

end

end

/-! ## Numbers on both sides -/

/-- The variable holds the same word in the environment number `i` and in the machine. -/
def Mirrored (i : Nat) (σ : Store) (m : Machine) (y : String) : Prop :=
  ∃ n id, read i σ y = some (.int n id) ∧ inRange n = true ∧ m.variableCell y = .word n

/-- The machine `m'` is the machine `m` after the variable `x` was given the number `n`. -/
structure Assigned (x : String) (n : Int) (m m' : Machine) : Prop where
  written : m'.variableCell x = .word n
  others : ∀ y, y ≠ x → m'.variableCell y = m.variableCell y
  memory : m'.memory = m.memory
  output : m'.output = m.output
  console : m'.console.output = m.console.output
  logging : m'.logging = m.logging

theorem assigned_setVariable (x n m) : Assigned x n m (m.setVariable x (.word n)) where
  written := by rw [variableCell_setVariable, if_pos rfl]
  others := fun y hy => by rw [variableCell_setVariable, if_neg hy]
  memory := rfl
  output := rfl
  console := rfl
  logging := rfl

theorem Assigned.trans (h : Assigned x n m m') (h' : Assigned x k m' m'') :
    Assigned x k m m'' where
  written := h'.written
  others := fun y hy => (h'.others y hy).trans (h.others y hy)
  memory := h'.memory.trans h.memory
  output := h'.output.trans h.output
  console := h'.console.trans h.console
  logging := h'.logging.trans h.logging

/-- The operators of the language on words. -/
def onWords : ArithOp → Int → Int → Int
  | .sub => sub
  | _ => add

theorem inRange_onWords (op k l) : inRange (onWords op k l) := by
  cases op <;> exact inRange_wrap _

section

variable {i : Nat} {σ : Store} {m : Machine} {e : Expr} {x : String}

/-- The operand of an atom has the value of the atom, also after another variable was written. -/
theorem atom_reads (ha : Built (Mirrored i σ m) IsWord a) (hatom : isAtom a) (h : Heap) :
    ∃ n id s, (value i a).run σ = .ok (.int n id) σ ∧ inRange n ∧
      selectAtom h a = .ok s ∧ Reads m s (.word n) ∧
      ∀ x c, isVariable x a = false → Reads (m.setVariable x c) s (.word n) := by
  cases ha with
  | @name y note hy =>
    obtain ⟨n, id, hread, hn, hcell⟩ := hy
    refine ⟨n, id, .variable y, run_lookup hread, hn, rfl, reads_variable hcell, fun x c hx => ?_⟩
    exact Reads.setVariable (fun hyx => beq_eq_false_iff_ne.mp hx hyx.symm) hcell c
  | const note hc =>
    obtain ⟨n, id, rfl, hn⟩ := hc
    exact ⟨n, id, .immediate (.int n), rfl, hn, rfl, reads_immediate m hn,
      fun x c _ => reads_immediate _ hn⟩
  | _ => cases hatom

theorem run_value_neg {id} (ha : (value i a).run σ = .ok (.int k id) σ) (note) :
    (value i (.unary .neg a note)).run σ =
      .ok (.int (neg k) σ.next) { σ with next := σ.next + 1 } :=
  (run_next ha).trans rfl

theorem run_value_arith {l id id'} (ha : (value i a).run σ = .ok (.int k id) σ)
    (hb : (value i b).run σ = .ok (.int l id') σ) {op} (hop : hasArith .vars op) (note) :
    (value i (.arith a op b note)).run σ =
      .ok (.int (onWords op k l) σ.next) { σ with next := σ.next + 1 } := by
  refine (run_next ha).trans ((run_next hb).trans ?_)
  cases op with
  | add => rfl
  | sub => rfl
  | _ => cases hop

section

variable (he : Built (Mirrored i σ m) IsWord e) (hsimple : isSimple e)
include he hsimple

theorem run_value_simple :
    (∃ j k, e = .call (.name "input_int" j) [] k) ∨
      (∀ j k, e ≠ .call (.name "input_int" j) [] k) ∧
        ∃ v next, (value i e).run σ = .ok v { σ with next } := by
  cases he with
  | name note hy =>
    obtain ⟨n, id, hread, -⟩ := hy
    exact .inr ⟨nofun, _, _, run_lookup hread⟩
  | const note hc => exact .inr ⟨nofun, _, _, rfl⟩
  | input j k => exact .inl ⟨j, k, rfl⟩
  | neg note ha =>
    obtain ⟨k, id, s, hrun, -⟩ := atom_reads ha hsimple #[]
    exact .inr ⟨nofun, _, _, run_value_neg hrun note⟩
  | @arith a b op note hop ha hb =>
    obtain ⟨hatom, hatom'⟩ := Bool.and_eq_true_iff.mp hsimple
    obtain ⟨k, id, s, hrun, -⟩ := atom_reads ha hatom #[]
    obtain ⟨l, id', t, hrun', -⟩ := atom_reads hb hatom' #[]
    exact .inr ⟨nofun, _, _, run_value_arith hrun hrun' hop note⟩

theorem value_error (hv : (value i e).run σ = .error err σ') :
    ∃ j k f, e = .call (.name "input_int" j) [] k ∧ err = .fault f ∧
      σ.console.readInt = (.error f, σ'.console) := by
  obtain ⟨j, k, rfl⟩ | ⟨-, v, next, hrun⟩ := run_value_simple he hsimple
  · change readInt.run σ = _ at hv
    rw [run_readInt] at hv
    rcases hr : σ.console.readInt with ⟨f | n, c⟩
    · rw [hr] at hv
      cases hv
      exact ⟨j, k, f, rfl, rfl, rfl⟩
    · simp only [hr] at hv
      split at hv <;> cases hv
  · cases hrun.symm.trans hv

end

/-! ## Assignments -/

/-- What an assignment comes to on both sides: the value of the expression is a number, the
instructions run to their end, and the variable is assigned that number or, if it is clobbered,
zero. The store has only read input and made new objects. -/
structure Computed (x : String) (e : Expr) (σ : Store) (m : Machine) (is : List Instr) (v : Value)
    (σ' : Store) (n : Int) (m' : Machine) : Prop where
  value : ∃ id, v = .int n id
  word : inRange n
  runs : Runs is m m'
  assigned : Assigned x (if clobbers x e then 0 else n) m m'
  input : m'.console.input = σ'.console.input
  output : σ'.console.output = σ.console.output
  envs : σ'.envs = σ.envs

variable {h : Heap} {is : List Instr} (hm : m.logging = false)
  (hinput : m.console.input = σ.console.input)

include hm hinput

theorem selectAssign_atom_runs (he : Built (Mirrored i σ m) IsWord e) (hatom : isAtom e)
    (hsel : selectAssign h x e = .ok is) (hv : (value i e).run σ = .ok v σ') :
    ∃ n m', Computed x e σ m is v σ' n m' := by
  obtain ⟨n, id, s, hrun, hn, hs, hreads, -⟩ := atom_reads he hatom h
  obtain rfl := selectAssign_atom_ok hatom hs hsel
  have hclobbers : clobbers x e = false := by
    cases he with
    | name | const => rfl
    | _ => cases hatom
  rw [hrun] at hv
  cases hv
  refine ⟨n, _, ⟨id, rfl⟩, hn, runs_move hm hreads (writes_variable ..), ?_, hinput, rfl, rfl⟩
  rw [hclobbers]
  exact assigned_setVariable x n m

theorem readInt_runs (hv : readInt.run σ = .ok v σ') :
    ∃ n id input next, v = .int n id ∧ inRange n ∧
      σ' = { σ with console := { σ.console with input }, next } ∧
      Runs [.call "read_int" (.int 0)] m
        (setRegister { m with console := { m.console with input } } "rax" (.word n)) := by
  have hσ := Console.readInt_congr (c := σ.console) rfl
  have hread := Console.readInt_congr hinput
  rw [run_readInt] at hv
  rcases hr : σ.console.readInt with ⟨f | n, c⟩
  · rw [hr] at hv
    cases hv
  · rw [hr] at hσ hread
    obtain ⟨input, rfl⟩ : ∃ input, c = { σ.console with input } := ⟨_, congrArg Prod.snd hσ⟩
    have hruns := runs_readInt hm hread (.int 0)
    simp only [hr] at hv
    split at hv <;> cases hv <;> exact ⟨n, _, _, _, rfl, Console.inRange_readInt hr, rfl, hruns⟩

theorem selectAssign_input_runs {j k}
    (hsel : selectAssign h x (.call (.name "input_int" j) [] k) = .ok is)
    (hv : (value i (.call (.name "input_int" j) [] k)).run σ = .ok v σ') :
    ∃ n m', Computed x (.call (.name "input_int" j) [] k) σ m is v σ' n m' := by
  cases hsel
  obtain ⟨n, id, input, next, rfl, hn, rfl, hruns⟩ := readInt_runs hm hinput hv
  -- the machine after the call, with the number in its register
  let m1 := setRegister { m with console := { m.console with input } } "rax" (.word n)
  have hrax : Reads m1 (.reg "rax") (.word n) :=
    reads_register (by simp [m1, setRegister, Bindings.get?_put])
  have hm1 : m1.logging = false := hm
  have hset := assigned_setVariable x n m1
  exact ⟨n, _, ⟨id, rfl⟩, hn, hruns.append (runs_move hm1 hrax (writes_variable ..)),
    ⟨hset.written, hset.others, rfl, rfl, rfl, rfl⟩, rfl, rfl, rfl⟩

section

variable (ha : Built (Mirrored i σ m) IsWord a) (hatom : isAtom a)
include ha hatom

theorem selectAssign_neg_runs
    (hsel : selectAssign h x (.unary .neg a note) = .ok is)
    (hv : (value i (.unary .neg a note)).run σ = .ok v σ') :
    ∃ n m', Computed x (.unary .neg a note) σ m is v σ' n m' := by
  obtain ⟨k, id, s, hrun, -, hs, hreads, -⟩ := atom_reads ha hatom h
  rw [run_value_neg hrun] at hv
  cases hv
  have hword : inRange (neg k) := inRange_wrap _
  obtain ⟨hx, rfl⟩ | rfl := selectAssign_neg_ok hs hsel
  · obtain ⟨note, rfl⟩ := isVariable_eq hx
    cases ha with
    | name _ hy =>
      obtain ⟨l, id', hread, -, hcell⟩ := hy
      cases (run_lookup hread).symm.trans hrun
      exact ⟨_, _, ⟨_, rfl⟩, hword, runs_neg hm hcell, assigned_setVariable x _ m, hinput, rfl, rfl⟩
  · have hset := assigned_setVariable x k m
    exact ⟨_, _, ⟨_, rfl⟩, hword,
      (runs_move hm hreads (writes_variable ..)).append
        (runs_neg (hset.logging.trans hm) hset.written),
      hset.trans (assigned_setVariable x _ _), hinput, rfl, rfl⟩

variable (hb : Built (Mirrored i σ m) IsWord b) (hatom' : isAtom b)
include hb hatom'

theorem selectAssign_add_runs
    (hsel : selectAssign h x (.arith a .add b note) = .ok is)
    (hv : (value i (.arith a .add b note)).run σ = .ok v σ') :
    ∃ n m', Computed x (.arith a .add b note) σ m is v σ' n m' := by
  obtain ⟨k, id, s, hrun, -, hs, -, hkeep⟩ := atom_reads ha hatom h
  obtain ⟨l, id', t, hrun', -, ht, hreads, -⟩ := atom_reads hb hatom' h
  rw [run_value_arith hrun hrun' rfl] at hv
  cases hv
  obtain ⟨hx, rfl⟩ := selectAssign_add_ok hs ht hsel
  have hset := assigned_setVariable x l m
  exact ⟨_, _, ⟨_, rfl⟩, inRange_onWords .add k l,
    (runs_move hm hreads (writes_variable ..)).append (runs_add (hset.logging.trans hm)
      (hkeep x _ hx) (reads_variable hset.written) (writes_variable ..)),
    hset.trans (assigned_setVariable x _ _), hinput, rfl, rfl⟩

theorem selectAssign_sub_runs
    (hsel : selectAssign h x (.arith a .sub b note) = .ok is)
    (hv : (value i (.arith a .sub b note)).run σ = .ok v σ') :
    ∃ n m', Computed x (.arith a .sub b note) σ m is v σ' n m' := by
  obtain ⟨k, id, s, hrun, -, hs, hreads, -⟩ := atom_reads ha hatom h
  obtain ⟨l, id', t, hrun', -, ht, -, hkeep⟩ := atom_reads hb hatom' h
  rw [run_value_arith hrun hrun' rfl] at hv
  cases hv
  obtain rfl := selectAssign_sub_ok hs ht hsel
  have hset := assigned_setVariable x k m
  have hquiet := hset.logging.trans hm
  have hx' := reads_variable hset.written
  refine ⟨onWords .sub k l, ?_⟩
  by_cases hx : isVariable x b
  · -- the variable already holds the first operand when the second is read
    obtain ⟨note, rfl⟩ := isVariable_eq hx
    cases ht
    refine ⟨_, ⟨_, rfl⟩, inRange_onWords .sub k l, (runs_move hm hreads (writes_variable ..)).append
      (runs_sub hquiet hx' hx' (writes_variable ..)), ?_, hinput, rfl, rfl⟩
    rw [clobbers, if_pos hx, sub_self]
    exact hset.trans (assigned_setVariable x _ _)
  · refine ⟨_, ⟨_, rfl⟩, inRange_onWords .sub k l, (runs_move hm hreads (writes_variable ..)).append
      (runs_sub hquiet (hkeep x _ (Bool.eq_false_iff.mpr hx)) hx' (writes_variable ..)), ?_, hinput,
      rfl, rfl⟩
    rw [clobbers, if_neg hx]
    exact hset.trans (assigned_setVariable x _ _)

end

/-- What an assignment comes to: the value of its expression is assigned on the machine, or zero if
the variable is clobbered, and the rest of the input is the same; or both sides stop at the input,
and the machine has not changed any variable or memory. -/
inductive Outcome (x : String) (e : Expr) (m : Machine) :
    EStateM.Result RunError Store Value → EStateM.Result MachineError Machine Unit → Prop where
  | assigned {n id σ' m'} (h : Assigned x (if clobbers x e then 0 else n) m m')
      (hinput : m'.console.input = σ'.console.input) :
      Outcome x e m (.ok (.int n id) σ') (.ok () m')
  | stopped (hvars : m'.vars = m.vars) (hmemory : m'.memory = m.memory)
      (hinput : m'.console.input = σ'.console.input) :
      Outcome x e m (.error (.fault f) σ') (.error (.fault f) m')

section

variable (he : Built (Mirrored i σ m) IsWord e) (hsimple : isSimple e)
  (hsel : selectAssign h x e = .ok is)
include he hsimple hsel

theorem selectAssign_runs (hv : (value i e).run σ = .ok v σ') :
    ∃ n m', Computed x e σ m is v σ' n m' := by
  have hbuilt := he
  cases he with
  | name | const => exact selectAssign_atom_runs hm hinput hbuilt rfl hsel hv
  | input j k => exact selectAssign_input_runs hm hinput hsel hv
  | neg note ha => exact selectAssign_neg_runs hm hinput ha hsimple hsel hv
  | @arith a b op note hop ha hb =>
    obtain ⟨hatom, hatom'⟩ := Bool.and_eq_true_iff.mp hsimple
    cases op with
    | add => exact selectAssign_add_runs hm hinput ha hatom hb hatom' hsel hv
    | sub => exact selectAssign_sub_runs hm hinput ha hatom hb hatom' hsel hv
    | _ => cases hop

theorem selectAssign_outcome (blocks) (enter : List ParseTree → Emulation Unit) :
    Outcome x e m ((value i e).run σ) ((runWith blocks enter (is.map node)).run m) := by
  cases hv : (value i e).run σ with
  | ok v σ' =>
    obtain ⟨n, m', hcomputed⟩ := selectAssign_runs hm hinput he hsimple hsel hv
    obtain ⟨id, rfl⟩ := hcomputed.value
    have hruns := hcomputed.runs blocks enter []
    rw [append_nil] at hruns
    rw [hruns]
    exact .assigned hcomputed.assigned hcomputed.input
  | error err σ' =>
    obtain ⟨j, k, f, rfl, rfl, hr⟩ := value_error he hsimple hv
    have hread := Console.readInt_congr hinput
    rw [hr] at hread
    cases hsel
    rw [map_cons, run_readInt_error hm hread]
    exact .stopped rfl rfl rfl

end

omit hm hinput in
/-- The instructions of an assignment with atomic operands compute it, on a machine that keeps no
log, with one exception: a subtraction of the assigned variable itself leaves zero. -/
theorem selectStmt_computes (he : Built (Mirrored i σ m) IsWord e) (hsimple : isSimple e = true)
    {j k : Note} (hsel : selectStmt? h (.assign [.name x j] e k) = .ok (some is))
    (hquiet : m.logging = false) (hinput : m.console.input = σ.console.input) :
    ∃ ts, trees is = .ok ts ∧
      ∃ N, ∀ fuel, N ≤ fuel → ∀ blocks depth,
        Outcome x e m ((evalExpr .vars fuel i e).run σ)
          ((run blocks (depth + 1) ts).run m) := by
  have hsel' : selectAssign h x e = .ok is := by
    obtain ⟨is', his', hsel⟩ := ok_of_bind hsel
    cases hsel
    exact his'
  obtain ⟨N, hN⟩ := (limit_evalExpr he).reached
  have hselected := selectAssign_selected (fun _ hc => hc) he hsimple hsel'
  have hplain := all_isPlain_of_isPseudo hselected.pseudo
  refine ⟨is.map node, trees_eq hplain, N, fun fuel hfuel blocks depth => ?_⟩
  have heval : evalExpr .vars fuel i e = value i e := congrFun (hN fuel hfuel) i
  rw [heval]
  exact selectAssign_outcome hquiet hinput he hsimple hsel' blocks _

end

/-- The variable `x` is one and the variable `y` is five: `x = y - x` has the value four, and leaves
zero in `x`. -/
theorem selectStmt_computes_clobbered :
    let e : Expr := .arith (.name "y" {}) .sub (.name "x" {}) {}
    let σ : Store := { envs := #[[("x", .int 1 2), ("y", .int 5 3)]], next := 4 }
    let m : Machine := { vars := [("x", .word 1), ("y", .word 5)] }
    let is : List Instr :=
      [.op "movq" [.variable "y", .variable "x"], .op "subq" [.variable "x", .variable "x"]]
    Built (Mirrored 0 σ m) IsWord e ∧ isSimple e = true ∧
      selectStmt? #[] (.assign [.name "x" {}] e {}) = .ok (some is) ∧
      m.logging = false ∧ m.console.input = σ.console.input ∧
      (value 0 e).run σ = .ok (.int 4 4) { σ with next := 5 } ∧
      ∃ ts, trees is = .ok ts ∧
        (∃ N, ∀ fuel, N ≤ fuel → ∀ blocks depth,
          Outcome "x" e m ((evalExpr .vars fuel 0 e).run σ)
            ((run blocks (depth + 1) ts).run m)) ∧
        (run [] 1 ts).run m = .ok () { m with vars := [("x", .word 0), ("y", .word 5)] } := by
  intro e σ m is
  have hx : Mirrored 0 σ m "x" := ⟨1, 2, rfl, rfl, rfl⟩
  have hy : Mirrored 0 σ m "y" := ⟨5, 3, rfl, rfl, rfl⟩
  have he : Built (Mirrored 0 σ m) IsWord e := .arith {} rfl (.name {} hy) (.name {} hx)
  have hsel : selectStmt? #[] (.assign [.name "x" {}] e {}) = .ok (some is) := rfl
  obtain ⟨ts, hts, houtcome⟩ := selectStmt_computes he rfl hsel rfl rfl
  refine ⟨he, rfl, hsel, rfl, rfl, rfl, ts, hts, houtcome, ?_⟩
  cases hts
  rfl

end CompilerKit.Vars
