import Mathlib.Data.List.Infix
import Mathlib.Data.Finset.Card
import CompilerKit.Compile
import CompilerKit.Proofs.X86.Straight

/-!
# The layout of a frame

Places in the frame are given out while the operands of the code are replaced. What comes out is
nevertheless a fixed replacement: the variables in the order in which they first occur, each at the
place with its number.
-/

namespace CompilerKit.X86

open List Instr Operand

variable {xs zs : List String} {a : Operand} {is : List Instr} {x : String}

/-! ## Variables in the order of their first occurrence -/

/-- The variables `xs`, and those of `ys` that are not among them yet. -/
def meet (xs ys : List String) : List String :=
  ys.foldl (fun xs y => if y ∈ xs then xs else xs ++ [y]) xs

theorem meet_cons (xs y ys) : meet xs (y :: ys) = meet (if y ∈ xs then xs else xs ++ [y]) ys := rfl

theorem meet_append (xs ys zs) : meet xs (ys ++ zs) = meet (meet xs ys) zs := foldl_append

theorem prefix_meet (xs ys) : xs <+: meet xs ys := by
  induction ys generalizing xs with
  | nil => exact prefix_rfl
  | cons y ys ih =>
    rw [meet_cons]
    refine IsPrefix.trans ?_ (ih _)
    split
    · exact prefix_rfl
    · exact prefix_append xs [y]

theorem mem_meet : x ∈ meet xs ys ↔ x ∈ xs ∨ x ∈ ys := by
  induction ys generalizing xs with
  | nil => simp [meet]
  | cons y ys ih =>
    rw [meet_cons, ih, mem_cons]
    split
    · next hy =>
      constructor
      · rintro (h | h)
        · exact .inl h
        · exact .inr (.inr h)
      · rintro (h | rfl | h)
        · exact .inl h
        · exact .inl hy
        · exact .inr h
    · rw [mem_append, mem_singleton, or_assoc]

theorem nodup_meet (h : xs.Nodup) (ys) : (meet xs ys).Nodup := by
  induction ys generalizing xs with
  | nil => exact h
  | cons y ys ih =>
    rw [meet_cons]
    refine ih ?_
    split
    · exact h
    · next hy =>
      refine nodup_append.mpr ⟨h, nodup_singleton y, ?_⟩
      intro x hx z hz hxz
      rw [mem_singleton] at hz
      exact hy (hz ▸ hxz ▸ hx)

theorem length_meet (ys) : (meet [] ys).length = ys.toFinset.card := by
  rw [← toFinset_card_of_nodup (nodup_meet nodup_nil ys)]
  congr 1
  ext x
  simp [mem_meet]

theorem idxOf_extend (h : xs <+: zs) (hx : x ∈ xs) : zs.idxOf x = xs.idxOf x := by
  obtain ⟨ys, rfl⟩ := h
  exact idxOf_append_of_mem hx

/-! ## Layouts -/

/-- Where the place number `k` of a frame is, from the base of the frame. -/
def offset (k : Nat) : Int := -(k) * 8 - 8

/-- The number of places that a frame may have, `2 ^ 59`: the offsets of all of them are words. -/
def maxPlaces : Nat := 0x800000000000000

/-- The place number `k` of a frame. -/
def place (k : Nat) : Operand := .deref "rbp" (.int (offset k))

/-- The places of variables, from the place number `k` on. -/
def layout : (k : Nat) → List String → Homes
  | _, [] => []
  | k, x :: xs => (.variable x, place k) :: layout (k + 1) xs

theorem length_layout (k xs) : (layout k xs).length = xs.length := by
  induction xs generalizing k with
  | nil => rfl
  | cons x xs ih => exact congrArg (· + 1) (ih (k + 1))

theorem layout_concat (k xs x) :
    layout k (xs ++ [x]) = layout k xs ++ [(.variable x, place (k + xs.length))] := by
  induction xs generalizing k with
  | nil => rfl
  | cons y ys ih =>
    change _ :: layout (k + 1) (ys ++ [x]) = _ :: _
    rw [ih, length_cons, Nat.add_assoc, Nat.add_comm 1]
    rfl

theorem beq_variable (x y) : (Operand.variable x == Operand.variable y) = (x == y) := rfl

theorem get?_layout (k xs x) :
    (layout k xs).get? (.variable x) =
      if x ∈ xs then some (place (k + xs.idxOf x)) else none := by
  induction xs generalizing k with
  | nil => rfl
  | cons y ys ih =>
    rw [layout, Homes.get?, lookup_cons, beq_variable]
    by_cases hxy : x = y
    · subst hxy
      simp
    · have hyx : (x == y) = false := by simpa using hxy
      rw [hyx]
      change (layout (k + 1) ys).get? (.variable x) = _
      rw [ih, idxOf_cons_ne _ (Ne.symm hxy)]
      simp only [mem_cons, hxy, false_or]
      congr 3
      omega

/-! ## Replacement by places -/

/-- The variables of an operand. -/
def Operand.variables : Operand → List String
  | .variable x => [x]
  | _ => []

/-- The variables of an instruction. -/
def Instr.variables : Instr → List String
  | .op _ args => args.flatMap Operand.variables
  | _ => []

/-- The operand with its place in the layout of `zs`. -/
def Operand.settle (zs : List String) : Operand → Operand
  | .variable x => place (zs.idxOf x)
  | a => a

/-- The instruction with the places of its operands in the layout of `zs`. -/
def Instr.settle (zs : List String) : Instr → Instr
  | .op name args => .op name (args.map (Operand.settle zs))
  | i => i

theorem place_layout (xs x) :
    (layout 0 xs).place (.variable x) =
      (place ((meet xs [x]).idxOf x), layout 0 (meet xs [x])) := by
  have hmeet : meet xs [x] = if x ∈ xs then xs else xs ++ [x] := rfl
  rw [Homes.place, get?_layout, hmeet, Nat.zero_add]
  by_cases hx : x ∈ xs
  · simp only [if_pos hx]
  · simp only [if_neg hx]
    have hidx : (xs ++ [x]).idxOf x = xs.length := by
      rw [idxOf_append_of_notMem hx]
      simp
    rw [hidx, layout_concat, Nat.zero_add, Homes.next, length_layout]
    rfl

theorem homeOf_layout (ha : a.isPlain) (xs) :
    homeOf (layout 0 xs) a = (a.settle (meet xs a.variables), layout 0 (meet xs a.variables)) := by
  cases a with
  | «variable» x => exact place_layout xs x
  | other t => cases ha
  | _ => rfl

theorem settle_extend (h : xs <+: zs) (ha : ∀ x ∈ a.variables, x ∈ xs) :
    a.settle zs = a.settle xs := by
  cases a with
  | «variable» x =>
    have hx : x ∈ xs := ha x List.mem_cons_self
    simp only [Operand.settle, idxOf_extend h hx]
  | _ => rfl

theorem homesOf_layout (has : as.all isPlain)
    (h : meet xs (as.flatMap Operand.variables) <+: zs) :
    homesOf (layout 0 xs) as =
      (as.map (Operand.settle zs), layout 0 (meet xs (as.flatMap Operand.variables))) := by
  induction as generalizing xs with
  | nil => rfl
  | cons a as ih =>
    simp only [all_cons, Bool.and_eq_true] at has
    rw [flatMap_cons, meet_append] at h ⊢
    have hextend : meet xs a.variables <+: zs := (prefix_meet _ _).trans h
    have hsettle : a.settle (meet xs a.variables) = a.settle zs :=
      (settle_extend hextend fun x hx => mem_meet.mpr (.inr hx)).symm
    simp only [homesOf, homeOf_layout has.1, ih has.2 h, hsettle, map_cons]

variable {i : Instr}

theorem homeInstr_layout (hi : i.operands.all isPlain)
    (h : meet xs i.variables <+: zs) :
    homeInstr (layout 0 xs) i = (i.settle zs, layout 0 (meet xs i.variables)) := by
  cases i with
  | op name as =>
    have has : as.all isPlain := hi
    simp only [homeInstr, homesOf_layout has h, Instr.settle, Instr.variables]
  | _ => rfl

theorem homeInstrs_layout_extend (his : ∀ i ∈ is, i.operands.all isPlain)
    (h : meet xs (is.flatMap Instr.variables) <+: zs) :
    homeInstrs (layout 0 xs) is =
      (is.map (Instr.settle zs), layout 0 (meet xs (is.flatMap Instr.variables))) := by
  induction is generalizing xs with
  | nil => rfl
  | cons i is ih =>
    obtain ⟨hi, his⟩ := forall_mem_cons.mp his
    rw [flatMap_cons, meet_append] at h ⊢
    have hextend : meet xs i.variables <+: zs := (prefix_meet _ _).trans h
    simp only [homeInstrs, homeInstr_layout hi hextend, ih his h, map_cons]

/-- Giving out places on the way replaces every variable by its place in the layout of all
variables, in the order of their first occurrence. -/
theorem homeInstrs_layout_operands (his : ∀ i ∈ is, i.operands.all isPlain) :
    homeInstrs [] is =
      (is.map (Instr.settle (meet [] (is.flatMap Instr.variables))),
        layout 0 (meet [] (is.flatMap Instr.variables))) := by
  have hextend : meet [] (is.flatMap Instr.variables) <+: meet [] (is.flatMap Instr.variables) :=
    List.prefix_rfl
  exact homeInstrs_layout_extend his hextend

theorem homeInstrs_layout (his : is.all isPlain) :
    ∃ zs, homeInstrs [] is = (is.map (Instr.settle zs), layout 0 zs) ∧
      zs.length = (is.flatMap Instr.variables).toFinset.card ∧
      ∀ x ∈ is.flatMap Instr.variables, x ∈ zs := by
  refine ⟨_, homeInstrs_layout_operands fun i hi => ?_, length_meet _,
    fun x hx => mem_meet.mpr (.inr hx)⟩
  have hplain := all_eq_true.mp his i hi
  cases i with
  | op name as => exact hplain
  | _ => rfl

theorem assignHomes_flat (h : homeInstrs [] is = (js, homes)) (space) :
    assignHomes { code := .flat is, stackSpace := space } =
      .ok { code := .flat js, stackSpace := some (frameSize homes.length) } := by
  change Except.ok _ = _
  rw [h]

/-! ## Frames -/

/-- The operand is a variable, a constant or a register. -/
def Operand.isUnplaced : Operand → Bool
  | .variable _ | .immediate _ | .reg _ | .byteReg _ => true
  | _ => false

theorem Operand.isPlain_of_isUnplaced (h : a.isUnplaced) : a.isPlain := by
  cases a with
  | other t => cases h
  | _ => rfl

theorem place_inj : place j = place k ↔ j = k := by
  constructor
  · intro h
    have h : offset j = offset k := by simpa [place] using h
    rw [offset, offset] at h
    omega
  · exact congrArg place

theorem settle_inj (ha : a.isUnplaced) (hb : b.isUnplaced)
    (hmem : ∀ x ∈ a.variables, x ∈ zs) : a.settle zs = b.settle zs ↔ a = b := by
  refine ⟨fun h => ?_, congrArg _⟩
  cases a with
  | «variable» x =>
    cases b with
    | «variable» y =>
      have hidx := place_inj.mp h
      rw [(idxOf_inj (hmem x mem_cons_self)).mp hidx]
    | deref | other => cases hb
    | _ => cases h
  | deref | other => cases ha
  | _ =>
    cases b with
    | deref | other => cases hb
    | _ => cases h <;> rfl

theorem variables_settle (zs) : (i.settle zs).variables = [] := by
  cases i with
  | op name as =>
    rw [Instr.settle, Instr.variables, flatMap_map, flatMap_eq_nil_iff]
    intro a _
    cases a <;> rfl
  | _ => rfl

theorem map_settle (h : zs.Nodup) :
    zs.map (fun x => (Operand.variable x).settle zs) = (range zs.length).map place := by
  refine ext_getElem (by simp) fun k hk _ => ?_
  rw [length_map] at hk
  simp [Operand.settle, h.idxOf_getElem k hk]

theorem frameSize_bounds (n) :
    16 ∣ frameSize n ∧ 8 * n ≤ frameSize n ∧ frameSize n ≤ 8 * n + 8 := by
  unfold frameSize
  split <;> omega

/-- The frame of code over variables, constants and registers: no variable is left, and operands
are the same afterwards exactly if they were the same before. The places of the variables `xs`, in
the order of their first occurrence, go down from the base of the frame in steps of eight bytes. The
size of the frame is a multiple of sixteen, and the least one that has room for all places. -/
theorem assignHomes_lays_out (is : List Instr)
    (his : ∀ i ∈ is, i.operands.all isUnplaced = true) (space : Option Int) :
    ∃ js xs size, assignHomes { code := .flat is, stackSpace := space } =
        .ok { code := .flat js, stackSpace := some size } ∧
      js = is.map (Instr.settle xs) ∧ (∀ j ∈ js, j.variables = []) ∧
      (∀ a ∈ is.flatMap operands, ∀ b ∈ is.flatMap operands,
        (a.settle xs = b.settle xs ↔ a = b)) ∧
      xs = meet [] (is.flatMap Instr.variables) ∧
      xs.map (fun x => (Operand.variable x).settle xs) =
        (range xs.length).map (fun k => .deref "rbp" (.int (-8 * (k + 1)))) ∧
      16 ∣ size ∧ 8 * xs.length ≤ size ∧ size ≤ 8 * xs.length + 8 := by
  have hplain : ∀ i ∈ is, i.operands.all isPlain = true := fun i hi =>
    all_eq_true.mpr fun a ha =>
      isPlain_of_isUnplaced (all_eq_true.mp (his i hi) a ha)
  have hhomes := homeInstrs_layout_operands hplain
  have hunplaced : ∀ a ∈ is.flatMap operands, a.isUnplaced = true ∧
      ∀ x ∈ a.variables, x ∈ meet [] (is.flatMap Instr.variables) := by
    intro a ha
    obtain ⟨i, hi, ha⟩ := mem_flatMap.mp ha
    refine ⟨all_eq_true.mp (his i hi) a ha, fun x hx => mem_meet.mpr (.inr ?_)⟩
    cases i with
    | op name as => exact mem_flatMap.mpr ⟨_, hi, mem_flatMap.mpr ⟨a, ha, hx⟩⟩
    | _ => cases ha
  have hplaces : place = fun k => .deref "rbp" (.int (-8 * (k + 1))) := by
    funext k
    rw [place, offset]
    congr 2
    omega
  refine ⟨_, _, _, assignHomes_flat hhomes space, rfl, ?_, ?_, rfl, ?_, ?_⟩
  · intro j hj
    obtain ⟨i, -, rfl⟩ := mem_map.mp hj
    exact variables_settle _
  · intro a ha b hb
    exact settle_inj (hunplaced a ha).1 (hunplaced b hb).1 (hunplaced a ha).2
  · rw [map_settle (nodup_meet List.nodup_nil _), hplaces]
  · rw [length_layout]
    exact frameSize_bounds _

/-- Code with two variables, one of which occurs three times, and a jump. -/
theorem assignHomes_lays_out_twice :
    let is : List Instr := [.op "movq" [.immediate (.int 7), .variable "x"],
      .op "addq" [.variable "y", .variable "x"], .jump "main", .op "negq" [.variable "x"]]
    (∀ i ∈ is, i.operands.all isUnplaced = true) ∧
      ∃ js xs size, assignHomes { code := .flat is } =
          .ok { code := .flat js, stackSpace := some size } ∧
        js = is.map (Instr.settle xs) ∧ xs = ["x", "y"] ∧ 16 ≤ size ∧ size ≤ 24 := by
  intro is
  have his : ∀ i ∈ is, i.operands.all isUnplaced = true := by decide
  obtain ⟨js, xs, size, hrun, hjs, -, -, rfl, -, -, hsize, hsize'⟩ :=
    assignHomes_lays_out is his none
  exact ⟨his, js, _, size, hrun, hjs, by decide, hsize, hsize'⟩

end CompilerKit.X86
