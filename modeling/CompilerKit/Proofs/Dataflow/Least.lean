import Mathlib.Data.DFinsupp.WellFounded
import CompilerKit.Proofs.Dataflow.FixedPoint

/-!
# Least solutions of dataflow problems

Values from a semilattice without infinite ascending chains, and transfer functions that are
monotone: the values of an analysis only rise, so that it ends, and they stay below every solution.

* `Below.step`, `Rising.step`: the two invariants of a computation.
* `iterate_ends`: the values cannot rise forever, so that the stack becomes empty.
-/

namespace CompilerKit.Dataflow

open List Problem

variable {α β : Type} [BEq α] [LawfulBEq α]
variable {p : Problem α β} {g : Graph α}
variable {fuel : Nat} {steps : List (Step α β)} {values : List (α × β)} {stack : List α}
  {s : Step α β}

/-! ## Solutions -/

/-- The equations of a problem: every vertex has the value that its predecessors give it. -/
def IsSolution (p : Problem α β) (g : Graph α) (m : α → β) : Prop :=
  ∀ v ∈ g.vertices,
    m v = p.transfer v (((g.transpose.neighbours v).map m).foldl p.join p.bottom)

/-- The solution is below all others. -/
structure IsLeastSolution (p : Problem α β) (le : β → β → Prop) (g : Graph α) (m : α → β) :
    Prop where
  solution : IsSolution p g m
  least : ∀ m', IsSolution p g m' → ∀ v ∈ g.vertices, le (m v) (m' v)

/-- The graphs have the same vertices and the same edges, whatever their order. -/
structure SameGraph (g g' : Graph α) : Prop where
  vertices : ∀ v, v ∈ g'.vertices ↔ v ∈ g.vertices
  edges : ∀ e, e ∈ g'.edges ↔ e ∈ g.edges

/-- There is a least solution, and in whatever order the graph is built, the analysis ends with
it. -/
def Converges [BEq β] (p : Problem α β) (le : β → β → Prop) (g : Graph α) : Prop :=
  ∃ m, IsLeastSolution p le g m ∧
    ∀ g' : Graph α, g'.Built → SameGraph g g' →
      ∃ N steps, (∀ fuel, N ≤ fuel → analyze p fuel g' = some steps) ∧
        ∀ v ∈ g.vertices, final p steps v = m v

theorem final_isSolution [BEq β] [LawfulBEq β] (hg : g.Built) (h : analyze p fuel g = some steps) :
    IsSolution p g (final p steps) := by
  obtain ⟨htransferred, hsolved⟩ := analyze_settled hg h
  intro v hv
  obtain ⟨s, hs, hinput⟩ := hsolved v hv
  obtain ⟨hmem, hvertex⟩ := lastStep_mem hs
  rw [final_eq hs, htransferred s hmem, hvertex, hinput]

omit [LawfulBEq α] in
theorem iterate_mono [BEq β] (hle : fuel ≤ fuel')
    (h : iterate p g reversed fuel values stack = some steps) :
    iterate p g reversed fuel' values stack = some steps := by
  induction fuel generalizing fuel' values stack steps with
  | zero =>
    cases stack with
    | nil => cases h; cases fuel' <;> rfl
    | cons u stack => cases h
  | succ fuel ih =>
    obtain ⟨n, rfl⟩ : ∃ n, fuel' = n + 1 := ⟨fuel' - 1, by omega⟩
    cases stack with
    | nil => cases h; rfl
    | cons u stack =>
      rw [iterate_cons] at h ⊢
      obtain ⟨rest, hrest, rfl⟩ := Option.map_eq_some_iff.mp h
      rw [ih (by omega) hrest]
      rfl

omit [LawfulBEq α] in
theorem value_start (p : Problem α β) (vs : List α) (v : α) :
    p.value (vs.map fun u => (u, p.bottom)) v = p.bottom := by
  unfold value Bindings.get?
  induction vs with
  | nil => rfl
  | cons u vs ih =>
    rw [map_cons, lookup_cons]
    split
    · rfl
    · exact ih

theorem wake_subset [BEq β] (hg : g.Built) (hstack : ∀ u ∈ stack, u ∈ g.vertices) :
    ∀ u ∈ p.wake g values s stack, u ∈ g.vertices := by
  unfold wake
  split
  · exact hstack
  · exact forall_mem_append.mpr ⟨fun u hu => hg.target_mem (mem_reverse.mp hu), hstack⟩

/-! ## Joins -/

section Joins

variable [SemilatticeSup β]

theorem foldl_sup_le_iff (xs : List β) (a b : β) :
    xs.foldl (· ⊔ ·) a ≤ b ↔ a ≤ b ∧ ∀ x ∈ xs, x ≤ b := by
  induction xs generalizing a with
  | nil => simp
  | cons x xs ih =>
    rw [foldl_cons, ih, sup_le_iff, forall_mem_cons, and_assoc]

omit [BEq α] [LawfulBEq α] in
theorem foldl_sup_mono [OrderBot β] {us vs : List α} {m m' : α → β} (hsub : ∀ u ∈ us, u ∈ vs)
    (hle : ∀ u ∈ us, m u ≤ m' u) :
    (us.map m).foldl (· ⊔ ·) ⊥ ≤ (vs.map m').foldl (· ⊔ ·) ⊥ := by
  rw [foldl_sup_le_iff]
  refine ⟨bot_le, fun x hx => ?_⟩
  obtain ⟨u, hu, rfl⟩ := mem_map.mp hx
  have hvs := ((foldl_sup_le_iff (vs.map m') ⊥ _).mp le_rfl).2 (m' u) (mem_map_of_mem (hsub u hu))
  exact (hle u hu).trans hvs

end Joins

/-- The problem of transfer functions on a semilattice. -/
def Problem.onLattice [SemilatticeSup β] [OrderBot β] (transfer : α → β → β) : Problem α β where
  transfer := transfer
  bottom := ⊥
  join := (· ⊔ ·)

section Lattice

variable [SemilatticeSup β] [OrderBot β] {transfer : α → β → β}
variable {m : α → β} {S : Set β}

theorem isSolution_congr {g' : Graph α} (hg : g.Built) (hg' : g'.Built) (hsame : SameGraph g g')
    (hm : IsSolution (.onLattice transfer) g m) : IsSolution (.onLattice transfer) g' m := by
  intro v hv
  have hnext (u : α) : u ∈ g'.transpose.neighbours v ↔ u ∈ g.transpose.neighbours v := by
    rw [hg.mem_neighbours_transpose, hg'.mem_neighbours_transpose, hg.mem_neighbours,
      hg'.mem_neighbours, hsame.edges]
  have hjoin : ((g.transpose.neighbours v).map m).foldl (· ⊔ ·) ⊥ =
      ((g'.transpose.neighbours v).map m).foldl (· ⊔ ·) ⊥ :=
    le_antisymm (foldl_sup_mono (fun u hu => (hnext u).mpr hu) fun _ _ => le_rfl)
      (foldl_sup_mono (fun u hu => (hnext u).mp hu) fun _ _ => le_rfl)
  exact (hm v ((hsame.vertices v).mp hv)).trans (congrArg (transfer v) hjoin)

variable [BEq β] [LawfulBEq β]

/-! ## Below every solution -/

/-- Everything that was computed is below `m`. -/
structure Below (transfer : α → β → β) (g : Graph α) (m : α → β) (past : List (Step α β))
    (values : List (α × β)) (stack : List α) : Prop where
  stack : ∀ u ∈ stack, u ∈ g.vertices
  past : ∀ s ∈ past, s.output ≤ m s.vertex
  values : ∀ v ∈ g.vertices, (onLattice transfer).value values v ≤ m v

theorem Below.step (hg : g.Built) (hmono : ∀ v ∈ g.vertices, Monotone (transfer v))
    (hm : IsSolution (.onLattice transfer) g m) {past : List (Step α β)} {u : α}
    (h : Below transfer g m past values (u :: stack))
    (hs : s = (onLattice transfer).compute g.transpose values u) :
    Below transfer g m (past ++ [s]) ((onLattice transfer).after values s)
      ((onLattice transfer).wake g values s stack) := by
  have hu : u ∈ g.vertices := h.stack u mem_cons_self
  have hvertex : s.vertex = u := by rw [hs]; rfl
  have hout : s.output ≤ m u := by
    have hinput : ((g.transpose.neighbours u).map
        ((onLattice transfer).value values)).foldl (· ⊔ ·) ⊥ ≤
        ((g.transpose.neighbours u).map m).foldl (· ⊔ ·) ⊥ :=
      foldl_sup_mono (fun _ hw => hw) fun w hw => h.values w (hg.source_mem hw)
    calc s.output
        = transfer u (((g.transpose.neighbours u).map
            ((onLattice transfer).value values)).foldl (· ⊔ ·) ⊥) := by rw [hs]; rfl
      _ ≤ transfer u (((g.transpose.neighbours u).map m).foldl (· ⊔ ·) ⊥) := hmono u hu hinput
      _ = m u := (hm u hu).symm
  constructor
  · exact wake_subset hg fun w hw => h.stack w (mem_cons_of_mem u hw)
  · intro t ht
    rw [mem_append, mem_singleton] at ht
    rcases ht with ht | rfl
    · exact h.past t ht
    · rwa [hvertex]
  · intro v hv
    rw [value_after, hvertex]
    split
    · rename_i huv
      rwa [← eq_of_beq huv]
    · exact h.values v hv

/-- What an analysis computes is below every solution. -/
theorem final_le (hg : g.Built) (hmono : ∀ v ∈ g.vertices, Monotone (transfer v))
    (h : analyze (.onLattice transfer) fuel g = some steps)
    (hm : IsSolution (.onLattice transfer) g m) :
    ∀ v ∈ g.vertices, final (.onLattice transfer) steps v ≤ m v := by
  intro v hv
  have hstart : Below transfer g m [] (g.vertices.map fun u => (u, ⊥)) g.vertices.reverse := by
    refine ⟨fun u hu => mem_reverse.mp hu, by simp, fun w _ => ?_⟩
    exact (value_start (.onLattice transfer) g.vertices w).trans_le bot_le
  obtain ⟨values, hend⟩ := iterate_induct (.onLattice transfer) g g.transpose
    (fun _ _ _ _ hinv => Below.step hg hmono hm hinv rfl) h hstart
  obtain ⟨s, hs, -⟩ := (analyze_settled hg h).2 v hv
  obtain ⟨hmem, hvertex⟩ := lastStep_mem hs
  rw [final_eq hs, ← hvertex]
  exact hend.past s (by simpa using hmem)

/-! ## Ending -/

/-- The analysis stays inside of `S`. -/
structure Closed (transfer : α → β → β) (g : Graph α) (S : Set β) : Prop where
  bot : ⊥ ∈ S
  sup : ∀ a ∈ S, ∀ b ∈ S, a ⊔ b ∈ S
  transfer : ∀ v ∈ g.vertices, ∀ a ∈ S, transfer v a ∈ S

/-- Every value is at most what its vertex would compute now. -/
structure Rising (transfer : α → β → β) (g : Graph α) (S : Set β) (values : List (α × β))
    (stack : List α) : Prop where
  stack : ∀ u ∈ stack, u ∈ g.vertices
  inside : ∀ v ∈ g.vertices, (onLattice transfer).value values v ∈ S
  low : ∀ v ∈ g.vertices, (onLattice transfer).value values v ≤
    transfer v ((onLattice transfer).input g.transpose values v)

section Step

variable {u : α}
variable (h : Rising transfer g S values (u :: stack))
  (hs : s = (onLattice transfer).compute g.transpose values u)
include h hs

/-- No value falls. -/
theorem Rising.value_le (v : α) :
    (onLattice transfer).value values v ≤
      (onLattice transfer).value ((onLattice transfer).after values s) v := by
  have hvertex : s.vertex = u := by rw [hs]; rfl
  rw [value_after, hvertex]
  split
  · rename_i huv
    rw [← eq_of_beq huv, hs]
    exact h.low u (h.stack u mem_cons_self)
  · exact le_rfl

variable (hg : g.Built) (hmono : ∀ v ∈ g.vertices, Monotone (transfer v))
  (hS : Closed transfer g S)
include hg hmono hS

theorem Rising.step :
    Rising transfer g S ((onLattice transfer).after values s)
      ((onLattice transfer).wake g values s stack) := by
  have hu : u ∈ g.vertices := h.stack u mem_cons_self
  have hvertex : s.vertex = u := by rw [hs]; rfl
  have hout : s.output =
      transfer u ((onLattice transfer).input g.transpose values u) := by rw [hs]; rfl
  have hinput (v : α) : (onLattice transfer).input g.transpose values v ≤
      (onLattice transfer).input g.transpose
        ((onLattice transfer).after values s) v :=
    foldl_sup_mono (fun _ hw => hw) fun w _ => h.value_le hs w
  have hinside : (onLattice transfer).input g.transpose values u ∈ S := by
    refine foldlRecOn _ _ hS.bot fun b hb x hx => hS.sup b hb x ?_
    obtain ⟨w, hw, rfl⟩ := mem_map.mp hx
    exact h.inside w (hg.source_mem hw)
  constructor
  · exact wake_subset hg fun w hw => h.stack w (mem_cons_of_mem u hw)
  · intro v hv
    rw [value_after]
    split
    · rw [hout]
      exact hS.transfer u hu _ hinside
    · exact h.inside v hv
  · intro v hv
    rw [value_after, hvertex]
    split
    · rename_i huv
      rw [← eq_of_beq huv, hout]
      exact hmono u hu (hinput u)
    · exact (h.low v hv).trans (hmono v hv (hinput v))

/-- The values of all vertices together. -/
def Rising.point (h : Rising transfer g S values stack) : {v // v ∈ g.vertices} → S :=
  fun v => ⟨_, h.inside v v.2⟩

/-- Either some value rises, or the values stay and the stack gets shorter. -/
theorem Rising.progress :
    Prod.Lex (· > ·) (· < ·)
      ((h.step hs hg hmono hS).point, ((onLattice transfer).wake g values s stack).length)
      (h.point, (u :: stack).length) := by
  rw [Prod.lex_def]
  by_cases hsame : (s.output == (onLattice transfer).value values s.vertex)
  · refine .inr ⟨funext fun v => Subtype.ext ?_, ?_⟩
    · change (onLattice transfer).value ((onLattice transfer).after values s) v = _
      rw [after_of_same _ hsame]
      rfl
    · have hwake := wake_of_same _ hsame g stack
      simp only [hwake, length_cons, Nat.lt_add_one]
  · left
    have hu : u ∈ g.vertices := h.stack u mem_cons_self
    have hvertex : s.vertex = u := by rw [hs]; rfl
    have hle (v : {v // v ∈ g.vertices}) : h.point v ≤ (h.step hs hg hmono hS).point v :=
      Subtype.coe_le_coe.mp (h.value_le hs v)
    have hne : h.point ⟨u, hu⟩ ≠ (h.step hs hg hmono hS).point ⟨u, hu⟩ := by
      intro heq
      apply hsame
      have hvalue : (onLattice transfer).value values u =
          (onLattice transfer).value ((onLattice transfer).after values s) u :=
        congrArg Subtype.val heq
      rw [value_after, hvertex, beq_self_eq_true, if_pos rfl] at hvalue
      rw [hvertex, hvalue, beq_self_eq_true]
    exact Pi.lt_def.mpr ⟨hle, ⟨u, hu⟩, lt_of_le_of_ne (hle _) hne⟩

omit h hs in
/-- An analysis of rising values ends, if they cannot rise for ever. -/
theorem iterate_ends [WellFoundedGT S] (h : Rising transfer g S values stack) :
    ∃ fuel steps, iterate (.onLattice transfer) g g.transpose fuel values stack = some steps := by
  have : Finite {v // v ∈ g.vertices} := (finite_toSet g.vertices).to_subtype
  have hwf : WellFoundedGT ({v // v ∈ g.vertices} → S) :=
    inferInstanceAs (WellFoundedLT ({v // v ∈ g.vertices} → Sᵒᵈ))
  induction hx : (h.point, stack.length)
    using (WellFounded.prod_lex hwf.wf Nat.lt_wfRel.wf).induction generalizing values stack with
  | _ x ih =>
    subst hx
    cases stack with
    | nil => exact ⟨0, [], rfl⟩
    | cons u stack =>
      obtain ⟨fuel, steps, hrest⟩ := ih _ (h.progress rfl hg hmono hS) _ rfl
      exact ⟨fuel + 1, _, by rw [iterate_cons, hrest, Option.map_some]⟩

omit h hs in
theorem analyze_ends [WellFoundedGT S] :
    ∃ N steps, ∀ fuel, N ≤ fuel → analyze (.onLattice transfer) fuel g = some steps := by
  have hvalue := value_start (onLattice transfer) g.vertices
  have hstart : Rising transfer g S (g.vertices.map fun u => (u, ⊥)) g.vertices.reverse := by
    refine ⟨fun u hu => mem_reverse.mp hu, fun v _ => ?_, fun v _ => ?_⟩
    · exact (hvalue v).symm ▸ hS.bot
    · exact (hvalue v).trans_le bot_le
  obtain ⟨N, steps, h⟩ := iterate_ends hg hmono hS hstart
  exact ⟨N, steps, fun fuel hfuel => iterate_mono hfuel h⟩

end Step

/-- Values that cannot rise for ever, and monotone transfer functions: the analysis converges. -/
theorem analyze_converges (hg : g.Built) (hmono : ∀ v ∈ g.vertices, Monotone (transfer v))
    [WellFoundedGT S] (hS : Closed transfer g S) : Converges (.onLattice transfer) (· ≤ ·) g := by
  obtain ⟨N, steps, hsteps⟩ := analyze_ends hg hmono hS
  have hend := hsteps N le_rfl
  refine ⟨final _ steps, ⟨final_isSolution hg hend, fun m hm => final_le hg hmono hend hm⟩, ?_⟩
  intro g' hg' hsame
  have hsame' : SameGraph g' g := ⟨fun w => (hsame.vertices w).symm, fun e => (hsame.edges e).symm⟩
  have hmono' : ∀ w ∈ g'.vertices, Monotone (transfer w) :=
    fun w hw => hmono w ((hsame.vertices w).mp hw)
  have hS' : Closed transfer g' S :=
    ⟨hS.bot, hS.sup, fun w hw => hS.transfer w ((hsame.vertices w).mp hw)⟩
  obtain ⟨N', steps', hsteps'⟩ := analyze_ends hg' hmono' hS'
  have hend' := hsteps' N' le_rfl
  refine ⟨N', steps', hsteps', fun v hv => ?_⟩
  -- both are least solutions of the same equations
  refine le_antisymm ?_ ?_
  · exact final_le hg' hmono' hend' (isSolution_congr hg hg' hsame (final_isSolution hg hend)) v
      ((hsame.vertices v).mpr hv)
  · exact final_le hg hmono hend (isSolution_congr hg' hg hsame' (final_isSolution hg' hend')) v hv

end Lattice

end CompilerKit.Dataflow
