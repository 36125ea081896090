import Mathlib.Data.List.Forall2
import CompilerKit.Dataflow
import CompilerKit.Proofs.Graph.Built

/-!
# Fixed points of dataflow analysis

When the stack of an analysis is empty, the value of every vertex is what its last computation gave,
and that computation used the values that its predecessors have now. Between two computations this
holds of all vertices that are not on the stack.

* `Settled.step`: what one computation preserves.
* `analyze_fixed`: from that, by `iterate_induct`, what holds at the end.
-/

namespace CompilerKit.Dataflow

open List

variable {α β : Type} [BEq α]
variable {steps : List (Step α β)} {v : α} {s : Step α β} {fuel : Nat}

/-! ## Last computations -/

/-- The last computation of the value of a vertex. -/
def lastStep (steps : List (Step α β)) (v : α) : Option (Step α β) :=
  (steps.filter fun s => s.vertex == v).getLast?

/-- The value that the last computation of a vertex gave. -/
def final (p : Problem α β) (steps : List (Step α β)) (v : α) : β :=
  ((lastStep steps v).map Step.output).getD p.bottom

theorem lastStep_concat (steps : List (Step α β)) (s : Step α β) (v : α) :
    lastStep (steps ++ [s]) v = if s.vertex == v then some s else lastStep steps v := by
  unfold lastStep
  cases h : s.vertex == v <;> simp [h]

theorem lastStep_mem [LawfulBEq α] (h : lastStep steps v = some s) : s ∈ steps ∧ s.vertex = v := by
  have hmem := mem_of_getLast? h
  obtain ⟨hs, hv⟩ := mem_filter.mp hmem
  exact ⟨hs, eq_of_beq hv⟩

theorem final_eq (h : lastStep steps v = some s) : final p steps v = s.output := by
  rw [final, h]
  rfl

/-! ## One step -/

section Steps

variable [BEq β] (p : Problem α β) (g reversed : Graph α)

/-- The value of a vertex. -/
def Problem.value (values : List (α × β)) (u : α) : β :=
  (Bindings.get? values u).getD p.bottom

/-- The computation of the value of a vertex. -/
def Problem.compute (values : List (α × β)) (u : α) : Step α β where
  vertex := u
  input := p.input reversed values u
  output := p.transfer u (p.input reversed values u)

/-- The values after a computation. -/
def Problem.after (values : List (α × β)) (s : Step α β) : List (α × β) :=
  if s.output == p.value values s.vertex then values
  else Bindings.put values s.vertex s.output

/-- The stack after a computation: a change wakes the neighbours. -/
def Problem.wake (values : List (α × β)) (s : Step α β) (stack : List α) : List α :=
  if s.output == p.value values s.vertex then stack
  else (g.neighbours s.vertex).reverse ++ stack

theorem iterate_cons (fuel values u stack) :
    iterate p g reversed (fuel + 1) values (u :: stack) =
      (iterate p g reversed fuel (p.after values (p.compute reversed values u))
        (p.wake g values (p.compute reversed values u) stack)).map
          (p.compute reversed values u :: ·) := by
  unfold Problem.after Problem.wake
  change Option.map _ (if (p.compute reversed values u).output ==
    p.value values (p.compute reversed values u).vertex then _ else _) = _
  split <;> rfl

/-- What one computation preserves holds when the stack is empty. -/
theorem iterate_induct {Inv : List (Step α β) → List (α × β) → List α → Prop}
    (hstep : ∀ past values u stack, Inv past values (u :: stack) →
      Inv (past ++ [p.compute reversed values u]) (p.after values (p.compute reversed values u))
        (p.wake g values (p.compute reversed values u) stack))
    (h : iterate p g reversed fuel values stack = some steps) (hinv : Inv past values stack) :
    ∃ values', Inv (past ++ steps) values' [] := by
  induction fuel generalizing values stack past steps with
  | zero =>
    cases stack with
    | nil =>
      cases h
      exact ⟨values, by simpa using hinv⟩
    | cons u stack => cases h
  | succ fuel ih =>
    cases stack with
    | nil =>
      cases h
      exact ⟨values, by simpa using hinv⟩
    | cons u stack =>
      rw [iterate_cons] at h
      obtain ⟨rest, hrest, rfl⟩ := Option.map_eq_some_iff.mp h
      obtain ⟨values', hend⟩ := ih hrest (hstep past values u stack hinv)
      exact ⟨values', by simpa using hend⟩

end Steps

namespace Problem

variable [BEq β] (p : Problem α β)

theorem after_of_same (h : (s.output == p.value values s.vertex)) : p.after values s = values := by
  unfold after
  rw [if_pos h]

theorem wake_of_same (h : (s.output == p.value values s.vertex)) (g stack) :
    p.wake g values s stack = stack := by
  unfold wake
  rw [if_pos h]

theorem wake_of_changed (h : ¬(s.output == p.value values s.vertex)) (g stack) :
    p.wake g values s stack = (g.neighbours s.vertex).reverse ++ stack := by
  unfold wake
  rw [if_neg h]

theorem mem_wake_of_mem (values s g) (h : v ∈ stack) : v ∈ p.wake g values s stack := by
  unfold wake
  split
  · exact h
  · exact mem_append_right _ h

variable [LawfulBEq α] [LawfulBEq β]

theorem value_after (values s v) :
    p.value (p.after values s) v = if s.vertex == v then s.output else p.value values v := by
  unfold after
  by_cases hv : s.vertex = v
  · subst hv
    split
    · rename_i hsame
      simpa using (eq_of_beq hsame).symm
    · simp [value, Bindings.get?_put]
  · have hvs : (v == s.vertex) = false := beq_false_of_ne (Ne.symm hv)
    rw [beq_false_of_ne hv]
    split
    · rfl
    · simp [value, Bindings.get?_put, hvs]

/-- Only a change of a predecessor changes what comes in. -/
theorem input_after (hv : s.vertex ∉ reversed.neighbours v) :
    p.input reversed (p.after values s) v = p.input reversed values v := by
  have hmap : (reversed.neighbours v).map (p.value (p.after values s)) =
      (reversed.neighbours v).map (p.value values) := by
    refine map_congr_left fun u hu => ?_
    have hne : s.vertex ≠ u := by
      rintro rfl
      exact hv hu
    rw [p.value_after, beq_false_of_ne hne]
    rfl
  exact congrArg (foldl p.join p.bottom) hmap

end Problem

/-! ## The invariant -/

/-- What holds between two computations: a value is the output of the last computation, and a
vertex that does not wait on the stack was last computed from the values of now. -/
structure Settled (p : Problem α β) (g : Graph α) (past : List (Step α β))
    (values : List (α × β)) (stack : List α) : Prop where
  transferred : ∀ s ∈ past, s.output = p.transfer s.vertex s.input
  current : ∀ v s, lastStep past v = some s → p.value values v = s.output
  solved : ∀ v ∈ g.vertices, v ∉ stack →
    ∃ s, lastStep past v = some s ∧ s.input = p.input g.transpose values v

theorem settled_start (p : Problem α β) (g : Graph α) (values : List (α × β))
    (hstack : ∀ v ∈ g.vertices, v ∈ stack) : Settled p g [] values stack where
  transferred := by simp
  current := by simp [lastStep]
  solved := fun v hv hnot => absurd (hstack v hv) hnot

variable {p : Problem α β} {g : Graph α} [LawfulBEq α] [BEq β] [LawfulBEq β]

/-- A computation settles its vertex, and a change of it wakes all that were computed from it. -/
theorem Settled.step (hg : g.Built) (h : Settled p g past values (u :: stack))
    (hs : s = p.compute g.transpose values u) :
    Settled p g (past ++ [s]) (p.after values s) (p.wake g values s stack) := by
  have hu : s.vertex = u := by rw [hs]; rfl
  have hin : s.input = p.input g.transpose values u := by rw [hs]; rfl
  -- a vertex off the stack is computed from values that have not changed
  have hinput (v : α) (hv : v ∉ p.wake g values s stack) :
      p.input g.transpose (p.after values s) v = p.input g.transpose values v := by
    by_cases hsame : (s.output == p.value values s.vertex)
    · rw [p.after_of_same hsame]
    · refine p.input_after fun hmem => hv ?_
      rw [p.wake_of_changed hsame, mem_append, mem_reverse]
      exact .inl ((hg.mem_neighbours_transpose s.vertex v).mp hmem)
  constructor
  · intro t ht
    rw [mem_append, mem_singleton] at ht
    obtain ht | rfl := ht
    · exact h.transferred t ht
    · rw [hs]
      rfl
  · intro v t ht
    rw [lastStep_concat] at ht
    rw [p.value_after]
    cases hv : s.vertex == v with
    | true =>
      rw [hv] at ht
      cases ht
      rfl
    | false =>
      rw [hv] at ht
      exact h.current v t ht
  · intro v hv hnot
    rw [hinput v hnot, lastStep_concat]
    by_cases huv : u = v
    · subst huv
      exact ⟨s, by simp [hu], hin⟩
    · rw [hu, beq_false_of_ne huv]
      refine h.solved v hv fun hmem => ?_
      rcases mem_cons.mp hmem with rfl | hmem
      · exact huv rfl
      · exact hnot (p.mem_wake_of_mem values s g hmem)

/-! ## Whole runs -/

/-- When the analysis ends, every vertex was computed, the last time from the last values of its
predecessors. -/
theorem analyze_settled (hg : g.Built) (h : analyze p fuel g = some steps) :
    (∀ s ∈ steps, s.output = p.transfer s.vertex s.input) ∧
      ∀ v ∈ g.vertices, ∃ s, lastStep steps v = some s ∧
        s.input = ((g.transpose.neighbours v).map (final p steps)).foldl p.join p.bottom := by
  have hstart : Settled p g [] (g.vertices.map fun u => (u, p.bottom)) g.vertices.reverse :=
    settled_start p g _ fun v hv => mem_reverse.mpr hv
  obtain ⟨values, hend⟩ := iterate_induct p g g.transpose
    (fun _ _ _ _ hinv => Settled.step hg hinv rfl) h hstart
  refine ⟨hend.transferred, fun v hv => ?_⟩
  obtain ⟨s, hs, hinput⟩ := hend.solved v hv not_mem_nil
  refine ⟨s, hs, hinput.trans ?_⟩
  refine congrArg (foldl p.join p.bottom) (map_congr_left fun u hu => ?_)
  obtain ⟨t, ht, -⟩ := hend.solved u (hg.source_mem hu) not_mem_nil
  exact (hend.current u t ht).trans (final_eq ht).symm

end CompilerKit.Dataflow
