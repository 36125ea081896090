import Mathlib.Data.Finset.Interval
import Mathlib.Data.Finset.Sort
import Mathlib.Data.Fintype.EquivFin
import Mathlib.Data.Fintype.Order
import Mathlib.Data.String.Basic
import Mathlib.Order.CompletePartialOrder
import CompilerKit.Proofs.Dataflow.Least

/-!
# Analyses that remove and add members

Transfer functions that remove some members of a finite set and add others. The values stay inside
of the set of all members that some vertex adds, so that the analysis ends. What holds of finite
sets holds of their members in increasing order.
-/

namespace CompilerKit

open List Bindings NameSet

/-! ## Members in increasing order -/

namespace NameSet

variable {x : String} {s : NameSet}

theorem mem_insert : y ∈ insert x s ↔ y = x ∨ y ∈ s := by
  induction s with
  | nil => simp [insert]
  | cons z s ih =>
    unfold insert
    split
    · exact mem_cons
    · split
      · rename_i hxz
        rw [eq_of_beq hxz]
        simp
      · simp only [mem_cons, ih, or_left_comm]

theorem sorted_insert (x) (hs : s.Pairwise (· < ·)) : (insert x s).Pairwise (· < ·) := by
  induction s with
  | nil => simp [insert]
  | cons z s ih =>
    obtain ⟨hz, hs'⟩ := pairwise_cons.mp hs
    unfold insert
    split
    · rename_i hxz
      refine pairwise_cons.mpr ⟨fun y hy => ?_, hs⟩
      rcases mem_cons.mp hy with rfl | hy
      · exact hxz
      · exact hxz.trans (hz y hy)
    · rename_i hnlt
      split
      · exact hs
      · rename_i hne
        have hzx : z < x := lt_of_le_of_ne (not_lt.mp hnlt) fun h => hne (beq_iff_eq.mpr h.symm)
        refine pairwise_cons.mpr ⟨fun y hy => ?_, ih hs'⟩
        rcases mem_insert.mp hy with rfl | hy
        · exact hzx
        · exact hz y hy

theorem mem_union : x ∈ s.union t ↔ x ∈ s ∨ x ∈ t := by
  unfold union
  induction t with
  | nil => simp
  | cons y t ih => rw [foldr_cons, mem_insert, ih, mem_cons, or_left_comm]

theorem sorted_union (hs : s.Pairwise (· < ·)) (t) : (s.union t).Pairwise (· < ·) := by
  induction t with
  | nil => exact hs
  | cons y t ih => exact sorted_insert y ih

theorem mem_diff : x ∈ s.diff t ↔ x ∈ s ∧ x ∉ t := by
  simp [diff]

theorem sorted_diff (hs : s.Pairwise (· < ·)) (t) : (s.diff t).Pairwise (· < ·) := hs.filter _

/-- The members of a finite set. -/
def ofFinset (s : Finset String) : NameSet := s.sort

theorem mem_ofFinset {s} : x ∈ ofFinset s ↔ x ∈ s := Finset.mem_sort _

theorem sorted_ofFinset (s) : (ofFinset s).Pairwise (· < ·) := (Finset.sortedLT_sort s).pairwise

/-- A list in increasing order is known by its members. -/
theorem ofFinset_eq {s} (ht : t.Pairwise (· < ·)) (h : ∀ x, x ∈ s ↔ x ∈ t) : ofFinset s = t :=
  (sorted_ofFinset s).eq_of_mem_iff ht fun x => mem_ofFinset.trans (h x)

end NameSet

namespace Dataflow

variable {α β γ : Type} [BEq α]

/-! ## Other names for the values -/

/-- The second problem is the first one with `φ x` for the value `x`. -/
structure Problem.Carries (φ : β → γ) (p : Problem α β) (q : Problem α γ) : Prop where
  injective : Function.Injective φ
  bottom : q.bottom = φ p.bottom
  transfer : ∀ v x, q.transfer v (φ x) = φ (p.transfer v x)
  join : ∀ x y, q.join (φ x) (φ y) = φ (p.join x y)

/-- The computation with other names for the values. -/
def Step.map (φ : β → γ) (s : Step α β) : Step α γ := ⟨s.vertex, φ s.input, φ s.output⟩

/-- The table with other names for the values. -/
def rename (φ : β → γ) (values : List (α × β)) : List (α × γ) :=
  values.map fun e => (e.1, φ e.2)

theorem get?_rename (φ : β → γ) (values : List (α × β)) (v : α) :
    get? (rename φ values) v = (get? values v).map φ := by
  unfold rename get?
  induction values with
  | nil => rfl
  | cons e values ih =>
    rw [map_cons, lookup_cons, lookup_cons]
    split
    · rfl
    · exact ih

theorem put_rename (φ : β → γ) (values : List (α × β)) (v : α) (x : β) :
    put (rename φ values) v (φ x) = rename φ (put values v x) := by
  unfold rename
  induction values with
  | nil => rfl
  | cons e values ih =>
    simp only [map_cons, put]
    split
    · rfl
    · rw [ih, map_cons]

namespace Problem.Carries

variable {φ : β → γ} {p : Problem α β} {q : Problem α γ}

variable (h : Carries φ p q)
include h

theorem value (values : List (α × β)) (v : α) :
    q.value (rename φ values) v = φ (p.value values v) := by
  unfold Problem.value
  rw [get?_rename, h.bottom, Option.getD_map]

omit [BEq α] in
theorem fold (xs : List β) : (xs.map φ).foldl q.join q.bottom = φ (xs.foldl p.join p.bottom) := by
  rw [h.bottom, foldl_map]
  exact foldl_hom φ fun x y => (h.join x y)

theorem compute (reversed values u) :
    q.compute reversed (rename φ values) u = (p.compute reversed values u).map φ := by
  have hinput : q.input reversed (rename φ values) u = φ (p.input reversed values u) := by
    have hmap : (reversed.neighbours u).map (q.value (rename φ values)) =
        ((reversed.neighbours u).map (p.value values)).map φ := by
      rw [map_map]
      exact map_congr_left fun v _ => h.value values v
    exact (congrArg (foldl q.join q.bottom) hmap).trans (h.fold _)
  unfold Problem.compute Step.map
  rw [hinput, h.transfer]

variable [BEq β] [LawfulBEq β] [BEq γ] [LawfulBEq γ]

theorem same (values) (s : Step α β) :
    ((s.map φ).output == q.value (rename φ values) (s.map φ).vertex) =
      (s.output == p.value values s.vertex) := by
  rw [Bool.eq_iff_iff, beq_iff_eq, beq_iff_eq]
  exact (h.value values s.vertex) ▸ h.injective.eq_iff

theorem iterate (g reversed fuel values stack) : iterate q g reversed fuel (rename φ values) stack =
      (iterate p g reversed fuel values stack).map (map (Step.map φ)) := by
  induction fuel generalizing values stack with
  | zero => cases stack <;> rfl
  | succ fuel ih =>
    cases stack with
    | nil => rfl
    | cons u stack =>
      have hafter (s : Step α β) :
          q.after (rename φ values) (s.map φ) = rename φ (p.after values s) := by
        unfold after
        rw [h.same values s]
        split
        · rfl
        · exact put_rename φ values s.vertex s.output
      have hwake (s : Step α β) :
          q.wake g (rename φ values) (s.map φ) stack = p.wake g values s stack := by
        unfold wake
        rw [h.same values s]
        rfl
      rw [iterate_cons, iterate_cons, h.compute, hafter, hwake, ih, Option.map_map, Option.map_map]
      rfl

theorem analyze (fuel g) : analyze q fuel g = (analyze p fuel g).map (map (Step.map φ)) := by
  have hstart : (g.vertices.map fun u => (u, q.bottom)) =
      rename φ (g.vertices.map fun u => (u, p.bottom)) := by
    rw [rename, map_map, h.bottom]
    rfl
  unfold Dataflow.analyze
  rw [hstart]
  exact h.iterate g g.transpose fuel _ _

omit [BEq β] [LawfulBEq β] [BEq γ] [LawfulBEq γ] in
theorem final (steps v) : final q (steps.map (Step.map φ)) v = φ (final p steps v) := by
  have hlast : lastStep (steps.map (Step.map φ)) v = (lastStep steps v).map (Step.map φ) := by
    unfold lastStep
    rw [filter_map, getLast?_map]
    rfl
  unfold Dataflow.final
  rw [hlast, h.bottom, ← Option.getD_map φ, Option.map_map, Option.map_map]
  rfl

variable [LawfulBEq α] {g : Graph α}

omit [BEq β] [LawfulBEq β] [BEq γ] [LawfulBEq γ] in
theorem isSolution_iff (hg : g.Built) {m : α → β} {m' : α → γ}
    (hm : ∀ v ∈ g.vertices, m' v = φ (m v)) : IsSolution q g m' ↔ IsSolution p g m := by
  have hinput (v : α) : (((g.transpose.neighbours v).map m').foldl q.join q.bottom) =
      φ (((g.transpose.neighbours v).map m).foldl p.join p.bottom) := by
    rw [← h.fold, map_map]
    refine congrArg (foldl q.join q.bottom) (map_congr_left fun u hu => ?_)
    exact hm u (hg.source_mem hu)
  refine forall₂_congr fun v hv => ?_
  rw [hm v hv, hinput, h.transfer]
  exact h.injective.eq_iff

/-- Where solutions are named, the second problem converges if the first one does. -/
theorem converges (hg : g.Built) {le : β → β → Prop} {le' : γ → γ → Prop}
    (hle : ∀ x y, le x y → le' (φ x) (φ y))
    (hnamed : ∀ m, IsSolution q g m → ∀ v ∈ g.vertices, ∃ x, φ x = m v)
    (hp : Converges p le g) : Converges q le' g := by
  obtain ⟨m, hm, hends⟩ := hp
  refine ⟨fun v => φ (m v), ⟨(h.isSolution_iff hg fun _ _ => rfl).mpr hm.solution, ?_⟩, ?_⟩
  · intro m' hm' v hv
    have : Nonempty β := ⟨p.bottom⟩
    have hinv (w : α) (hw : w ∈ g.vertices) : m' w = φ (Function.invFun φ (m' w)) :=
      (Function.invFun_eq (hnamed m' hm' w hw)).symm
    rw [hinv v hv]
    exact hle _ _ (hm.least _ ((h.isSolution_iff hg hinv).mp hm') v hv)
  · intro g' hg' hsame
    obtain ⟨N, steps, hsteps, hfinal⟩ := hends g' hg' hsame
    refine ⟨N, steps.map (Step.map φ), fun fuel hfuel => ?_, fun v hv => ?_⟩
    · rw [h.analyze, hsteps fuel hfuel, Option.map_some]
    · rw [h.final, hfinal v hv]

end Problem.Carries

/-! ## Finite sets -/

variable [LawfulBEq α] {g : Graph α}

theorem genKill_converges [DecidableEq κ] (hg : g.Built) (gen kill : α → Finset κ) :
    Converges (.onLattice fun v s => s \ kill v ∪ gen v) (· ⊆ ·) g := by
  -- no vertex adds a member outside of `all`
  let all : Finset κ := (g.vertices.map gen).foldl (· ⊔ ·) ⊥
  have hall := (foldl_sup_le_iff (g.vertices.map gen) ⊥ all).mp le_rfl
  have hclosed : Closed (fun v s => s \ kill v ∪ gen v) g (Set.Iic all) := by
    refine ⟨Set.mem_Iic.mpr bot_le, fun s hs t ht => Set.mem_Iic.mpr (sup_le hs ht), ?_⟩
    intro v hv s hs
    exact Finset.union_subset (Finset.sdiff_subset.trans hs) (hall.2 (gen v) (mem_map_of_mem hv))
  refine analyze_converges hg (fun v _ s t hst => ?_) hclosed
  exact Finset.union_subset_union_left (Finset.sdiff_subset_sdiff hst subset_rfl)

omit [LawfulBEq α] in
theorem carries_genKill (gen kill : List (α × NameSet)) :
    Problem.Carries ofFinset
      (.onLattice fun v s => s \ ((get? kill v).getD []).toFinset ∪ ((get? gen v).getD []).toFinset)
      (genKill gen kill [] union) where
  injective s t hst := Finset.ext fun x => by
    rw [← mem_ofFinset, hst, mem_ofFinset]
  bottom := (ofFinset_eq .nil fun _ => by simp [Problem.onLattice]).symm
  transfer v s := by
    refine (ofFinset_eq ?_ fun x => ?_).symm
    · exact sorted_union (sorted_diff (sorted_ofFinset s) _) _
    · change x ∈ (_ \ _) ∪ _ ↔ x ∈ union (diff _ _) _
      rw [mem_union, mem_diff, mem_ofFinset]
      simp
  join s t := by
    refine (ofFinset_eq (sorted_union (sorted_ofFinset s) _) fun x => ?_).symm
    change x ∈ s ∪ t ↔ _
    rw [mem_union, mem_ofFinset, mem_ofFinset, Finset.mem_union]

omit [LawfulBEq α] in
/-- A solution has its members in increasing order. -/
theorem IsSolution.sorted {m : α → NameSet}
    (hm : IsSolution (genKill gen kill [] union) g m) (hv : v ∈ g.vertices) :
    (m v).Pairwise (· < ·) := by
  rw [hm v hv]
  refine sorted_union (sorted_diff ?_ _) _
  exact foldlRecOn _ _ .nil fun _ hs t _ => sorted_union hs t

theorem genKill_names_converges (hg : g.Built) (gen kill) :
    Converges (genKill gen kill [] union) (· ⊆ ·) g := by
  refine (carries_genKill gen kill).converges hg (fun s t hst => ?_) (fun m hm v hv => ?_)
    (genKill_converges hg _ _)
  · intro x hx
    exact mem_ofFinset.mpr (hst (mem_ofFinset.mp hx))
  · exact ⟨(m v).toFinset, ofFinset_eq (hm.sorted hv) fun x => mem_toFinset⟩

/-! ## Monotone analyses -/

end Dataflow

end CompilerKit
