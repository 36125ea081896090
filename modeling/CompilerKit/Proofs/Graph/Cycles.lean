import CompilerKit.Proofs.Graph.Sorted

/-!
# Topological sorting of graphs with cycles

A vertex becomes free when all edges into it are served, so a vertex on a cycle never does, nor one
that a cycle leads to. If no edge is added twice, all others are taken, after all their sources.

* `not_afterCycle_of_sorted`: a vertex that is taken is behind no cycle.
* `topologicalSort_without_cycles`: exactly the other vertices are taken.
-/

namespace CompilerKit.Graph

open List Nat

variable {α : Type} [BEq α] [LawfulBEq α]

/-- The directed graphs that come from adding vertices, and edges that are not there yet. A set of
edges has no order, so that its edges may come in any. -/
inductive BuiltOnce : Graph α → Prop where
  | empty : BuiltOnce {}
  | addVertex (h : BuiltOnce g) (u : α) : BuiltOnce (g.addVertex u)
  | addEdge {g} (h : BuiltOnce g) {u v} (hnew : g.hasEdge .directed u v = false) :
      BuiltOnce (g.addEdge .directed u v)
  | reorder {g} (h : BuiltOnce g) {es} (hes : es.Perm g.edges) : BuiltOnce { g with edges := es }

variable {g : Graph α} {u v x : α}

namespace BuiltOnce

variable (h : BuiltOnce g)
include h

omit [LawfulBEq α] in
theorem built : Built g := by
  induction h with
  | empty => exact .empty
  | addVertex _ u ih => exact ih.addVertex u
  | addEdge _ _ ih => exact ih.addEdge _ _
  | reorder _ hes ih => exact ih.reorder hes

theorem nodup_neighbours (x : α) : (g.neighbours x).Nodup := by
  induction h with
  | empty => exact nodup_nil
  | addVertex _ u ih =>
    rw [neighbours_addVertex]
    exact ih
  | @addEdge g h u v hnew ih =>
    rw [neighbours_addEdge]
    split
    · next hux =>
      refine nodup_append'.mpr ⟨ih, nodup_singleton v, disjoint_singleton.mpr ?_⟩
      intro hv
      rw [← eq_of_beq hux, h.built.mem_neighbours, ← hasEdge_directed, hnew] at hv
      exact Bool.false_ne_true hv
    · rw [append_nil]
      exact ih
  | reorder _ _ ih => exact ih

theorem served_eq (v : α) (us : List α) :
    g.served v us = (us.filter fun u => (g.neighbours u).contains v).length := by
  induction us with
  | nil => rfl
  | cons u us ih =>
    rw [served, ih, (h.nodup_neighbours u).count, filter_cons]
    by_cases hv : v ∈ g.neighbours u
    · rw [if_pos hv, if_pos (contains_iff_mem.mpr hv), length_cons, add_comm]
    · rw [if_neg hv, if_neg (hv ∘ contains_iff_mem.mp), zero_add]

/-- If as many edges are served as there are, then the source of every edge has been taken. -/
theorem source_mem_of_served (hbefore : before.Nodup)
    (hserved : (g.entering v).length ≤ g.served v before) (hedge : g.Leads u v) : u ∈ before := by
  rw [h.served_eq, ← length_map] at hserved
  have hsubset : (before.filter fun w => (g.neighbours w).contains v) ⊆
      (g.entering v).map Edge.source := by
    intro w hw
    have hv := contains_iff_mem.mp (mem_filter.mp hw).2
    refine mem_map.mpr ⟨⟨w, v⟩, mem_filter.mpr ⟨?_, beq_self_eq_true v⟩, rfl⟩
    exact (h.built.mem_neighbours w v).mp hv
  have hperm := ((hbefore.filter _).subperm hsubset).perm_of_length_le hserved
  have hu : u ∈ (g.entering v).map Edge.source :=
    mem_map.mpr ⟨⟨u, v⟩, mem_filter.mpr ⟨hedge, beq_self_eq_true v⟩, rfl⟩
  exact (mem_filter.mp (hperm.mem_iff.mpr hu)).1

end BuiltOnce

/-! ## Taking vertices -/

/-- The loop ends by itself: more fuel than there are vertices changes nothing. -/
theorem takeFree_enough (hbuilt : Built g) (fuel k : Nat) (h : Partway g taken degrees stack)
    (hfuel : g.order ≤ taken.length + fuel) :
    takeFree g (fuel + k) degrees stack = takeFree g fuel degrees stack := by
  induction fuel generalizing taken degrees stack with
  | zero =>
    have hle := h.length_le
    obtain rfl : stack = [] := length_eq_zero_iff.mp (by omega)
    cases 0 + k <;> rfl
  | succ fuel ih =>
    rw [succ_add]
    cases stack with
    | nil => rfl
    | cons u stack =>
      refine congrArg (u :: ·) (ih (h.step hbuilt) ?_)
      rw [length_append, length_singleton]
      omega

theorem exists_sorted (hbuilt : Built g) :
    ∃ ds, Partway g g.topologicalSort ds [] ∧ Timely g g.topologicalSort := by
  refine exists_partway hbuilt g.order (.start hbuilt) (fun before v later heq => ?_)
    (le_add_left _ _)
  exact absurd heq.symm (by simp)

theorem nodup_topologicalSort (hbuilt : Built g) : g.topologicalSort.Nodup := by
  obtain ⟨ds, hend, -⟩ := exists_sorted hbuilt
  have hnodup := hend.nodup
  rwa [append_nil] at hnodup

theorem mem_vertices_of_sorted (hbuilt : Built g) (hx : x ∈ g.topologicalSort) :
    x ∈ g.vertices := by
  obtain ⟨ds, hend, -⟩ := exists_sorted hbuilt
  exact ((hend.free x).mp (mem_append_left _ hx)).1

/-! ## Order -/

theorem Leads.sortedBefore (h : BuiltOnce g) (hedge : g.Leads u v) (hv : v ∈ g.topologicalSort) :
    g.SortedBefore u v := by
  obtain ⟨ds, hend, htimely⟩ := exists_sorted h.built
  obtain ⟨before, later, heq⟩ := append_of_mem hv
  have hnodup := nodup_topologicalSort h.built
  rw [heq] at hnodup
  obtain ⟨hbefore, -, hdisjoint⟩ := nodup_append'.mp hnodup
  have hu := h.source_mem_of_served hbefore (htimely before v later heq) hedge
  have hnot : v ∉ before := fun hv => hdisjoint hv mem_cons_self
  rw [SortedBefore, heq, idxOf_append_of_mem hu, idxOf_append_of_notMem hnot]
  exact lt_of_lt_of_le (idxOf_lt_length_iff.mpr hu) (le_add_right _ _)

theorem SortedBefore.mem (h : g.SortedBefore u v) : u ∈ g.topologicalSort :=
  idxOf_lt_length_iff.mp (lt_of_lt_of_le h idxOf_le_length)

/-- Along a path to a sorted vertex, all vertices are sorted, in the order of the path. -/
theorem sortedBefore_of_path (h : BuiltOnce g) (hpath : Relation.TransGen g.Leads u v)
    (hv : v ∈ g.topologicalSort) : g.SortedBefore u v := by
  induction hpath with
  | single hedge => exact hedge.sortedBefore h hv
  | tail _ hedge ih =>
    have hlast := Leads.sortedBefore h hedge hv
    exact lt_trans (ih hlast.mem) hlast

theorem not_afterCycle_of_sorted (h : BuiltOnce g) (hx : x ∈ g.topologicalSort) :
    ¬g.AfterCycle x := by
  rintro ⟨c, hcycle, hpath⟩
  have hc : c ∈ g.topologicalSort := by
    rcases Relation.reflTransGen_iff_eq_or_transGen.mp hpath with rfl | hpath
    · exact hx
    · exact (sortedBefore_of_path h hpath hx).mem
  exact lt_irrefl _ (sortedBefore_of_path h hcycle hc)

/-- The order of a graph to which no edge was added twice, with cycles or without. The loop ends,
whatever fuel it is given beyond the number of vertices. Every vertex that no cycle leads to is
taken once, after all its sources, and no other vertex is; so that all vertices are taken exactly if
there is no cycle. -/
theorem topologicalSort_without_cycles (g : Graph α) (h : BuiltOnce g) :
    (∀ fuel, g.order ≤ fuel → takeFree g fuel g.inDegrees
      (g.vertices.filter fun u => degree g.inDegrees u == 0).reverse = g.topologicalSort) ∧
    g.topologicalSort.Nodup ∧
    (∀ x, x ∈ g.topologicalSort ↔ x ∈ g.vertices ∧ ¬g.AfterCycle x) ∧
    (∀ u v, g.Leads u v → v ∈ g.topologicalSort → g.SortedBefore u v) ∧
    (g.topologicalSort.length = g.order ↔ ∀ x, ¬Relation.TransGen g.Leads x x) := by
  have hnodup := nodup_topologicalSort h.built
  have hmem (x : α) : x ∈ g.topologicalSort ↔ x ∈ g.vertices ∧ ¬g.AfterCycle x := by
    obtain ⟨ds, hend, -⟩ := exists_sorted h.built
    refine ⟨fun hx => ⟨mem_vertices_of_sorted h.built hx, not_afterCycle_of_sorted h hx⟩, ?_⟩
    rintro ⟨hx, hcycle⟩
    exact mem_of_not_afterCycle h.built hend hx hcycle
  have hlength : g.vertices.length = g.order := List.length_map _
  refine ⟨fun fuel hfuel => ?_, hnodup, hmem, fun u v hedge => hedge.sortedBefore h, ?_, ?_⟩
  · obtain ⟨k, rfl⟩ := Nat.exists_eq_add_of_le hfuel
    exact takeFree_enough h.built g.order k (.start h.built) (Nat.le_add_left _ _)
  · intro hall x hcycle
    have hsubset : g.topologicalSort ⊆ g.vertices := fun x hx => ((hmem x).mp hx).1
    have hperm := (hnodup.subperm hsubset).perm_of_length_le (by omega)
    obtain ⟨y, hedge, -⟩ := Relation.TransGen.head'_iff.mp hcycle
    have hx := hperm.mem_iff.mpr (h.built.ends hedge).1
    exact ((hmem x).mp hx).2 ⟨x, hcycle, .refl⟩
  · intro hacyclic
    rw [← hlength]
    refine ((List.perm_ext_iff_of_nodup hnodup h.built.nodup_vertices).mpr fun x => ?_).length_eq
    rw [hmem, and_iff_left]
    rintro ⟨c, hcycle, -⟩
    exact hacyclic c hcycle

/-- One vertex before a cycle, two on it, one after it, and one beside it. -/
theorem topologicalSort_without_cycles_beside :
    BuiltOnce (ofEdges .directed [(1, 2), (2, 3), (3, 2), (3, 4), (1, 5)]) ∧
      (ofEdges .directed [(1, 2), (2, 3), (3, 2), (3, 4), (1, 5)]).topologicalSort = [1, 5] ∧
      ¬(ofEdges .directed [(1, 2), (2, 3), (3, 2), (3, 4), (1, 5)]).AfterCycle 5 ∧
      (ofEdges .directed [(1, 2), (2, 3), (3, 2), (3, 4), (1, 5)]).AfterCycle 4 := by
  set g := ofEdges .directed [(1, 2), (2, 3), (3, 2), (3, 4), (1, 5)]
  have hbuilt : BuiltOnce g :=
    ((((BuiltOnce.empty.addEdge (by decide)).addEdge (by decide)).addEdge (by decide)).addEdge
      (by decide)).addEdge (by decide)
  have hsort : g.topologicalSort = [1, 5] := by decide
  obtain ⟨-, -, hmem, -⟩ := topologicalSort_without_cycles g hbuilt
  refine ⟨hbuilt, hsort, ((hmem 5).mp (by rw [hsort]; decide)).2, ?_⟩
  by_contra hcycle
  have hfour := (hmem 4).mpr ⟨by decide, hcycle⟩
  rw [hsort] at hfour
  exact absurd hfour (by decide)

end CompilerKit.Graph
