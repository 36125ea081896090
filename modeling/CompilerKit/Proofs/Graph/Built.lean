import CompilerKit.Graph.Basic

/-!
# Graphs that are built

A directed graph that comes from adding vertices and edges keeps the same edges in two ways, as
lists of neighbours and as a set.
-/

namespace CompilerKit

open List Bindings

variable {α : Type} [BEq α] [LawfulBEq α]

instance : LawfulBEq (Edge α) where
  eq_of_beq {a b} h := by
    cases a
    cases b
    have h' := Bool.and_eq_true_iff.mp h
    simp_all
  rfl {a} := by
    change (a.source == a.source && a.target == a.target) = true
    simp

namespace Graph

/-! ## Vertices -/

theorem mem_vertices_addVertex (g : Graph α) (u x : α) :
    x ∈ (g.addVertex u).vertices ↔ x = u ∨ x ∈ g.vertices := by
  unfold addVertex
  cases h : has g.out u with
  | true =>
    have hu : u ∈ g.vertices := has_iff_mem_keys.mp h
    constructor
    · exact Or.inr
    · rintro (rfl | hx)
      · exact hu
      · exact hx
  | false =>
    have hkeys := keys_put g.out u []
    simp only [h, Bool.false_eq_true, if_false] at hkeys ⊢
    unfold vertices
    rw [hkeys, mem_append, mem_singleton]
    exact or_comm

omit [LawfulBEq α] in
@[simp] theorem edges_addVertex (g : Graph α) (u : α) : (g.addVertex u).edges = g.edges := by
  unfold addVertex
  split <;> rfl

@[simp] theorem neighbours_addVertex (g : Graph α) (u x : α) :
    (g.addVertex u).neighbours x = g.neighbours x := by
  unfold addVertex
  cases h : has g.out u with
  | true => rfl
  | false =>
    simp only [Bool.false_eq_true, if_false, neighbours, get?_put]
    cases hx : x == u with
    | false => simp
    | true =>
      have hnone : get? g.out x = none := by
        rw [eq_of_beq hx]
        simpa [has] using h
      simp [hnone]

/-! ## Tables of neighbours -/

/-- What a table lists under a key. -/
def listed (table : List (α × List α)) (u : α) : List α := (get? table u).getD []

theorem listed_put (table : List (α × List α)) (u : α) (vs : List α) (x : α) :
    listed (put table u vs) x = if x == u then vs else listed table x := by
  unfold listed
  rw [get?_put]
  split <;> rfl

theorem listed_link (table : List (α × List α)) (u v x : α) :
    listed (link table u v) x = listed table x ++ if u == x then [v] else [] := by
  rw [link, listed_put]
  by_cases hx : u = x
  · subst hx
    simp [listed]
  · simp [hx, Ne.symm hx]

/-! ## Edges -/

omit [LawfulBEq α] in
theorem hasEdge_addVertex (o) (g : Graph α) (u x y) :
    (g.addVertex u).hasEdge o x y = g.hasEdge o x y := by
  rw [hasEdge, edges_addVertex, hasEdge]

omit [LawfulBEq α] in
theorem edges_addEdge (o) (g : Graph α) (u v : α) : (g.addEdge o u v).edges =
    if g.hasEdge o u v then g.edges else g.edges ++ [⟨u, v⟩] := by
  cases o <;> simp only [addEdge, hasEdge_addVertex, edges_addVertex]

theorem hasEdge_directed (g : Graph α) (u v : α) : g.hasEdge .directed u v ↔ ⟨u, v⟩ ∈ g.edges := by
  unfold hasEdge
  rw [any_eq_true]
  constructor
  · rintro ⟨e, he, hsame⟩
    have heq : (⟨u, v⟩) = e := eq_of_beq ((Bool.or_false _).symm.trans hsame)
    rwa [heq]
  · intro he
    exact ⟨_, he, by simp [Edge.same]⟩

theorem vertices_addEdge (g : Graph α) (u v : α) :
    (g.addEdge .directed u v).vertices = ((g.addVertex u).addVertex v).vertices := by
  have hu : has ((g.addVertex u).addVertex v).out u := by
    refine has_iff_mem_keys.mpr ?_
    change u ∈ ((g.addVertex u).addVertex v).vertices
    rw [mem_vertices_addVertex, mem_vertices_addVertex]
    exact .inr (.inl rfl)
  change (link ((g.addVertex u).addVertex v).out u v).map Prod.fst = _
  rw [link, keys_put, hu]
  rfl

theorem mem_vertices_addEdge (g : Graph α) (u v x : α) :
    x ∈ (g.addEdge .directed u v).vertices ↔ x = u ∨ x = v ∨ x ∈ g.vertices := by
  rw [vertices_addEdge, mem_vertices_addVertex, mem_vertices_addVertex]
  exact or_left_comm

theorem neighbours_addEdge (g : Graph α) (u v x : α) :
    (g.addEdge .directed u v).neighbours x = g.neighbours x ++ if u == x then [v] else [] := by
  change listed (link ((g.addVertex u).addVertex v).out u v) x = _
  rw [listed_link, ← neighbours_addVertex g u, ← neighbours_addVertex (g.addVertex u) v]
  rfl

theorem mem_edges_addEdge (g : Graph α) (u v : α) (e : Edge α) :
    e ∈ (g.addEdge .directed u v).edges ↔ e = ⟨u, v⟩ ∨ e ∈ g.edges := by
  rw [edges_addEdge]
  split
  · next h =>
    refine (or_iff_right_of_imp ?_).symm
    rintro rfl
    exact (hasEdge_directed g u v).mp h
  · rw [mem_append, mem_singleton]
    exact or_comm

/-! ## Reversal -/

theorem neighbours_foldl_addVertex (vs : List α) (t : Graph α) (v : α) :
    (vs.foldl addVertex t).neighbours v = t.neighbours v := by
  induction vs generalizing t with
  | nil => rfl
  | cons u vs ih => rw [foldl_cons, ih, neighbours_addVertex]

theorem neighbours_foldl_addEdge (es : List (Edge α)) (t : Graph α) (v : α) :
    (es.foldl (fun t e => t.addEdge .directed e.target e.source) t).neighbours v =
      t.neighbours v ++ (es.filter fun e => e.target == v).map Edge.source := by
  induction es generalizing t with
  | nil => simp
  | cons e es ih =>
    rw [foldl_cons, ih, neighbours_addEdge, append_assoc, filter_cons]
    split <;> simp

/-- The neighbours in the graph with all edges turned round are the sources of the edges, in the
order of the set. -/
theorem neighbours_transpose (g : Graph α) (v : α) :
    g.transpose.neighbours v = (g.edges.filter fun e => e.target == v).map Edge.source := by
  rw [transpose, neighbours_foldl_addEdge, neighbours_foldl_addVertex]
  rfl

/-! ## Graphs that are built -/

/-- The directed graphs that come from adding vertices and edges. A set of edges has no order, so
that its edges may come in any. -/
inductive Built : Graph α → Prop where
  | empty : Built {}
  | addVertex (h : Built g) (u : α) : Built (g.addVertex u)
  | addEdge (h : Built g) (u v : α) : Built (g.addEdge .directed u v)
  | reorder {g} (h : Built g) {es} (hes : es.Perm g.edges) : Built { g with edges := es }

namespace Built

variable {g : Graph α}

variable (h : Built g)
include h

theorem mem_neighbours (u v : α) : v ∈ g.neighbours u ↔ ⟨u, v⟩ ∈ g.edges := by
  induction h with
  | empty => simp [neighbours, get?]
  | addVertex h w ih => rw [neighbours_addVertex, edges_addVertex, ih]
  | @addEdge g h a b ih =>
    rw [neighbours_addEdge, mem_edges_addEdge, mem_append, ih, or_comm]
    by_cases hau : a = u
    · subst hau
      simp
    · have hedge : (⟨u, v⟩ : Edge α) ≠ ⟨a, b⟩ := by
        intro heq
        exact hau (congrArg Edge.source heq).symm
      simp [hau, hedge]
  | @reorder g h es hes ih =>
    change v ∈ g.neighbours u ↔ ⟨u, v⟩ ∈ es
    rw [ih, hes.mem_iff]

theorem ends (he : e ∈ g.edges) : e.source ∈ g.vertices ∧ e.target ∈ g.vertices := by
  induction h with
  | empty => cases he
  | @addVertex g h w ih =>
    rw [edges_addVertex] at he
    obtain ⟨hs, ht⟩ := ih he
    rw [mem_vertices_addVertex, mem_vertices_addVertex]
    exact ⟨.inr hs, .inr ht⟩
  | @addEdge g h a b ih =>
    rw [mem_edges_addEdge] at he
    rw [mem_vertices_addEdge, mem_vertices_addEdge]
    obtain rfl | he := he
    · exact ⟨.inl rfl, .inr (.inl rfl)⟩
    · obtain ⟨hs, ht⟩ := ih he
      exact ⟨.inr (.inr hs), .inr (.inr ht)⟩
  | reorder h hes ih => exact ih (hes.mem_iff.mp he)

theorem mem_neighbours_transpose (u v : α) : u ∈ g.transpose.neighbours v ↔ v ∈ g.neighbours u := by
  rw [neighbours_transpose, h.mem_neighbours, mem_map]
  constructor
  · rintro ⟨⟨a, b⟩, he, rfl⟩
    obtain ⟨hmem, hb⟩ := mem_filter.mp he
    obtain rfl : b = v := eq_of_beq hb
    exact hmem
  · intro he
    exact ⟨⟨u, v⟩, mem_filter.mpr ⟨he, by simp⟩, rfl⟩

theorem target_mem (hv : v ∈ g.neighbours u) : v ∈ g.vertices :=
  (h.ends ((h.mem_neighbours u v).mp hv)).2

theorem source_mem (hu : u ∈ g.transpose.neighbours v) : u ∈ g.vertices :=
  (h.ends ((h.mem_neighbours u v).mp ((h.mem_neighbours_transpose u v).mp hu))).1

end Built

end Graph

end CompilerKit
