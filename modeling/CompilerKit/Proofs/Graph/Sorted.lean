import Mathlib.Data.Fintype.Order
import Mathlib.Data.List.Nodup
import Mathlib.Data.Set.Finite.List
import Mathlib.Logic.Relation
import Mathlib.Order.WellFounded
import CompilerKit.Proofs.Graph.Built

/-!
# Topological sorting

The vertices of an acyclic graph are all taken, each once. A vertex becomes free when as many edges
into it are served as there are in the set of edges. But an edge that is listed twice is served
twice, so that a vertex may become free before all its sources are taken. An edge is in order if the
other edges into its target, counted as often as they are listed, are too few for that.

* `Partway.step`: what holds of the degrees and of the free vertices while vertices are taken.
* `topologicalSort_sorts`: all vertices are taken, and which edges are then in order.
-/

namespace CompilerKit.Graph

open List Bindings

variable {α : Type} [BEq α] [LawfulBEq α]
variable {g : Graph α} {degrees : List (α × Int)} {stack taken : List α}
variable {x : α} {us : List α} {es : List (α × α)} {ds : List (α × Int)}

/-! ## Built graphs -/

namespace Built

theorem nodup_vertices (h : Built g) : g.vertices.Nodup := by
  have hadd {g : Graph α} (u : α) (hg : g.vertices.Nodup) : (g.addVertex u).vertices.Nodup := by
    unfold Graph.addVertex vertices
    cases hu : has g.out u with
    | true => exact hg
    | false =>
      simp only [Bool.false_eq_true, if_false, keys_put, hu]
      rw [nodup_append']
      refine ⟨hg, nodup_singleton u, ?_⟩
      rw [disjoint_singleton]
      intro hmem
      exact Bool.false_ne_true (hu.symm.trans (has_iff_mem_keys.mpr hmem))
  induction h with
  | empty => exact nodup_nil
  | addVertex h u ih => exact hadd u ih
  | addEdge h u v ih =>
    rw [vertices_addEdge]
    exact hadd v (hadd u ih)
  | reorder h hes ih => exact ih

theorem nodup_edges (h : Built g) : g.edges.Nodup := by
  induction h with
  | empty => exact nodup_nil
  | addVertex h u ih =>
    rw [edges_addVertex]
    exact ih
  | @addEdge g h u v ih =>
    rw [edges_addEdge]
    split
    · exact ih
    · next hnew =>
      rw [hasEdge_directed] at hnew
      rw [nodup_append']
      exact ⟨ih, nodup_singleton _, disjoint_singleton.mpr hnew⟩
  | reorder h hes ih => exact hes.nodup_iff.mpr ih

end Built

omit [LawfulBEq α] in
theorem built_ofEdges (es : List (α × α)) : Built (ofEdges .directed es) :=
  foldlRecOn es _ .empty fun _ h e _ => h.addEdge e.1 e.2

theorem count_neighbours_foldl (es : List (α × α)) (g : Graph α) (u v) :
    ((es.foldl (fun g (u, v) => g.addEdge .directed u v) g).neighbours u).count v =
      (g.neighbours u).count v + es.countP fun e => e.1 == u && e.2 == v := by
  induction es generalizing g with
  | nil => rfl
  | cons e es ih =>
    rw [foldl_cons, ih, neighbours_addEdge, count_append, countP_cons]
    cases hu : e.1 == u with
    | false => simp
    | true => simp only [if_true, count_singleton, Bool.true_and]; omega

theorem count_neighbours_ofEdges (es : List (α × α)) (u v : α) :
    ((ofEdges .directed es).neighbours u).count v = es.countP fun e => e.1 == u && e.2 == v := by
  rw [ofEdges, count_neighbours_foldl]
  exact Nat.zero_add _

theorem mem_edges_ofEdges (es : List (α × α)) (u v : α) :
    ⟨u, v⟩ ∈ (ofEdges .directed es).edges ↔ (u, v) ∈ es := by
  rw [← (built_ofEdges es).mem_neighbours, ← count_pos_iff, count_neighbours_ofEdges,
    countP_pos_iff]
  constructor
  · rintro ⟨⟨a, b⟩, he, hab⟩
    rw [Bool.and_eq_true, beq_iff_eq, beq_iff_eq] at hab
    obtain ⟨rfl, rfl⟩ := hab
    exact he
  · intro he
    exact ⟨_, he, by simp⟩

/-! ## Degrees -/

/-- The degree that a table gives. -/
def degree (degrees : List (α × Int)) (v : α) : Int := (get? degrees v).getD 0

/-- The edges of the set that enter a vertex. -/
def entering (g : Graph α) (v : α) : List (Edge α) := g.edges.filter fun e => e.target == v

/-- How many listings of edges into a vertex come from the given vertices. -/
def served (g : Graph α) (v : α) : List α → Nat
  | [] => 0
  | u :: us => (g.neighbours u).count v + served g v us

theorem degree_put (degrees : List (α × Int)) (v : α) (d : Int) (x : α) :
    degree (put degrees v d) x = if x == v then d else degree degrees x := by
  unfold degree
  rw [get?_put]
  split <;> rfl

theorem degree_inDegrees (g : Graph α) (v) : degree g.inDegrees v = (g.entering v).length := by
  have hfold : ∀ (es : List (Edge α)) (ds : List (α × Int)), degree (es.foldl (fun ds e =>
        put ds e.target ((get? ds e.target).getD 0 + 1)) ds) v =
        degree ds v + (es.filter fun e => e.target == v).length := by
    intro es
    induction es with
    | nil => simp
    | cons e es ih =>
      intro ds
      rw [foldl_cons, ih, degree_put, filter_cons]
      by_cases hv : v = e.target
      · subst hv
        simp only [beq_self_eq_true, if_true, length_cons]
        change degree ds e.target + 1 + _ = _
        omega
      · rw [beq_false_of_ne hv, beq_false_of_ne (Ne.symm hv)]
        rfl
  have hzero : ∀ us : List α, degree (us.map fun u => (u, (0))) v = 0 := by
    intro us
    unfold degree get?
    induction us with
    | nil => rfl
    | cons u us ih =>
      rw [map_cons, lookup_cons]
      cases v == u with
      | true => rfl
      | false => exact ih
  rw [inDegrees, hfold, hzero, Int.zero_add]
  rfl

omit [LawfulBEq α] in
theorem served_append (g : Graph α) (v us ws) :
    g.served v (us ++ ws) = g.served v us + g.served v ws := by
  induction us with
  | nil => exact (Nat.zero_add _).symm
  | cons u us ih => rw [cons_append, served, served, ih, Nat.add_assoc]

/-! ## Lowering degrees -/

/-- The degree of a neighbour is lowered by one. If it gets to zero, the neighbour goes on the
stack, as free as all others there. -/
theorem free_lower (hfree : ∀ x ∈ stack, degree degrees x ≤ 0) (v) :
    ∀ x ∈ (if degree degrees v - 1 = 0 then v :: stack else stack),
      degree (put degrees v (degree degrees v - 1)) x ≤ 0 := by
  have hold (x : α) (hx : x ∈ stack) : degree (put degrees v (degree degrees v - 1)) x ≤ 0 := by
    rw [degree_put]
    have := hfree x hx
    split
    · next hxv =>
      rw [← eq_of_beq hxv]
      omega
    · exact this
  split
  · next hd =>
    rw [forall_mem_cons, degree_put, beq_self_eq_true, if_pos rfl]
    exact ⟨Int.le_of_eq hd, hold⟩
  · exact hold

theorem degree_release (vs : List α) (degrees : List (α × Int)) (stack : List α) (x : α) :
    degree (release vs degrees stack).1 x = degree degrees x - vs.count x := by
  induction vs generalizing degrees stack with
  | nil => simp [release]
  | cons v vs ih =>
    rw [release, ih, degree_put, count_cons]
    by_cases hx : x = v
    · subst hx
      simp only [beq_self_eq_true, if_true]
      change degree degrees x - 1 - _ = _
      omega
    · rw [beq_false_of_ne hx, beq_false_of_ne (Ne.symm hx)]
      simp

theorem mem_release (vs) (hfree : ∀ x ∈ stack, degree degrees x ≤ 0) (x) :
    x ∈ (release vs degrees stack).2 ↔
      x ∈ stack ∨ 0 < degree degrees x ∧ degree degrees x ≤ vs.count x := by
  induction vs generalizing degrees stack with
  | nil =>
    simp only [release, count_nil]
    refine ⟨.inl, ?_⟩
    rintro (hx | hx)
    · exact hx
    · omega
  | cons v vs ih =>
    have hnext := ih (free_lower hfree v)
    change x ∈ (release vs (put degrees v (degree degrees v - 1))
      (if degree degrees v - 1 = 0 then v :: stack else stack)).2 ↔ _
    rw [hnext, degree_put, count_cons]
    by_cases hx : x = v
    · subst hx
      simp only [beq_self_eq_true, if_true]
      split
      · refine iff_of_true (.inl mem_cons_self) (.inr ?_)
        omega
      · refine or_congr Iff.rfl ?_
        omega
    · rw [beq_false_of_ne hx, beq_false_of_ne (Ne.symm hx)]
      have hstack : x ∈ (if degree degrees v - 1 = 0 then v :: stack else stack) ↔ x ∈ stack := by
        split
        · simp [hx]
        · exact Iff.rfl
      rw [hstack]
      simp

theorem nodup_release (vs) (hfree : ∀ x ∈ stack, degree degrees x ≤ 0) (hstack : stack.Nodup) :
    (release vs degrees stack).2.Nodup := by
  induction vs generalizing degrees stack with
  | nil => exact hstack
  | cons v vs ih =>
    refine ih (free_lower hfree v) ?_
    change (if degree degrees v - 1 = 0 then v :: stack else stack).Nodup
    split
    · refine nodup_cons.mpr ⟨fun hv => ?_, hstack⟩
      have := hfree v hv
      omega
    · exact hstack

/-! ## Taking vertices -/

/-- Some vertices are taken. The degrees say how many edges are left to be served, and the vertices
on the stack are those of the free ones that are not taken. -/
structure Partway (g : Graph α) (taken : List α) (degrees : List (α × Int)) (stack : List α) :
    Prop where
  left (x : α) : degree degrees x = (g.entering x).length - g.served x taken
  free (x : α) : x ∈ taken ++ stack ↔ x ∈ g.vertices ∧ degree degrees x ≤ 0
  nodup : (taken ++ stack).Nodup

/-- Every vertex is taken when as many listings of edges into it are served as there are edges. -/
def Timely (g : Graph α) (taken : List α) : Prop :=
  ∀ before v later, taken = before ++ v :: later → (g.entering v).length ≤ g.served v before

omit [LawfulBEq α] in
theorem timely_concat (h : Timely g taken) (hu : (g.entering u).length ≤ g.served u taken) :
    Timely g (taken ++ [u]) := by
  intro before v later heq
  rcases eq_nil_or_concat later with rfl | ⟨later, w, rfl⟩
  · obtain ⟨rfl, hv⟩ := append_inj' heq rfl
    cases hv
    exact hu
  · rw [concat_eq_append, ← cons_append, ← append_assoc] at heq
    exact h before v later (append_inj_left' heq rfl)

namespace Partway

theorem start (h : Built g) :
    Partway g [] g.inDegrees (g.vertices.filter fun u => degree g.inDegrees u == 0).reverse where
  left x := by
    rw [degree_inDegrees]
    exact (Int.sub_zero _).symm
  free x := by
    rw [nil_append, mem_reverse, mem_filter, beq_iff_eq, degree_inDegrees]
    refine and_congr Iff.rfl ?_
    omega
  nodup := by
    rw [nil_append, nodup_reverse]
    exact h.nodup_vertices.filter _

variable {u : α}

omit [LawfulBEq α] in
theorem degree_le (h : Partway g taken degrees (u :: stack)) (hx : x = u ∨ x ∈ stack) :
    degree degrees x ≤ 0 :=
  ((h.free x).mp (mem_append_right _ (mem_cons.mpr hx))).2

theorem step (h : Partway g taken degrees (u :: stack)) (hbuilt : Built g) :
    Partway g (taken ++ [u]) (release (g.neighbours u) degrees stack).1
      (release (g.neighbours u) degrees stack).2 := by
  have hfree : ∀ x ∈ stack, degree degrees x ≤ 0 := fun x hx => h.degree_le (.inr hx)
  have hmem (x : α) : x ∈ taken ++ [u] ++ (release (g.neighbours u) degrees stack).2 ↔
      x ∈ taken ++ u :: stack ∨
        0 < degree degrees x ∧ degree degrees x ≤ (g.neighbours u).count x := by
    rw [mem_append, mem_release _ hfree, ← or_assoc, ← mem_append, append_assoc]
    rfl
  constructor
  · intro x
    rw [degree_release, h.left, served_append, served, served]
    omega
  · intro x
    rw [hmem, h.free, degree_release]
    constructor
    · rintro (⟨hx, hle⟩ | ⟨hpos, hle⟩)
      · exact ⟨hx, by omega⟩
      · have hlisted : x ∈ g.neighbours u := count_pos_iff.mp (by omega)
        exact ⟨hbuilt.target_mem hlisted, by omega⟩
    · rintro ⟨hx, hle⟩
      by_cases hpos : 0 < degree degrees x
      · exact .inr ⟨hpos, by omega⟩
      · exact .inl ⟨hx, by omega⟩
  · have hnodup := h.nodup
    rw [← singleton_append, ← append_assoc, nodup_append'] at hnodup
    rw [nodup_append']
    refine ⟨hnodup.1, nodup_release _ hfree hnodup.2.1, fun x hx hnew => ?_⟩
    rcases (mem_release _ hfree x).mp hnew with hold | hpos
    · exact hnodup.2.2 hx hold
    · have hle : degree degrees x ≤ 0 := by
        refine ((h.free x).mp ?_).2
        rw [← singleton_append, ← append_assoc]
        exact mem_append_left _ hx
      omega

omit [LawfulBEq α] in
theorem length_le (h : Partway g taken degrees stack) : taken.length + stack.length ≤ g.order := by
  have hsubset : taken ++ stack ⊆ g.vertices := fun x hx => ((h.free x).mp hx).1
  have hle := (h.nodup.subperm hsubset).length_le
  rwa [length_append, vertices, length_map] at hle

end Partway

theorem exists_partway (hbuilt : Built g) (fuel) (h : Partway g taken degrees stack)
    (htimely : Timely g taken) (hfuel : g.order ≤ taken.length + fuel) :
    ∃ ds, Partway g (taken ++ takeFree g fuel degrees stack) ds [] ∧
      Timely g (taken ++ takeFree g fuel degrees stack) := by
  induction fuel generalizing taken degrees stack with
  | zero =>
    have hle := h.length_le
    obtain rfl : stack = [] := length_eq_zero_iff.mp (by omega)
    rw [takeFree, append_nil]
    exact ⟨degrees, h, htimely⟩
  | succ fuel ih =>
    cases stack with
    | nil =>
      rw [takeFree, append_nil]
      exact ⟨degrees, h, htimely⟩
    | cons u stack =>
      have hu : (g.entering u).length ≤ g.served u taken := by
        have hle := h.degree_le (.inl rfl)
        rw [h.left] at hle
        omega
      have hnext := ih (h.step hbuilt) (timely_concat htimely hu) (by
        rw [length_append, length_singleton]
        omega)
      rwa [append_assoc] at hnext

/-! ## Order -/

/-- Counted without repetitions, the edges from given vertices are at most those that are served. -/
theorem length_le_served (hus : us.Nodup) (hsub : us ⊆ ws)
    (hlisted : ∀ u ∈ us, v ∈ g.neighbours u) : us.length ≤ g.served v ws := by
  have hfilter : ∀ ws : List α,
      (ws.filter fun u => (g.neighbours u).contains v).length ≤ g.served v ws := by
    intro ws
    induction ws with
    | nil => exact Nat.le_refl 0
    | cons w ws ih =>
      rw [filter_cons, served]
      split
      · next hw =>
        have hpos := count_pos_iff.mpr (contains_iff_mem.mp hw)
        rw [length_cons]
        omega
      · omega
  have hsubset : us ⊆ ws.filter fun u => (g.neighbours u).contains v := fun u hu =>
    mem_filter.mpr ⟨hsub hu, contains_iff_mem.mpr (hlisted u hu)⟩
  exact (hus.subperm hsubset).length_le.trans (hfilter ws)

theorem sources_nodup (h : Built g) (v) : ((g.entering v).map Edge.source).Nodup := by
  refine (h.nodup_edges.filter _).map_on ?_
  rintro ⟨a, b⟩ ha ⟨c, d⟩ hc hac
  have hb : b = v := eq_of_beq (mem_filter.mp ha).2
  have hd : d = v := eq_of_beq (mem_filter.mp hc).2
  rw [Edge.mk.injEq]
  exact ⟨hac, hb.trans hd.symm⟩

theorem served_ofEdges (es v) (hus : us.Nodup) :
    (ofEdges .directed es).served v us = es.countP fun e => e.2 == v && us.contains e.1 := by
  induction us with
  | nil => simp [served]
  | cons u us ih =>
    obtain ⟨hu, hus⟩ := nodup_cons.mp hus
    have hsplit : ∀ es : List (α × α), es.countP (fun e => e.1 == u && e.2 == v) +
        es.countP (fun e => e.2 == v && us.contains e.1) =
          es.countP fun e => e.2 == v && (u :: us).contains e.1 := by
      intro es
      induction es with
      | nil => rfl
      | cons e es ih =>
        rw [countP_cons, countP_cons, countP_cons, ← ih, contains_cons]
        by_cases he : e.1 = u
        · have hnot : us.contains e.1 = false :=
            Bool.eq_false_iff.mpr fun h => hu (he ▸ contains_iff_mem.mp h)
          rw [hnot, he, beq_self_eq_true, Bool.true_and, Bool.true_or, Bool.and_true,
            Bool.and_false, if_neg Bool.false_ne_true]
          omega
        · rw [beq_false_of_ne he, Bool.false_and, Bool.false_or, if_neg Bool.false_ne_true]
          omega
    rw [served, ih hus, count_neighbours_ofEdges, hsplit]

/-- The other edges into the target of an edge, as often as they are given. -/
def rivals (es : List (α × α)) (u v : α) : Nat := es.countP fun e => e.2 == v && e.1 != u

/-- Among edges that are given once, the other edges into a vertex are fewer than all. -/
theorem rivals_lt (hes : es.Nodup) (hedge : (u, v) ∈ es) :
    rivals es u v < ((ofEdges .directed es).entering v).length := by
  have hinj : ∀ p ∈ es.filter (fun e => e.2 == v && e.1 != u), ∀ q ∈ es.filter
      (fun e => e.2 == v && e.1 != u), (⟨p.1, p.2⟩ : Edge α) = ⟨q.1, q.2⟩ → p = q := by
    rintro ⟨a, b⟩ - ⟨c, d⟩ - heq
    cases heq
    rfl
  have hnodup : (⟨u, v⟩ :: (es.filter fun e => e.2 == v && e.1 != u).map
      fun e => (⟨e.1, e.2⟩ : Edge α)).Nodup := by
    refine nodup_cons.mpr ⟨fun hmem => ?_, (hes.filter _).map_on hinj⟩
    obtain ⟨e, he, heq⟩ := mem_map.mp hmem
    cases heq
    simp at he
  have hsub : (⟨u, v⟩ :: (es.filter fun e => e.2 == v && e.1 != u).map
      fun e => (⟨e.1, e.2⟩)) ⊆ (ofEdges .directed es).entering v := by
    refine cons_subset.mpr ⟨?_, fun e he => ?_⟩
    · exact mem_filter.mpr ⟨(mem_edges_ofEdges es u v).mpr hedge, beq_self_eq_true v⟩
    · obtain ⟨⟨a, b⟩, hab, rfl⟩ := mem_map.mp he
      obtain ⟨hmem, hb⟩ := mem_filter.mp hab
      exact mem_filter.mpr ⟨(mem_edges_ofEdges es a b).mpr hmem, (Bool.and_eq_true_iff.mp hb).1⟩
  have hle := (hnodup.subperm hsub).length_le
  rwa [length_cons, length_map, ← countP_eq_length_filter] at hle

/-- An edge leads from one vertex to another. -/
def Leads (g : Graph α) (u v : α) : Prop := ⟨u, v⟩ ∈ g.edges

/-- The vertex is on a cycle, or can be reached from one. -/
def AfterCycle (g : Graph α) (x : α) : Prop :=
  ∃ c, Relation.TransGen g.Leads c c ∧ Relation.ReflTransGen g.Leads c x

theorem mem_of_not_afterCycle (hbuilt : Built g) (h : Partway g taken ds []) (hx : x ∈ g.vertices)
    (hcycle : ¬g.AfterCycle x) : x ∈ taken := by
  let Before (a b : { x // x ∈ g.vertices ∧ ¬g.AfterCycle x }) : Prop :=
    Relation.TransGen g.Leads a.1 b.1
  have hfinite : Finite { x // x ∈ g.vertices ∧ ¬g.AfterCycle x } :=
    ((finite_toSet g.vertices).subset fun _ ha => ha.1).to_subtype
  have hirrefl : Std.Irrefl Before := ⟨fun a ha => a.2.2 ⟨a.1, ha, .refl⟩⟩
  have hwf : WellFounded Before := Finite.wellFounded_of_trans_of_irrefl Before
  suffices hall : ∀ a : { x // x ∈ g.vertices ∧ ¬g.AfterCycle x }, a.1 ∈ taken from
    hall ⟨x, hx, hcycle⟩
  intro a
  induction a using hwf.induction with
  | _ a ih =>
    have hedge (u : α) (hu : u ∈ (g.entering a.1).map Edge.source) : g.Leads u a.1 := by
      obtain ⟨⟨w, v⟩, he, rfl⟩ := mem_map.mp hu
      obtain ⟨hmem, hv⟩ := mem_filter.mp he
      rwa [← eq_of_beq hv]
    have hsource (u : α) (hu : u ∈ (g.entering a.1).map Edge.source) : ¬g.AfterCycle u := by
      rintro ⟨c, hc, hcu⟩
      exact a.2.2 ⟨c, hc, hcu.tail (hedge u hu)⟩
    have hserved := length_le_served (sources_nodup hbuilt a.1)
      (fun u hu => ih ⟨u, (hbuilt.ends (hedge u hu)).1, hsource u hu⟩ (.single (hedge u hu)))
      fun u hu => (hbuilt.mem_neighbours u a.1).mpr (hedge u hu)
    have hfree := (h.free a.1).mpr ⟨a.2.1, by
      rw [h.left]
      rw [length_map] at hserved
      omega⟩
    rwa [append_nil] at hfree

theorem mem_of_acyclic (hacyclic : ∀ x, ¬Relation.TransGen (fun u v => (u, v) ∈ es) x x)
    (h : Partway (ofEdges .directed es) taken ds []) (hx : x ∈ (ofEdges .directed es).vertices) :
    x ∈ taken := by
  refine mem_of_not_afterCycle (built_ofEdges es) h hx ?_
  rintro ⟨c, hc, -⟩
  exact hacyclic c (Relation.TransGen.mono (fun u v => (mem_edges_ofEdges es u v).mp) c c hc)

/-- One vertex comes before another in the sorted order. -/
def SortedBefore (g : Graph α) (u v : α) : Prop :=
  g.topologicalSort.idxOf u < g.topologicalSort.idxOf v

/-- The vertices of an acyclic graph are sorted: every vertex comes once, and the source of an edge
comes before its target, unless the other edges into the target, as often as they are given, are as
many as all edges into it without repetitions. That is never so if no edge is repeated. -/
theorem topologicalSort_sorts (es : List (α × α))
    (hacyclic : ∀ x, ¬Relation.TransGen (fun u v => (u, v) ∈ es) x x) :
    (ofEdges .directed es).topologicalSort.Perm (ofEdges .directed es).vertices ∧
      (∀ u v, (u, v) ∈ es → rivals es u v < ((ofEdges .directed es).entering v).length →
        (ofEdges .directed es).SortedBefore u v) ∧
      (es.Nodup → ∀ u v, (u, v) ∈ es → (ofEdges .directed es).SortedBefore u v) := by
  set g := ofEdges .directed es
  have hbuilt : Built g := built_ofEdges es
  obtain ⟨ds, hend, htimely⟩ := exists_partway hbuilt g.order (.start hbuilt)
    (fun _ _ _ heq => absurd heq.symm (by simp)) (Nat.le_add_left _ _)
  change Partway g g.topologicalSort ds [] at hend
  change Timely g g.topologicalSort at htimely
  have hnodup : g.topologicalSort.Nodup := by
    have := hend.nodup
    rwa [List.append_nil] at this
  have hmem (x : α) : x ∈ g.topologicalSort ↔ x ∈ g.vertices := by
    refine ⟨fun hx => ((hend.free x).mp ?_).1, mem_of_acyclic hacyclic hend⟩
    rwa [List.append_nil]
  have horder (u v : α) (hedge : (u, v) ∈ es) (hrivals : rivals es u v < (g.entering v).length) :
      g.SortedBefore u v := by
    have hv : v ∈ g.topologicalSort :=
      (hmem v).mpr (hbuilt.ends ((mem_edges_ofEdges es u v).mpr hedge)).2
    obtain ⟨before, later, heq⟩ := append_of_mem hv
    have hserved := htimely before v later heq
    rw [SortedBefore, heq]
    rw [heq] at hnodup
    obtain ⟨hbefore, -, hdisjoint⟩ := List.nodup_append'.mp hnodup
    have hu : u ∈ before := by
      by_contra hu
      rw [served_ofEdges es v hbefore] at hserved
      have hmono : es.countP (fun e => e.2 == v && before.contains e.1) ≤ rivals es u v := by
        refine countP_mono_left fun e _ he => ?_
        rw [Bool.and_eq_true] at he ⊢
        refine ⟨he.1, bne_iff_ne.mpr fun hsame => hu ?_⟩
        rw [← hsame]
        exact List.contains_iff_mem.mp he.2
      omega
    have hnot : v ∉ before := fun hv => hdisjoint hv List.mem_cons_self
    rw [idxOf_append_of_mem hu, idxOf_append_of_notMem hnot]
    exact Nat.lt_of_lt_of_le (idxOf_lt_length_iff.mpr hu) (Nat.le_add_right _ _)
  refine ⟨?_, horder, fun hes u v hedge => horder u v hedge (rivals_lt hes hedge)⟩
  exact (perm_ext_iff_of_nodup hnodup hbuilt.nodup_vertices).mpr hmem

/-- A graph with a repeated edge that is in order all the same. -/
theorem topologicalSort_sorts_detour :
    let es := [(1, 2), (1, 2), (2, 3), (1, 3)]
    let g := ofEdges .directed es
    (∀ x, ¬Relation.TransGen (fun u v => (u, v) ∈ es) x x) ∧ g.topologicalSort.Perm [1, 2, 3] ∧
      g.SortedBefore 1 2 := by
  have hup {x y : Nat}
      (h : Relation.TransGen (fun u v => (u, v) ∈ [(1, 2), (1, 2), (2, 3), (1, 3)]) x y) :
      x < y := by
    have hstep (u v : Nat) (he : (u, v) ∈ [(1, 2), (1, 2), (2, 3), (1, 3)]) : u < v := by
      simp only [List.mem_cons, Prod.mk.injEq, not_mem_nil, or_false] at he
      omega
    induction h with
    | single he => exact hstep _ _ he
    | tail _ he ih => exact ih.trans (hstep _ _ he)
  have hacyclic (x : Nat) :
      ¬Relation.TransGen (fun u v => (u, v) ∈ [(1, 2), (1, 2), (2, 3), (1, 3)]) x x :=
    fun h => Nat.lt_irrefl x (hup h)
  obtain ⟨hperm, horder, -⟩ := topologicalSort_sorts _ hacyclic
  exact ⟨hacyclic, hperm, horder 1 2 (by decide) (by decide)⟩

/-- A repeated edge lets a vertex come before one of its sources. -/
theorem repeated_edge_out_of_order :
    (3, 2) ∈ [(3, 2), (1, 2), (1, 2)] ∧
      (ofEdges .directed [(3, 2), (1, 2), (1, 2)]).topologicalSort = [1, 2, 3] := by
  decide

end CompilerKit.Graph
