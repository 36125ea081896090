import CompilerKit.Proofs.Graph.Built

/-!
# Graphs after calls

A graph is made from a list of edges, and then changed by calls, some of which may fail. Neighbours
are listed as often as an edge was added, but the set has every edge once. So the three parts of a
directed graph stay in step only as long as no edge is removed that is listed more than once, and
those of an undirected graph only as long as no edge between different vertices is removed.

* `after_induct`: what each call keeps holds after all calls.
* `inStep_called_iff`: a call keeps the parts in step just if it removes no edge that is listed
  twice.
-/

namespace CompilerKit.Graph

open List Bindings Prod

variable {α : Type} [BEq α] {u v : α} {g : Graph α}

/-! ## Calls -/

/-- A call that can change a graph. -/
inductive Call (α : Type) where
  | addVertex (u : α)
  | addEdge (u v : α)
  | adjacent (u : α)
  | removeEdge (u v : α)

/-- The graph that a call leaves, whether it fails or not. -/
def called (o : Orientation) (g : Graph α) : Call α → Graph α
  | .addVertex u => g.addVertex u
  | .addEdge u v => g.addEdge o u v
  | .adjacent u => (g.adjacent u).2
  | .removeEdge u v => (g.removeEdge o u v).2

/-- The graph of a list of edges after calls. -/
def after (o : Orientation) (es : List (α × α)) (calls : List (Call α)) : Graph α :=
  calls.foldl (called o) (ofEdges o es)

theorem after_induct {P : Graph α → Prop} {Q : Call α → Prop} (hempty : P {})
    (hadd : ∀ u v, Q (.addEdge u v)) (hstep : ∀ g c, Q c → P g → P (called o g c)) (es calls)
    (hcalls : ∀ c ∈ calls, Q c) : P (after o es calls) := by
  have hstart : P (ofEdges o es) :=
    foldlRecOn es _ hempty fun g h e _ => hstep g (.addEdge e.1 e.2) (hadd _ _) h
  exact foldlRecOn calls _ hstart fun g h c hc => hstep g c (hcalls c hc) h

theorem get?_of_mem_listed {table : List (α × List α)} (h : v ∈ listed table u) :
    get? table u = some (listed table u) := by
  unfold listed at h ⊢
  cases hu : get? table u with
  | none =>
    rw [hu] at h
    cases h
  | some vs => rfl

/-- An edge that is not in the set is not missed there. -/
theorem dropEdge_eq (g : Graph α) (u v) : g.dropEdge o u v =
    (if g.hasEdge o u v then .ok () else .error .noEdge,
      { g with edges := g.edges.filter fun e => !Edge.same o ⟨u, v⟩ e }) := by
  unfold dropEdge
  cases hedge : g.hasEdge o u v with
  | true => rfl
  | false =>
    have hall : g.edges.filter (fun e => !Edge.same o ⟨u, v⟩ e) = g.edges := by
      rw [filter_eq_self]
      intro e he
      simpa using any_eq_false.mp hedge e he
    rw [hall]
    rfl

theorem removeEdge_undirected_none (hu : get? g.out u = none) (v) :
    g.removeEdge .undirected u v = (.error .noVertex, g) := by
  rw [removeEdge, hu]

theorem removeEdge_undirected (hu : get? g.out u = some vs) (v) :
    g.removeEdge .undirected u v =
      (if g.hasEdge .undirected u v then .ok () else .error .noEdge,
        { g with
          out := put g.out u (vs.filter (· != v))
          edges := g.edges.filter fun e => !Edge.same .undirected ⟨u, v⟩ e }) := by
  rw [removeEdge, hu]
  exact dropEdge_eq _ u v

variable [LawfulBEq α]

/-! ## Tables of neighbours -/

theorem keys_put_of_get? {β : Type} {table : List (α × β)} {b : β} (h : get? table u = some b)
    (c : β) : (put table u c).map fst = table.map fst := by
  have hhas : has table u := by rw [has, h]; rfl
  rw [keys_put, hhas]
  rfl

theorem count_link (table : List (α × List α)) (u v x y : α) :
    (listed (link table u v) x).count y =
      (listed table x).count y + if x == u && y == v then 1 else 0 := by
  rw [listed_link, count_append]
  by_cases hx : u = x
  · subst hx
    by_cases hy : y = v
    · subst hy
      simp
    · simp [hy, Ne.symm hy]
  · simp [hx, Ne.symm hx]

theorem mem_link (table : List (α × List α)) (u v x y : α) :
    y ∈ listed (link table u v) x ↔ y ∈ listed table x ∨ x = u ∧ y = v := by
  rw [listed_link, mem_append, eq_comm (a := x), ← beq_iff_eq (a := u)]
  cases u == x <;> simp

/-! ## Edges -/

section

variable {d e : Edge α}

theorem same_directed : Edge.same .directed d e ↔ e = d := by
  rw [Edge.same, Bool.or_eq_true, beq_iff_eq, eq_comm]
  exact or_iff_left Bool.false_ne_true

theorem same_undirected : Edge.same .undirected d e ↔ e = d ∨ e = d.flip := by
  rw [Edge.same, Bool.or_eq_true, beq_iff_eq, eq_comm]
  refine or_congr Iff.rfl (beq_iff_eq.trans ⟨?_, ?_⟩) <;> rintro rfl <;> rfl

theorem same_comm (o) (d e : Edge α) : Edge.same o d e = Edge.same o e d := by
  rw [Bool.eq_iff_iff]
  cases o with
  | directed => rw [same_directed, same_directed, eq_comm]
  | undirected =>
    rw [same_undirected, same_undirected, eq_comm]
    refine or_congr Iff.rfl ⟨?_, ?_⟩ <;> rintro rfl <;> rfl

theorem same_congr (h : Edge.same o d e) (f : Edge α) : Edge.same o e f = Edge.same o d f := by
  cases o with
  | directed => rw [same_directed.mp h]
  | undirected =>
    obtain rfl | rfl := same_undirected.mp h
    · rfl
    · rw [Bool.eq_iff_iff, same_undirected, same_undirected]
      exact or_comm

end

section

variable {o : Orientation} {x y : α}

theorem hasEdge_congr (h : Edge.same o ⟨u, v⟩ ⟨x, y⟩) (g : Graph α) :
    g.hasEdge o x y = g.hasEdge o u v := by
  rw [hasEdge, funext (same_congr h), hasEdge]

theorem hasEdge_addEdge (g : Graph α) :
    (g.addEdge o u v).hasEdge o x y ↔ g.hasEdge o x y ∨ Edge.same o ⟨u, v⟩ ⟨x, y⟩ := by
  rw [hasEdge, edges_addEdge]
  split
  · next hedge => exact (or_iff_left_of_imp fun h => (hasEdge_congr h g).trans hedge).symm
  · rw [any_append, any_cons, any_nil, Bool.or_false, Bool.or_eq_true, same_comm o ⟨u, v⟩]
    rfl

theorem any_not_same (g : Graph α) :
    (g.edges.filter fun e => !Edge.same o ⟨u, v⟩ e).any (Edge.same o ⟨x, y⟩) ↔
      g.hasEdge o x y ∧ ¬Edge.same o ⟨u, v⟩ ⟨x, y⟩ := by
  have hsame (e) (h : Edge.same o ⟨x, y⟩ e) : Edge.same o ⟨u, v⟩ e = Edge.same o ⟨u, v⟩ ⟨x, y⟩ := by
    rw [same_comm, same_congr h, same_comm]
  simp only [hasEdge, any_eq_true, mem_filter, Bool.not_eq_true', Bool.not_eq_true]
  constructor
  · rintro ⟨e, ⟨he, hne⟩, h⟩
    exact ⟨⟨e, he, h⟩, hsame e h ▸ hne⟩
  · rintro ⟨⟨e, he, h⟩, hne⟩
    exact ⟨e, ⟨he, (hsame e h).trans hne⟩, h⟩

end

/-! ## Directed graphs -/

/-- The two tables have the same keys and list every edge equally often, and every edge of the set
is listed. -/
structure Balanced (g : Graph α) : Prop where
  keys : g.ins.map fst = g.out.map fst
  counts (u v : α) : (g.sources v).count u = (g.neighbours u).count v
  covered (u v : α) : g.hasEdge .directed u v → v ∈ g.neighbours u

/-- The edges of the set are those that are listed. -/
def InStep (o : Orientation) (g : Graph α) : Prop :=
  ∀ u v, g.hasEdge o u v = true ↔ v ∈ g.neighbours u

theorem InStep.addVertex (h : InStep o g) (u) : InStep o (g.addVertex u) := by
  intro x y
  rw [hasEdge_addVertex, neighbours_addVertex]
  exact h x y

/-- The call removes an edge that is listed more than once. -/
def removesCopy (g : Graph α) : Call α → Bool
  | .removeEdge u v => 2 ≤ (g.neighbours u).count v
  | _ => false

/-- No call removes an edge that is listed more than once. -/
def careful : Graph α → List (Call α) → Bool
  | _, [] => true
  | g, c :: calls => !removesCopy g c && careful (g.called .directed c) calls

/-- The graph with one listing of an edge less, and without the edge in its set. -/
def unlisted (g : Graph α) (u v : α) : Graph α where
  out := put g.out u ((g.neighbours u).erase v)
  ins := put g.ins v ((g.sources v).erase u)
  edges := g.edges.filter fun e => !Edge.same .directed ⟨u, v⟩ e

theorem hasEdge_unlisted (g : Graph α) (u v x y) :
    (g.unlisted u v).hasEdge .directed x y ↔ g.hasEdge .directed x y ∧ ¬(x = u ∧ y = v) := by
  change (g.edges.filter fun e => !Edge.same .directed ⟨u, v⟩ e).any _ ↔ _
  rw [any_not_same, same_directed, Edge.mk.injEq]

theorem count_unlisted (table : List (α × List α)) (u v x y : α) :
    (listed (put table u ((listed table u).erase v)) x).count y =
      (listed table x).count y - if x == u && y == v then 1 else 0 := by
  rw [listed_put]
  by_cases hx : x = u
  · subst hx
    by_cases hy : y = v
    · subst hy
      simp
    · simp [hy]
  · simp [hx]

theorem removeEdge_of_not_mem (hv : v ∉ g.neighbours u) :
    ∃ e, g.removeEdge .directed u v = (.error e, g) := by
  unfold neighbours at hv
  unfold removeEdge
  cases hu : get? g.out u with
  | none => exact ⟨_, rfl⟩
  | some vs =>
    rw [hu] at hv
    have hcontains : vs.contains v = false :=
      Bool.eq_false_iff.mpr fun hc => hv (contains_iff_mem.mp hc)
    exact ⟨.noNeighbour, by simp only [hcontains, Bool.false_eq_true, if_false]⟩

namespace Balanced

variable (h : Balanced g)
include h

theorem mem_sources (hv : v ∈ g.neighbours u) : u ∈ g.sources v := by
  rw [← count_pos_iff, h.counts]
  exact count_pos_iff.mpr hv

/-- The removal of an edge that is listed goes through both tables, and then fails if the edge is
not in the set. -/
theorem removeEdge_of_mem (hv : v ∈ g.neighbours u) : g.removeEdge .directed u v =
      (if g.hasEdge .directed u v then .ok () else .error .noEdge, g.unlisted u v) := by
  have hout : get? g.out u = some (g.neighbours u) := get?_of_mem_listed hv
  have hu := h.mem_sources hv
  have hins : get? g.ins v = some (g.sources v) := get?_of_mem_listed hu
  have hcontains : (g.neighbours u).contains v := contains_iff_mem.mpr hv
  have hcontains' : (g.sources v).contains u := contains_iff_mem.mpr hu
  unfold removeEdge
  simp only [hout, hcontains, if_true, hins, hcontains']
  exact dropEdge_eq _ u v

theorem addVertex (u) : Balanced (g.addVertex u) := by
  have hins : has g.ins u = has g.out u := by
    rw [Bool.eq_iff_iff, has_iff_mem_keys, has_iff_mem_keys, h.keys]
  have hsources (x : α) : (g.addVertex u).sources x = g.sources x := by
    unfold Graph.addVertex
    cases hu : has g.out u with
    | true => rfl
    | false =>
      change listed (put g.ins u []) x = listed g.ins x
      rw [listed_put]
      split
      · next hx =>
        obtain rfl := eq_of_beq hx
        rw [hu, has, Option.isSome_eq_false_iff, Option.isNone_iff_eq_none] at hins
        rw [listed, hins]
        rfl
      · rfl
  constructor
  · unfold Graph.addVertex
    cases hu : has g.out u with
    | true => exact h.keys
    | false =>
      simp only [Bool.false_eq_true, if_false, keys_put, hins, hu, h.keys]
  · intro x y
    rw [hsources, neighbours_addVertex, h.counts]
  · intro x y
    rw [hasEdge_addVertex, neighbours_addVertex]
    exact h.covered x y

theorem addEdge (u v) : Balanced (g.addEdge .directed u v) := by
  have hadded : Balanced ((g.addVertex u).addVertex v) := (h.addVertex u).addVertex v
  have hvertex (x : α) (hx : x = u ∨ x = v) : x ∈ ((g.addVertex u).addVertex v).out.map fst := by
    change x ∈ ((g.addVertex u).addVertex v).vertices
    rw [mem_vertices_addVertex, mem_vertices_addVertex]
    obtain rfl | rfl := hx
    · exact .inr (.inl rfl)
    · exact .inl rfl
  constructor
  · change (link _ v u).map fst = (link _ u v).map fst
    have hout := has_iff_mem_keys.mpr (hvertex u (.inl rfl))
    have hins := has_iff_mem_keys.mpr (hadded.keys ▸ hvertex v (.inr rfl))
    rw [link, link, keys_put, keys_put, hout, hins]
    exact hadded.keys
  · intro x y
    change (listed (link _ v u) y).count x = (listed (link _ u v) x).count y
    rw [count_link, count_link]
    rw [Bool.and_comm]
    exact congrArg (· + _) (hadded.counts x y)
  · intro x y hxy
    rw [hasEdge_addEdge, same_directed, Edge.mk.injEq] at hxy
    change y ∈ listed (link _ u v) x
    rw [mem_link]
    refine hxy.imp_left fun hxy => hadded.covered x y ?_
    rwa [hasEdge_addVertex, hasEdge_addVertex]

theorem unlisted (hv : v ∈ g.neighbours u) : Balanced (g.unlisted u v) := by
  have hu := h.mem_sources hv
  constructor
  · change (put g.ins v _).map fst = (put g.out u _).map fst
    rw [keys_put_of_get? (get?_of_mem_listed hu), keys_put_of_get? (get?_of_mem_listed hv)]
    exact h.keys
  · intro x y
    have hcounts : (listed g.ins y).count x = (listed g.out x).count y := h.counts x y
    refine (count_unlisted g.ins v u y x).trans (Eq.trans ?_ (count_unlisted g.out u v x y).symm)
    rw [hcounts, Bool.and_comm]
  · intro x y hxy
    rw [hasEdge_unlisted] at hxy
    have hlisted := h.covered x y hxy.1
    rw [← count_pos_iff] at hlisted ⊢
    refine Nat.lt_of_lt_of_eq hlisted ?_
    refine Eq.trans ?_ (count_unlisted g.out u v x y).symm
    have hother : (x == u && y == v) = false := by simpa using hxy.2
    rw [hother]
    rfl

theorem called (c) : Balanced (g.called .directed c) := by
  cases c with
  | addVertex u | adjacent u => exact h.addVertex u
  | addEdge u v => exact h.addEdge u v
  | removeEdge u v =>
    change Balanced (g.removeEdge .directed u v).2
    by_cases hv : v ∈ g.neighbours u
    · rw [h.removeEdge_of_mem hv]
      exact h.unlisted hv
    · obtain ⟨e, he⟩ := removeEdge_of_not_mem hv
      rwa [he]

/-- A removal that fails has changed nothing only if the edge was not listed. -/
theorem unchanged_iff
    (herror : g.removeEdge .directed u v = (.error e, g')) : g' = g ↔ v ∉ g.neighbours u := by
  by_cases hv : v ∈ g.neighbours u
  · rw [h.removeEdge_of_mem hv, Prod.mk.injEq] at herror
    obtain ⟨-, rfl⟩ := herror
    refine iff_of_false (fun heq => ?_) (not_not_intro hv)
    have hcount : ((g.unlisted u v).neighbours u).count v = (g.neighbours u).count v - 1 := by
      have := count_unlisted g.out u v u v
      rwa [beq_self_eq_true, beq_self_eq_true] at this
    rw [heq] at hcount
    have hpos := count_pos_iff.mpr hv
    omega
  · obtain ⟨f, hf⟩ := removeEdge_of_not_mem hv
    rw [hf, Prod.mk.injEq] at herror
    exact iff_of_true herror.2.symm hv

/-- Of all calls, only the removal of an edge that is listed more than once brings the set and the
lists out of step. -/
theorem inStep_called_iff (hstep : InStep .directed g) (c) :
    InStep .directed (g.called .directed c) ↔ removesCopy g c = false := by
  cases c with
  | addVertex u | adjacent u => exact iff_of_true (hstep.addVertex u) rfl
  | addEdge u v =>
    refine iff_of_true (fun x y => ?_) rfl
    change (g.addEdge .directed u v).hasEdge .directed x y ↔ y ∈ listed (link _ u v) x
    rw [hasEdge_addEdge, same_directed, Edge.mk.injEq, mem_link]
    refine or_congr ((hstep x y).trans ?_) Iff.rfl
    rw [← neighbours_addVertex g u, ← neighbours_addVertex (g.addVertex u) v]
    exact Iff.rfl
  | removeEdge u v =>
    change InStep .directed (g.removeEdge .directed u v).2 ↔ decide _ = false
    rw [decide_eq_false_iff_not]
    by_cases hv : v ∈ g.neighbours u
    · rw [h.removeEdge_of_mem hv]
      have hcount (x y : α) : ((g.unlisted u v).neighbours x).count y =
          (g.neighbours x).count y - if x == u && y == v then 1 else 0 :=
        count_unlisted g.out u v x y
      constructor
      · intro hafter hcopies
        have hmem : v ∈ (g.unlisted u v).neighbours u := by
          rw [← count_pos_iff, hcount, beq_self_eq_true, beq_self_eq_true]
          exact Nat.sub_pos_of_lt hcopies
        exact ((hasEdge_unlisted g u v u v).mp ((hafter u v).mpr hmem)).2 ⟨rfl, rfl⟩
      · intro hcopies x y
        rw [hasEdge_unlisted, hstep x y, ← count_pos_iff (l := (g.unlisted u v).neighbours x),
          hcount, ← count_pos_iff]
        by_cases hxy : x = u ∧ y = v
        · obtain ⟨rfl, rfl⟩ := hxy
          refine iff_of_false (fun hpos => hpos.2 ⟨rfl, rfl⟩) ?_
          rw [beq_self_eq_true, beq_self_eq_true, Bool.and_self, if_pos rfl]
          omega
        · have hother : (x == u && y == v) = false := by simpa using hxy
          rw [hother]
          exact ⟨And.left, fun hpos => ⟨hpos, hxy⟩⟩
    · obtain ⟨e, he⟩ := removeEdge_of_not_mem hv
      rw [he, count_eq_zero.mpr hv]
      exact iff_of_true hstep (by decide)

end Balanced

omit [LawfulBEq α] in
theorem inStep_empty (o) : InStep o ({} : Graph α) :=
  fun _ _ => ⟨fun h => absurd h Bool.false_ne_true, fun h => absurd h not_mem_nil⟩

theorem balanced_after (es : List (α × α)) (calls : List (Call α)) :
    Balanced (after .directed es calls) :=
  after_induct
    ⟨rfl, fun _ _ => rfl, fun u v => ((inStep_empty .directed) u v).mp⟩
    (fun _ _ => trivial) (fun _ c _ h => h.called c) es calls fun _ _ => trivial

theorem inStep_ofEdges (es : List (α × α)) : InStep .directed (ofEdges .directed es) := by
  have hstart := after_induct
    (P := fun g : Graph α => Balanced g ∧ InStep .directed g)
    (Q := fun c => ∀ g, removesCopy g c = false)
    ⟨balanced_after [] [], inStep_empty _⟩ (fun _ _ _ => rfl)
    (fun g c hc h => ⟨h.1.called c, (h.1.inStep_called_iff h.2 c).mpr (hc g)⟩) es []
    fun _ h => absurd h not_mem_nil
  exact hstart.2

theorem inStep_of_careful (h : Balanced g) (hstep : InStep .directed g)
    (hcalls : careful g calls) : InStep .directed (calls.foldl (called .directed) g) := by
  induction calls generalizing g with
  | nil => exact hstep
  | cons c calls ih =>
    rw [careful, Bool.and_eq_true, Bool.not_eq_true'] at hcalls
    exact ih (h.called c) ((h.inStep_called_iff hstep c).mpr hcalls.1) hcalls.2

/-- After any calls the two tables of a directed graph have the same keys and list every edge
equally often, every edge of the set is listed, and a removal that fails leaves the graph as it was
exactly if the edge is not listed. As long as no edge is removed that is listed more than once, the
edges of the set are those that are listed, and a removal that fails changes nothing; such a removal
always brings set and lists out of step. -/
theorem after_directed (es : List (α × α)) (calls : List (Call α)) :
    let g := after .directed es calls
    g.ins.map fst = g.out.map fst ∧
      (∀ u v, (g.sources v).count u = (g.neighbours u).count v) ∧
      (∀ u v, g.hasEdge .directed u v = true → v ∈ g.neighbours u) ∧
      (∀ u v e g', g.removeEdge .directed u v = (.error e, g') →
        (g' = g ↔ v ∉ g.neighbours u)) ∧
      (InStep .directed g → ∀ c,
        InStep .directed (g.called .directed c) ↔ removesCopy g c = false) ∧
      (careful (ofEdges .directed es) calls = true →
        (∀ u v, g.hasEdge .directed u v = true ↔ v ∈ g.neighbours u) ∧
          ∀ u v e g', g.removeEdge .directed u v = (.error e, g') → g' = g) := by
  intro g
  have hg : Balanced g := balanced_after es calls
  refine ⟨hg.keys, hg.counts, hg.covered, fun _ _ _ _ => hg.unchanged_iff, hg.inStep_called_iff,
    fun hcareful => ?_⟩
  have hstep : InStep .directed g :=
    inStep_of_careful (balanced_after es []) (inStep_ofEdges es) hcareful
  refine ⟨hstep, fun u v e g' herror => (hg.unchanged_iff herror).mpr fun hv => ?_⟩
  rw [hg.removeEdge_of_mem hv, (hstep u v).mpr hv] at herror
  cases herror

/-- Edges that are listed twice and once, of which the latter is removed, and once more in vain. -/
theorem after_directed_inStep :
    careful (ofEdges .directed [(1, 2), (1, 2), (2, 3)])
        [.removeEdge 2 3, .adjacent 4, .removeEdge 2 3] = true ∧
      InStep .directed (after .directed [(1, 2), (1, 2), (2, 3)]
        [.removeEdge 2 3, .adjacent 4, .removeEdge 2 3]) := by
  have hcareful : careful (ofEdges .directed [(1, 2), (1, 2), (2, 3)])
    [.removeEdge 2 3, .adjacent 4, .removeEdge 2 3] = true := by decide
  exact ⟨hcareful, ((after_directed _ _).2.2.2.2.2 hcareful).1⟩

/-- The removal of an edge that is listed twice leaves it listed and takes it out of the set, so
that the next removal fails, but only after it has changed the lists. -/
theorem removed_copy_out_of_step :
    let g := after .directed [(1, 2), (1, 2)] [.removeEdge 1 2]
    g.neighbours 1 = [2] ∧ g.hasEdge .directed 1 2 = false ∧
      (g.removeEdge .directed 1 2).1 = .error .noEdge ∧
      (g.removeEdge .directed 1 2).2.neighbours 1 = [] :=
  ⟨rfl, rfl, rfl, rfl⟩

/-! ## Undirected graphs -/

/-- Every edge of the set is listed. The set does not tell the directions apart, so that it is
listed at both ends. -/
def Covered (g : Graph α) : Prop :=
  ∀ u v, g.hasEdge .undirected u v = true → v ∈ g.neighbours u

theorem hasEdge_undirected_comm (g : Graph α) (u v) :
    g.hasEdge .undirected u v = g.hasEdge .undirected v u :=
  hasEdge_congr (same_undirected.mpr (.inr rfl)) g

theorem mem_neighbours_addEdge_undirected (g : Graph α) (u v x y) :
    y ∈ (g.addEdge .undirected u v).neighbours x ↔
      y ∈ g.neighbours x ∨ Edge.same .undirected ⟨u, v⟩ ⟨x, y⟩ := by
  change y ∈ listed (link (link ((g.addVertex u).addVertex v).out u v) v u) x ↔ _
  rw [mem_link, mem_link, or_assoc, same_undirected, Edge.flip, Edge.mk.injEq, Edge.mk.injEq]
  refine or_congr ?_ Iff.rfl
  rw [← neighbours_addVertex g u, ← neighbours_addVertex (g.addVertex u) v]
  exact Iff.rfl

/-- A removal takes the target from the neighbours of the source, and leaves the source among those
of the target. -/
theorem mem_neighbours_removeEdge_undirected (g : Graph α) (u v x y) :
    y ∈ (g.removeEdge .undirected u v).2.neighbours x ↔
      y ∈ g.neighbours x ∧ ¬(x = u ∧ y = v) := by
  cases hu : get? g.out u with
  | none =>
    rw [removeEdge_undirected_none hu]
    refine ⟨fun hy => ⟨hy, ?_⟩, And.left⟩
    rintro ⟨rfl, rfl⟩
    rw [neighbours, hu] at hy
    cases hy
  | some vs =>
    rw [removeEdge_undirected hu]
    change y ∈ listed (put g.out u _) x ↔ _
    rw [listed_put]
    by_cases hx : x = u
    · subst hx
      rw [beq_self_eq_true, if_pos rfl, mem_filter, bne_iff_ne, neighbours, hu]
      simp
    · rw [beq_false_of_ne hx]
      exact ⟨fun hy => ⟨hy, fun h => hx h.1⟩, And.left⟩

namespace Covered

variable (h : Covered g)
include h

omit [LawfulBEq α] in
theorem hasEdge_of_none (hu : get? g.out u = none) (v) :
    g.hasEdge .undirected u v = false := by
  refine Bool.eq_false_iff.mpr fun hedge => ?_
  have hv := h u v hedge
  rw [neighbours, hu] at hv
  cases hv

theorem hasEdge_removeEdge (u v x y) :
    (g.removeEdge .undirected u v).2.hasEdge .undirected x y ↔
      g.hasEdge .undirected x y ∧ ¬Edge.same .undirected ⟨u, v⟩ ⟨x, y⟩ := by
  cases hu : get? g.out u with
  | none =>
    rw [removeEdge_undirected_none hu]
    refine ⟨fun hxy => ⟨hxy, fun hsame => ?_⟩, And.left⟩
    rw [hasEdge_congr hsame, h.hasEdge_of_none hu] at hxy
    cases hxy
  | some vs =>
    rw [removeEdge_undirected hu]
    exact any_not_same g

omit [LawfulBEq α] in
theorem removeEdge_ok_iff (u v) :
    (g.removeEdge .undirected u v).1 = .ok () ↔ g.hasEdge .undirected u v := by
  cases hu : get? g.out u with
  | none =>
    rw [removeEdge_undirected_none hu, h.hasEdge_of_none hu]
    exact iff_of_false (fun hok => by cases hok) Bool.false_ne_true
  | some vs =>
    rw [removeEdge_undirected hu]
    cases g.hasEdge .undirected u v with
    | true => exact iff_of_true rfl rfl
    | false => exact iff_of_false (fun hok => by cases hok) Bool.false_ne_true

theorem called (c) : Covered (g.called .undirected c) := by
  cases c with
  | addVertex u | adjacent u =>
    intro x y hxy
    refine neighbours_addVertex g u x ▸ h x y ?_
    rwa [← hasEdge_addVertex _ g u]
  | addEdge u v =>
    intro x y hxy
    rw [Graph.called, hasEdge_addEdge] at hxy
    rw [Graph.called, mem_neighbours_addEdge_undirected]
    exact hxy.imp_left (h x y)
  | removeEdge u v =>
    intro x y hxy
    rw [Graph.called, h.hasEdge_removeEdge] at hxy
    rw [Graph.called, mem_neighbours_removeEdge_undirected]
    refine ⟨h x y hxy.1, ?_⟩
    rintro ⟨rfl, rfl⟩
    exact hxy.2 (same_undirected.mpr (.inl rfl))

/-- Calls that remove nothing but loops keep an undirected graph in step. -/
theorem inStep_called (hstep : InStep .undirected g)
    (hc : ∀ u v, c = .removeEdge u v → u = v) : InStep .undirected (g.called .undirected c) := by
  cases c with
  | addVertex u | adjacent u => exact hstep.addVertex u
  | addEdge u v =>
    intro x y
    rw [Graph.called, hasEdge_addEdge, mem_neighbours_addEdge_undirected, hstep x y]
  | removeEdge u v =>
    obtain rfl := hc u v rfl
    intro x y
    rw [Graph.called, h.hasEdge_removeEdge, mem_neighbours_removeEdge_undirected, hstep x y,
      same_undirected, Edge.flip, or_self, Edge.mk.injEq]

end Covered

omit [LawfulBEq α] in
theorem covered_empty : Covered ({} : Graph α) := fun u v => ((inStep_empty .undirected) u v).mp

theorem covered_after (es : List (α × α)) (calls : List (Call α)) :
    Covered (after .undirected es calls) :=
  after_induct covered_empty (fun _ _ => trivial)
    (fun _ c _ h => h.called c) es calls fun _ _ => trivial

/-- After any calls the vertices of every edge in the set of an undirected graph are neighbours of
each other. They are so of no other edges if nothing but loops is removed; but every removal of an
edge between different vertices leaves the source a neighbour of the target, and the target none of
the source. -/
theorem after_undirected (es : List (α × α)) (calls : List (Call α)) :
    let g := after .undirected es calls
    (∀ u v, g.hasEdge .undirected u v = true → v ∈ g.neighbours u ∧ u ∈ g.neighbours v) ∧
      ((∀ u v, Call.removeEdge u v ∈ calls → u = v) → ∀ u v,
        (v ∈ g.neighbours u ↔ u ∈ g.neighbours v) ∧
          (u ∈ g.neighbours v ↔ g.hasEdge .undirected u v = true)) ∧
      ∀ u v g', g.removeEdge .undirected u v = (.ok (), g') → u ≠ v →
        v ∉ g'.neighbours u ∧ u ∈ g'.neighbours v ∧ g'.hasEdge .undirected u v = false := by
  intro g
  have hg : Covered g := covered_after es calls
  have hends (u v : α) (hedge : g.hasEdge .undirected u v = true) : u ∈ g.neighbours v :=
    hg v u ((hasEdge_undirected_comm g v u).trans hedge)
  refine ⟨fun u v hedge => ⟨hg u v hedge, hends u v hedge⟩, fun hloops u v => ?_,
    fun u v g' hok hne => ?_⟩
  · have hrun : Covered g ∧ InStep .undirected g :=
      after_induct (P := fun g => Covered g ∧ InStep .undirected g)
        (Q := fun c => ∀ u v, c = Call.removeEdge u v → u = v)
        ⟨covered_empty, inStep_empty _⟩ (fun _ _ _ _ heq => by cases heq)
        (fun g c hc h => ⟨h.1.called c, h.1.inStep_called h.2 hc⟩) es calls
        fun c hc u v heq => hloops u v (heq ▸ hc)
    have hstep := hrun.2
    refine ⟨?_, ?_⟩
    · rw [← hstep u v, ← hstep v u, hasEdge_undirected_comm]
    · rw [← hstep v u, hasEdge_undirected_comm]
  · have hedge : g.hasEdge .undirected u v = true := (hg.removeEdge_ok_iff u v).mp (by rw [hok])
    obtain rfl : (g.removeEdge .undirected u v).2 = g' := by rw [hok]
    refine ⟨fun hv => ?_, ?_, ?_⟩
    · exact ((mem_neighbours_removeEdge_undirected g u v u v).mp hv).2 ⟨rfl, rfl⟩
    · exact (mem_neighbours_removeEdge_undirected g u v v u).mpr ⟨hends u v hedge, fun h => hne h.2⟩
    · rw [Bool.eq_false_iff]
      intro htrue
      exact ((hg.hasEdge_removeEdge u v u v).mp htrue).2 (same_undirected.mpr (.inl rfl))

/-- A loop is removed, and everything else stays in step. -/
theorem after_undirected_loop :
    let g := after .undirected [(1, 2), (2, 2), (2, 1)] [.removeEdge 2 2, .addEdge 3 1]
    ∀ u v, u ∈ g.neighbours v ↔ g.hasEdge .undirected u v = true := by
  have hloops : ∀ u v : Nat, Call.removeEdge u v ∈ [Call.removeEdge 2 2, .addEdge 3 1] → u = v := by
    intro u v h
    simp only [List.mem_cons, Call.removeEdge.injEq, List.not_mem_nil, or_false, reduceCtorEq] at h
    rw [h.1, h.2]
  exact fun u v => ((after_undirected _ _).2.1 hloops u v).2

/-- An edge between two vertices is removed at one end only. -/
theorem removed_edge_one_sided :
    let g := after .undirected [(1, 2)] [.removeEdge 1 2]
    2 ∉ g.neighbours 1 ∧ 1 ∈ g.neighbours 2 ∧ g.hasEdge .undirected 2 1 = false := by
  decide

end CompilerKit.Graph
