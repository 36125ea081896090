import CompilerKit.Proofs.Queue.Sift

/-!
# Sorting with a heap

Sifting an item down mends one node of the heap and touches nothing outside of its subtree. Nodes
are mended from the last parent to the root, which makes any array a heap; then the greatest item is
moved behind the heap, again and again. An object may occur in the array more than once: the place
that is reported last for it is then one of those where it is.

* `siftDown_mends`: what sifting does to a subtree, by induction along the path of the item.
* `siftAll_ordered`, `unload_sorts`: the two loops of the sort, each with its invariant.
-/

namespace CompilerKit.MaxHeap

open List

variable {α : Type} {lt : α → α → Prop} {less : Less α} {h g g' : MaxHeap α} {i j k : Nat}

/-! ## Subtrees -/

/-- The place is in the subtree of `i`. -/
inductive InSubtree (i : Nat) : Nat → Prop where
  | root : InSubtree i i
  | child {k : Nat} (hpos : 0 < k) (h : InSubtree i (parent k)) : InSubtree i k

theorem InSubtree.le (h : InSubtree i k) : i ≤ k := by
  induction h with
  | root => exact Nat.le_refl i
  | child hpos _ ih => exact Nat.le_trans ih (Nat.le_of_lt (parent_lt hpos))

theorem InSubtree.of_child (hpos : 0 < j) (h : InSubtree j k) : InSubtree (parent j) k := by
  induction h with
  | root => exact .child hpos .root
  | child hk _ ih => exact .child hk ih

/-- No item directly below the node is greater than its own. -/
def OrderedAt (lt : α → α → Prop) (h : MaxHeap α) (j : Nat) : Prop :=
  ∀ k, 0 < k → parent k = j → k < h.size → ¬LessAt lt h j k

theorem Sunk.size_eq (hsunk : Sunk i g g') : g'.size = g.size := by
  induction hsunk with
  | stay => rfl
  | down _ _ _ _ ih => rw [ih, size_exchange]

theorem Sunk.elsewhere (hsunk : Sunk i g g') (hroom : g.size ≤ g.data.size)
    (hk : ¬(InSubtree i k ∧ k < g.size)) : g'.data[k]? = g.data[k]? := by
  induction hsunk with
  | stay => rfl
  | @down _ m g g' hpos hm hmp _ ih =>
    subst hmp
    have hlt := parent_lt hpos
    have hne (p) (hp : InSubtree (parent m) p) (hps : p < g.size) : k ≠ p := by
      rintro rfl
      exact hk ⟨hp, hps⟩
    rw [ih (by simpa using hroom), getElem?_exchange (by omega) (by omega),
      Equiv.swap_apply_of_ne_of_ne (hne _ .root (Nat.lt_trans hlt hm))
        (hne m (.child hpos .root) hm)]
    rintro ⟨hkm, hks⟩
    exact hk ⟨hkm.of_child hpos, by simpa using hks⟩

/-! ## Rearrangements -/

section Places

variable [BEq α]

/-- The place that was reported last for an object is one where it is. -/
def Placed (h : MaxHeap α) : Prop :=
  ∀ a ∈ h.data, ∃ i, h.reports.reverse.lookup a = some i ∧ h.data[i]? = some a

/-- The items of the array have been moved around, with reports of all moves. -/
structure Rearranged (h h' : MaxHeap α) : Prop where
  perm : h'.data.toList.Perm h.data.toList
  placed : Placed h → Placed h'

namespace Rearranged

theorem refl (h : MaxHeap α) : Rearranged h h := ⟨.refl _, fun hplaced => hplaced⟩

theorem trans {h1 h2 h3 : MaxHeap α} (h12 : Rearranged h1 h2) (h23 : Rearranged h2 h3) :
    Rearranged h1 h3 :=
  ⟨h23.perm.trans h12.perm, fun hplaced => h23.placed (h12.placed hplaced)⟩

theorem size_eq (hmoved : Rearranged g g') : g'.data.size = g.data.size := by
  simpa using hmoved.perm.length_eq

end Rearranged

variable [LawfulBEq α]

theorem placed_start (data : Array α) (size) :
    Placed { data, size, reports := data.toList.zipIdx } := by
  intro a ha
  obtain ⟨i, hi⟩ := mem_iff_getElem?.mp (Array.mem_toList_iff.mpr ha)
  cases hl : data.toList.zipIdx.reverse.lookup a with
  | none =>
    have hmem := mem_reverse.mpr (mk_mem_zipIdx_iff_getElem?.mpr hi)
    simpa using lookup_eq_none_iff.mp hl (a, i) hmem
  | some j =>
    obtain ⟨front, back, hsplit, -⟩ := lookup_eq_some_iff.mp hl
    have hmem : (a, j) ∈ data.toList.zipIdx := by
      rw [← mem_reverse, hsplit]
      simp
    exact ⟨j, rfl, by simpa using mk_mem_zipIdx_iff_getElem?.mp hmem⟩

theorem rearranged_exchange (hi : i < h.data.size) (hj : j < h.data.size) :
    Rearranged h (h.exchange i j) := by
  have hperm : (h.exchange i j).data.toList.Perm h.data.toList := by
    rw [data_exchange, Array.swapIfInBounds_def, dif_pos hi, dif_pos hj]
    exact (Array.swap_perm hi hj).toList
  refine ⟨hperm, fun hplaced c hc => ?_⟩
  have ha := Array.getElem?_eq_getElem hi
  have hb := Array.getElem?_eq_getElem hj
  have hget := getElem?_exchange hi hj
  rw [reports_exchange hi hj ha hb, reverse_append]
  simp only [reverse_cons, reverse_nil, nil_append, cons_append, lookup_cons]
  -- the second report counts, then the first one, then those from before
  by_cases hca : c = h.data[i]
  · subst hca
    exact ⟨j, by simp, by rw [hget, Equiv.swap_apply_right, ha]⟩
  · by_cases hcb : c = h.data[j]
    · subst hcb
      exact ⟨i, by simp [beq_false_of_ne hca], by rw [hget, Equiv.swap_apply_left, hb]⟩
    · obtain ⟨k, hk, hck⟩ :=
        hplaced c (by simpa using hperm.mem_iff.mp (Array.mem_toList_iff.mpr hc))
      refine ⟨k, by simp [beq_false_of_ne hca, beq_false_of_ne hcb, hk], ?_⟩
      rw [hget, Equiv.swap_apply_of_ne_of_ne, hck]
      · rintro rfl
        exact hca (Option.some.inj (hck.symm.trans ha))
      · rintro rfl
        exact hcb (Option.some.inj (hck.symm.trans hb))

theorem Sunk.rearranged (hsunk : Sunk i g g') (hroom : g.size ≤ g.data.size) : Rearranged g g' := by
  induction hsunk with
  | stay => exact .refl _
  | down hpos hm hmp _ ih =>
    have hlt := hmp ▸ parent_lt hpos
    exact (rearranged_exchange (by omega) (by omega)).trans (ih (by simpa using hroom))

end Places

/-! ## Moving the root behind the heap -/

/-- The heap is in order, and nothing behind it is less than what stands before. -/
structure Unloading (lt : α → α → Prop) (h : MaxHeap α) : Prop where
  room : h.size ≤ h.data.size
  ordered : Ordered lt (fun _ => True) h
  tail : ∀ j k, j < k → h.size ≤ k → ¬LessAt lt h k j

/-- The heap with its root moved behind it. -/
def unloaded (h : MaxHeap α) (i : Nat) : MaxHeap α := { h.exchange 0 i with size := i }

section Unloaded

variable (hroom : h.size ≤ h.data.size) (hsize : h.size = i + 1)

include hroom hsize

theorem getElem?_unloaded (k) : (h.unloaded i).data[k]? = h.data[Equiv.swap 0 i k]? :=
  getElem?_exchange (by omega) (by omega) k

theorem room_unloaded : (h.unloaded i).size ≤ (h.unloaded i).data.size := by
  simp only [unloaded, data_exchange, Array.size_swapIfInBounds]
  omega

/-- The last item, which takes the place of the root, may be too small. -/
theorem sinks_unloaded (hord : Ordered lt (fun _ => True) h) :
    Sinks lt (fun _ => True) (h.unloaded i) 0 := by
  refine ⟨fun j hj _ (hji : j < i) hne => ?_, fun hpos => absurd hpos (Nat.lt_irrefl 0)⟩
  have hup := parent_lt hj
  have hsame (k : Nat) (hk : k ≠ 0) (hki : k < i) : (h.unloaded i).data[k]? = h.data[k]? := by
    rw [getElem?_unloaded hroom hsize, Equiv.swap_apply_of_ne_of_ne hk (by omega)]
  rw [LessAt.congr (hsame _ hne (by omega)) (hsame j (by omega) hji)]
  exact hord j hj trivial (by omega)

/-- An item comes from inside the heap, or has stayed behind it. -/
theorem exists_place (hsunk : Sunk 0 (h.unloaded i) g) (hb : g.data[j]? = some b) :
    ∃ p, h.data[p]? = some b ∧ (p < h.size ∨ p = j) := by
  classical
  have hroom' := room_unloaded hroom hsize
  obtain ⟨p, hpb, hp⟩ : ∃ p, (h.unloaded i).data[p]? = some b ∧ (p < h.size ∨ p = j) := by
    by_cases hj : j < i
    · have hmoved : Moved (fun a => a) _ g := hsunk.moved hroom'
      obtain ⟨p, hp, hpb⟩ := exists_of_mem_items
        (hmoved.items.mem_iff.mp (mem_items (hsunk.size_eq ▸ hj) hb))
      exact ⟨p, hpb, .inl (hsize ▸ Nat.lt_succ_of_lt hp)⟩
    · exact ⟨j, (hsunk.elsewhere hroom' fun h => hj h.2) ▸ hb, .inr rfl⟩
  rw [getElem?_unloaded hroom hsize] at hpb
  refine ⟨_, hpb, ?_⟩
  rw [Equiv.swap_apply_def]
  split
  · omega
  · split <;> omega

end Unloaded

/-! ## Sifting down -/

theorem isStrictWeakOrder_key (f : Nat → Nat) : IsStrictWeakOrder Nat fun a b => f a < f b where
  irrefl a := Nat.lt_irrefl (f a)
  trans _ _ _ := Nat.lt_trans
  incomp_trans a b c := by omega

variable [DecidableRel lt] [IsStrictWeakOrder α lt]

/-- Sifting down mends a node: if the order holds at all nodes strictly below, the items are
permuted inside the subtree, and then the order holds in all of it. If no item of the subtree was
greater than the one above, none is afterwards. -/
theorem siftDown_mends (hdec : Decides less lt h) (hroom : h.size ≤ h.data.size)
    (hbelow : ∀ j, InSubtree i j → j ≠ i → OrderedAt lt h j) :
    ∃ h', h.siftDown less i = (.ok (), h') ∧ h'.size = h.size ∧
      h'.data.toList.Perm h.data.toList ∧
      (∀ k, ¬(InSubtree i k ∧ k < h.size) → h'.data[k]? = h.data[k]?) ∧
      (∀ j, InSubtree i j → OrderedAt lt h' j) ∧
      ((∀ j, InSubtree i j → j < h.size → ¬LessAt lt h (parent i) j) →
        0 < i → i < h.size → ¬LessAt lt h' (parent i) i) := by
  classical
  have hstrict : Sinks lt (fun j => 0 < j ∧ InSubtree i (parent j)) h i :=
    ⟨fun j hj hjK hjs hne => hbelow _ hjK.2 hne j hj rfl hjs,
      fun hi hiK => absurd (parent_lt hi) (Nat.not_lt.mpr hiK.2.le)⟩
  obtain ⟨h', hsift, hsunk, hord⟩ :=
    siftDown_ordered hdec hroom (fun j hj hK => ⟨hj, .child hK.1 hK.2⟩) hstrict
  refine ⟨h', hsift, hsunk.size_eq, (hsunk.rearranged hroom).perm,
    fun k hk => hsunk.elsewhere hroom hk, ?_, ?_⟩
  · rintro _ hj k hk rfl hks
    exact hord k hk ⟨hk, hj⟩ hks
  · intro hparent hi his
    -- the same run, with the node itself among the places where the order is kept
    have hwhole : Sinks lt (InSubtree i) h i := by
      refine ⟨fun j hj hjK hjs hne => ?_, fun _ _ j hj hjs hji => ?_⟩
      · cases hjK with
        | root => exact hparent _ .root hjs
        | child _ hjK => exact hbelow _ hjK hne j hj rfl hjs
      · exact hparent j (.child hj (hji ▸ .root)) hjs
    obtain ⟨h'', hsift', -, hord'⟩ :=
      siftDown_ordered hdec hroom (fun _ hj hK => .child hj hK) hwhole
    obtain rfl : h' = h'' := congrArg Prod.snd (hsift.symm.trans hsift')
    exact hord' i hi .root (hsunk.size_eq ▸ his)

/-- The item at `1` sinks past two rows. -/
theorem siftDown_mends_rows :
    let h : MaxHeap Nat := { data := #[9, 1, 8, 6, 5, 7, 2, 4, 3, 99], size := 9 }
    (∀ j, InSubtree 1 j → j ≠ 1 → OrderedAt (· < ·) h j) ∧
      (∀ j, InSubtree 1 j → j < h.size → ¬LessAt (· < ·) h (parent 1) j) ∧
      ∃ h', h.siftDown (fun a b => .ok (decide (a < b))) 1 = (.ok (), h') ∧
        ∀ j, InSubtree 1 j → OrderedAt (· < ·) h' j := by
  intro h
  have hlow (p k : Nat) (hk : k < 9) (hp : 1 < p ∧ parent k = p ∨ p = 0) :
      ¬LessAt (· < ·) h p k := by
    rintro ⟨a, b, ha, hb, hlt⟩
    have hall : ∀ k < 9, ∀ p < 5, 1 < p ∧ parent k = p ∨ p = 0 →
        h.data[k]?.getD 0 ≤ h.data[p]?.getD 0 := by decide
    have hle := hall k hk p (by unfold parent at hp; omega) hp
    rw [ha, hb] at hle
    exact Nat.not_lt.mpr hle hlt
  have hbelow : ∀ j, InSubtree 1 j → j ≠ 1 → OrderedAt (· < ·) h j := fun j hj hne k _ hkj hk =>
    hlow j k hk (.inl ⟨Nat.lt_of_le_of_ne hj.le hne.symm, hkj⟩)
  have : IsStrictWeakOrder Nat (· < ·) := isStrictWeakOrder_key id
  obtain ⟨h', hsift, -, -, -, hord, -⟩ :=
    siftDown_mends (fun _ _ _ _ => rfl) (show h.size ≤ h.data.size by decide) hbelow
  exact ⟨hbelow, fun j _ hj => hlow 0 j hj (.inr rfl), h', hsift, hord⟩

/-! ## Sorting -/

section Sorting

variable [BEq α] [LawfulBEq α] (hless : ∀ a b, less a b = .ok (decide (lt a b)))

include hless

/-- The order holds below the places from `n` on, and is restored below those before, too. -/
theorem siftAll_ordered (n : Nat) (hroom : h.size ≤ h.data.size)
    (hord : Ordered lt (fun j => n ≤ parent j) h) :
    ∃ h', h.siftAll less n = (.ok (), h') ∧ h'.size = h.size ∧ Rearranged h h' ∧
      Ordered lt (fun _ => True) h' := by
  induction n generalizing h with
  | zero => exact ⟨h, rfl, rfl, .refl h, fun j hj _ => hord j hj (Nat.zero_le _)⟩
  | succ n ih =>
    have hsink : Sinks lt (fun j => n ≤ parent j) h n :=
      ⟨fun j hj hjK hjs hne => hord j hj (by omega) hjs,
        fun hn hnK => absurd (parent_lt hn) (by omega)⟩
    have hup (j) (hj : 0 < j) (hK : n ≤ parent (parent j)) : n ≤ parent j := by
      unfold parent at hK ⊢
      omega
    obtain ⟨g, hsift, hsunk, hg⟩ := siftDown_ordered (fun a _ b _ => hless a b) hroom hup hsink
    have hmoved := hsunk.rearranged hroom
    obtain ⟨h', hall, hsize, hmoved', hord'⟩ :=
      ih (by rw [hsunk.size_eq, hmoved.size_eq]; exact hroom) hg
    refine ⟨h', ?_, hsize.trans hsunk.size_eq, hmoved.trans hmoved', hord'⟩
    rwa [siftAll, hsift]

theorem build_ordered (h : MaxHeap α) :
    ∃ h', h.build less = (.ok (), h') ∧ h'.size = h'.data.size ∧ Rearranged h h' ∧
      Ordered lt (fun _ => True) h' := by
  have hleaves : Ordered lt (fun j => h.data.size / 2 + 1 ≤ parent j)
      { h with size := h.data.size } := by
    intro j hj hjK (hjs : j < h.data.size)
    unfold parent at hjK
    omega
  obtain ⟨h', hall, hsize, hmoved, hord⟩ := siftAll_ordered hless _ (Nat.le_refl _) hleaves
  exact ⟨h', hall, hsize.trans hmoved.size_eq.symm, ⟨hmoved.perm, hmoved.placed⟩, hord⟩

/-- One round: the root goes behind the heap, and the item in its place sinks. -/
theorem siftDown_unloaded (hh : Unloading lt h) (hsize : h.size = i + 1) :
    ∃ g, (h.unloaded i).siftDown less 0 = (.ok (), g) ∧ g.size = i ∧ Rearranged h g ∧
      Unloading lt g := by
  have hroom := hh.room
  have hroom' := room_unloaded hroom hsize
  obtain ⟨g, hsift, hsunk, hord⟩ := siftDown_ordered (fun a _ b _ => hless a b) hroom'
    (fun _ _ _ => trivial) (sinks_unloaded hroom hsize hh.ordered)
  have hg : g.size = i := hsunk.size_eq
  have hexchange : Rearranged h (h.exchange 0 i) := rearranged_exchange (by omega) (by omega)
  have hfirst : Rearranged h (h.unloaded i) := ⟨hexchange.perm, hexchange.placed⟩
  have hmoved := hfirst.trans (hsunk.rearranged hroom')
  refine ⟨g, hsift, hg, hmoved, by rw [hmoved.size_eq]; omega, hord, ?_⟩
  rintro j k hjk hk ⟨c, b, hc, hb, hlt⟩
  rw [hg] at hk
  obtain ⟨p, hpb, hp⟩ := exists_place hroom hsize hsunk hb
  rw [hsunk.elsewhere hroom' fun h => Nat.not_lt.mpr hk h.2, getElem?_unloaded hroom hsize] at hc
  by_cases hki : k = i
  · rw [hki, Equiv.swap_apply_right] at hc
    exact hh.ordered.root hroom (by omega) ⟨c, b, hc, hpb, hlt⟩
  · rw [Equiv.swap_apply_of_ne_of_ne (by omega) hki] at hc
    exact hh.tail p k (by omega) (by omega) ⟨c, b, hc, hpb, hlt⟩

theorem unload_sorts (hi : h.size - 1 = i) (hh : Unloading lt h) :
    ∃ h', h.unload less i = (.ok (), h') ∧ Rearranged h h' ∧ ∀ j k, j < k → ¬LessAt lt h' k j := by
  induction i generalizing h with
  | zero => exact ⟨h, rfl, .refl h, fun j k hjk => hh.tail j k hjk (by omega)⟩
  | succ i ih =>
    have hroom := hh.room
    obtain ⟨g, hsift, hsize, hmoved, hg⟩ := siftDown_unloaded hless hh (i := i + 1) (by omega)
    obtain ⟨h', hunload, hmoved', hsorted⟩ := ih (by omega) hg
    refine ⟨h', ?_, hmoved.trans hmoved', hsorted⟩
    have hshrunk : (h.exchange 0 (i + 1)).size - 1 = i + 1 := by rw [size_exchange, hi]
    rw [unload, item_eq (Array.getElem?_eq_getElem (by omega)),
      item_eq (Array.getElem?_eq_getElem (by omega))]
    dsimp only
    rw [hshrunk]
    unfold unloaded at hsift
    rwa [hsift]

/-- Sorting leaves the objects in order, without an access outside of the array; the place that was
reported last for an object is where it is. -/
theorem sort_sorts (data : Array α) :
    ∃ h h', ofArray less data = (.ok (), h) ∧ h.sort less = (.ok (), h') ∧
      h'.data.toList.Perm data.toList ∧ h'.data.toList.Pairwise (fun a b => ¬lt b a) ∧
      ∀ a ∈ data, ∃ i, h'.reports.reverse.lookup a = some i ∧ h'.data[i]? = some a := by
  obtain ⟨h, hbuild, -, hmoved, -⟩ := build_ordered hless { data, reports := data.toList.zipIdx }
  obtain ⟨g, hagain, hsize, hmoved', hord⟩ := build_ordered hless h
  have hg : Unloading lt g := by
    refine ⟨Nat.le_of_eq hsize, hord, ?_⟩
    rintro j k - hk ⟨c, b, hc, -⟩
    rw [Array.getElem?_eq_none (hsize ▸ hk)] at hc
    cases hc
  obtain ⟨h', hunload, hmoved'', hsorted⟩ := unload_sorts hless (congrArg (· - 1) hsize) hg
  have hall := (hmoved.trans hmoved').trans hmoved''
  refine ⟨h, h', hbuild, ?_, hall.perm, ?_, fun a ha => hall.placed (placed_start data 0) a ?_⟩
  · rwa [sort, hagain]
  · rw [pairwise_iff_getElem]
    intro j k hj hk hjk hlt
    exact hsorted j k hjk ⟨_, _, by simp, by simp, hlt⟩
  · simpa using hall.perm.mem_iff.mpr (by simpa using ha)

end Sorting

/-- Two of the objects are the same, and a third one is neither less than these nor greater. -/
theorem sort_sorts_ties :
    let less : Less Nat := fun a b => .ok (decide (a / 10 < b / 10))
    ∃ h h', ofArray less #[41, 30, 52, 33, 30] = (.ok (), h) ∧ h.sort less = (.ok (), h') ∧
      h'.data.toList.Perm [41, 30, 52, 33, 30] ∧
      h'.data.toList.Pairwise (fun a b => ¬b / 10 < a / 10) ∧
      ∀ a ∈ #[41, 30, 52, 33, 30], ∃ i, h'.reports.reverse.lookup a = some i ∧
        h'.data[i]? = some a :=
  have := isStrictWeakOrder_key (· / 10)
  sort_sorts (fun _ _ => rfl) _

end CompilerKit.MaxHeap
