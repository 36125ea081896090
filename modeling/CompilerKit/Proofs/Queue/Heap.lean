import CompilerKit.Proofs.Queue.Sift

/-!
# Adding items to a heap and taking them out

A new item comes in at the end of the heap and rises; when the root is taken out, the last item
takes its place and sinks. The array behind the heap may hold other things.
-/

namespace CompilerKit.MaxHeap

open List Bindings Array

variable {α ι : Type} {lt : α → α → Prop} {less : Less α} {h : MaxHeap α}

/-! ## Adding an item -/

section Insert

/-- The heap with one more item in its last place. -/
def appended (h : MaxHeap α) (a : α) : MaxHeap α :=
  ({ h with
      data := if h.data.size < h.size + 1 then h.data.push a else h.data.setIfInBounds h.size a
      size := h.size + 1 }).report h.size

@[simp] theorem size_appended (h : MaxHeap α) (a) : (h.appended a).size = h.size + 1 := by
  simp [appended]

variable (hroom : h.size ≤ h.data.size) (a : α)

include hroom

theorem room_appended : (h.appended a).size ≤ (h.appended a).data.size := by
  rw [size_appended]
  unfold appended
  rw [data_report]
  split
  · simpa using hroom
  · simp only [size_setIfInBounds]
    omega

theorem getElem?_appended (i) (hi : i < h.size + 1) :
    (h.appended a).data[i]? = if i = h.size then some a else h.data[i]? := by
  unfold appended
  rw [data_report]
  split
  · rw [getElem?_push]
    have hsize : h.data.size = h.size := by omega
    rw [hsize]
  · rw [getElem?_setIfInBounds]
    by_cases his : i = h.size
    · subst his
      have hlt : h.size < h.data.size := by omega
      simp [hlt]
    · rw [if_neg (Ne.symm his), if_neg his]

theorem items_appended : (h.appended a).items = h.items ++ [a] := by
  have hlen : h.items.length = h.size := by
    simp only [items, length_take, length_toList]
    omega
  have hlen' : (h.appended a).items.length = h.size + 1 := by
    have := room_appended hroom a
    simp only [items, length_take, length_toList, size_appended] at this ⊢
    omega
  refine ext_getElem? fun i => ?_
  by_cases hi : i < h.size + 1
  · rw [getElem?_items _ (by rwa [size_appended]), getElem?_appended hroom a i hi]
    by_cases his : i = h.size
    · rw [if_pos his, his, ← hlen, getElem?_concat_length]
    · rw [if_neg his, List.getElem?_append_left (by omega), getElem?_items h (by omega)]
  · rw [List.getElem?_eq_none (by omega), List.getElem?_eq_none]
    rw [length_append, length_singleton]
    omega

theorem placesFrom_appended [BEq ι] (id : α → ι) (start) :
    (h.appended a).placesFrom id start = Bindings.put (h.placesFrom id start) (id a) h.size := by
  have hlast : (h.appended a).data[h.size]? = some a := by
    rw [getElem?_appended hroom a h.size (Nat.lt_succ_self _), if_pos rfl]
  unfold placesFrom appended
  rw [reports_report (by simpa [appended] using hlast), List.foldl_append]
  rfl

theorem rises_appended (hord : Ordered lt (fun _ => True) h) : Rises lt (h.appended a) h.size := by
  constructor
  · intro j hj hjs hne
    rw [size_appended] at hjs
    have hup := parent_lt hj
    have hsame (i : Nat) (hi : i < h.size) : (h.appended a).data[i]? = h.data[i]? := by
      rw [getElem?_appended hroom a i (by omega), if_neg (by omega)]
    rw [LessAt.congr (hsame (parent j) (by omega)) (hsame j (by omega))]
    exact hord j hj trivial (by omega)
  · intro _ j hj hjs hji
    rw [size_appended] at hjs
    have hup := parent_lt hj
    omega

theorem traced_appended [BEq ι] [LawfulBEq ι] {id : α → ι} (ht : Traced id start h)
    (hnew : ∀ b ∈ h.items, id b ≠ id a) : Traced id start (h.appended a) := by
  intro i b hi hb
  rw [size_appended] at hi
  rw [getElem?_appended hroom a i hi] at hb
  rw [placesFrom_appended hroom, get?_put]
  by_cases his : i = h.size
  · rw [if_pos his] at hb
    cases hb
    simp [his]
  · rw [if_neg his] at hb
    have hne : id b ≠ id a := hnew b (mem_items (by omega) hb)
    rw [beq_false_of_ne hne]
    exact ht i b (by omega) hb

theorem insert_ordered [DecidableRel lt] [IsStrictWeakOrder α lt] [BEq ι] [LawfulBEq ι]
    (id : α → ι) (hord : Ordered lt (fun _ => True) h) (hdec : Decides less lt (h.appended a)) :
    ∃ h', h.insert less a = (.ok (), h') ∧ Moved id (h.appended a) h' ∧
      Ordered lt (fun _ => True) h' := by
  exact siftUp_ordered id hdec (room_appended hroom a) (by simp) (rises_appended hroom a hord)

end Insert

/-! ## Taking out the greatest item -/

section Extract

/-- The heap with its last item in the place of the root. -/
def replaced (h : MaxHeap α) (b : α) : MaxHeap α :=
  let h := ({ h with data := h.data.setIfInBounds 0 b }).report 0
  { h with size := h.size - 1 }

@[simp] theorem size_replaced (h : MaxHeap α) (b) : (h.replaced b).size = h.size - 1 := by
  simp [replaced]

@[simp] theorem data_replaced (h : MaxHeap α) (b) :
    (h.replaced b).data = h.data.setIfInBounds 0 b := by
  simp [replaced]

theorem extract_eq (hsize : h.size ≠ 0) (ha : h.data[0]? = some a)
    (hb : h.data[h.size - 1]? = some b) (hsift : (h.replaced b).siftDown less 0 = (.ok (), h')) :
    h.extract less = (.ok a, h') := by
  unfold extract
  rw [if_neg hsize, item_eq ha, item_eq hb]
  unfold replaced at hsift
  dsimp only at hsift ⊢
  rw [hsift]

theorem sinks_replaced (hord : Ordered lt (fun _ => True) h) (b) :
    Sinks lt (fun _ => True) (h.replaced b) 0 := by
  constructor
  · intro j hj _ hjs hroot
    rw [size_replaced] at hjs
    have hsame (i : Nat) (hi : i ≠ 0) : (h.replaced b).data[i]? = h.data[i]? := by
      rw [data_replaced, getElem?_setIfInBounds, if_neg hi.symm]
    rw [LessAt.congr (hsame (parent j) hroot) (hsame j (by omega))]
    exact hord j hj trivial (by omega)
  · intro hpos
    omega

variable {a b : α}

theorem items_replaced (ha : h.data[0]? = some a) (hb : h.data[h.size - 1]? = some b)
    (hsize : 0 < h.size) : (a :: (h.replaced b).items).Perm h.items := by
  obtain ⟨n, hn⟩ : ∃ n, h.size = n + 1 := ⟨h.size - 1, by omega⟩
  unfold items
  rw [size_replaced, data_replaced, toList_setIfInBounds, hn]
  rw [hn, Nat.add_sub_cancel, ← getElem?_toList] at hb
  rw [← getElem?_toList] at ha
  generalize h.data.toList = xs at ha hb
  cases xs with
  | nil => cases ha
  | cons x xs =>
    cases ha
    cases n with
    | zero => simp
    | succ n =>
      -- the last of the remaining items goes to their front
      rw [getElem?_cons_succ] at hb
      simp only [set_cons_zero, Nat.add_sub_cancel, take_succ_cons]
      rw [take_add_one, hb]
      exact (perm_append_singleton b (xs.take n)).symm.cons _

variable (hroom : h.size ≤ h.data.size)

include hroom

theorem room_replaced (b) : (h.replaced b).size ≤ (h.replaced b).data.size := by
  rw [size_replaced, data_replaced, size_setIfInBounds]
  omega

variable (hsize : 0 < h.size)

include hsize

theorem placesFrom_replaced [BEq ι] (id : α → ι) (start) :
    (h.replaced b).placesFrom id start = Bindings.put (h.placesFrom id start) (id b) 0 := by
  have hroot : ({ h with data := h.data.setIfInBounds 0 b }).data[0]? = some b := by
    have hlt : 0 < h.data.size := by omega
    simp [hlt]
  unfold placesFrom replaced
  rw [reports_report hroot, List.foldl_append]
  rfl

section Traced

variable [BEq ι] [LawfulBEq ι] {id : α → ι} {start : List (ι × Nat)}
  (hb : h.data[h.size - 1]? = some b) (ht : Traced id start h)

include hb ht

theorem traced_replaced : Traced id start (h.replaced b) := by
  intro i c hi hc
  rw [size_replaced] at hi
  rw [data_replaced, getElem?_setIfInBounds] at hc
  rw [placesFrom_replaced hroom hsize, get?_put]
  by_cases hroot : i = 0
  · subst hroot
    have hlt : 0 < h.data.size := by omega
    simp only [hlt, if_true] at hc
    cases hc
    simp
  · rw [if_neg (Ne.symm hroot)] at hc
    have hne : id c ≠ id b := by
      intro hcb
      have := ht.inj (by omega) hc (by omega) hb hcb
      omega
    rw [beq_false_of_ne hne]
    exact ht i c (by omega) hc

/-- The item that is taken out keeps its last place, the root. -/
theorem others_replaced (hx : ∀ c ∈ (h.replaced b).items, id c ≠ x) :
    get? ((h.replaced b).placesFrom id start) x =
      get? (h.placesFrom id start) x := by
  rw [placesFrom_replaced hroom hsize, get?_put]
  by_cases hxb : x = id b
  · subst hxb
    rw [beq_self_eq_true, if_pos rfl, ht (h.size - 1) b (by omega) hb]
    -- otherwise the last item is still there
    by_cases hone : h.size = 1
    · rw [hone]
    · have hroot : (h.replaced b).data[0]? = some b := by
        have hlt : 0 < h.data.size := by omega
        simp [hlt]
      have hmem : b ∈ (h.replaced b).items := mem_items (by rw [size_replaced]; omega) hroot
      exact absurd rfl (hx b hmem)
  · rw [beq_false_of_ne hxb]
    rfl

end Traced

/-- The root is taken out, and is a greatest item. -/
theorem extract_ordered [BEq ι] [LawfulBEq ι] (id : α → ι) [DecidableRel lt]
    [IsStrictWeakOrder α lt] (hord : Ordered lt (fun _ => True) h) (hdec : Decides less lt h) :
    ∃ a b h', h.data[0]? = some a ∧ h.data[h.size - 1]? = some b ∧
      h.extract less = (.ok a, h') ∧ Moved id (h.replaced b) h' ∧ Ordered lt (fun _ => True) h' ∧
      ∀ c ∈ h.items, ¬lt a c := by
  obtain ⟨a, ha⟩ := exists_item hroom hsize
  obtain ⟨b, hb⟩ := exists_item (i := h.size - 1) hroom (by omega)
  have hdec' : Decides less lt (h.replaced b) := hdec.congr fun c hc =>
      (items_replaced ha hb hsize).mem_iff.mp (mem_cons_of_mem a hc)
  have hroom' := room_replaced hroom b
  obtain ⟨h', hsift, hsunk, hord'⟩ :=
    siftDown_ordered hdec' hroom' (fun _ _ _ => trivial) (sinks_replaced hord b)
  refine ⟨a, b, h', ha, hb, extract_eq (by omega) ha hb hsift, hsunk.moved hroom', hord', ?_⟩
  intro c hc hlt
  obtain ⟨j, hj, hcj⟩ := exists_of_mem_items hc
  exact hord.root hroom hj ⟨a, c, ha, hcj, hlt⟩

end Extract

end CompilerKit.MaxHeap
