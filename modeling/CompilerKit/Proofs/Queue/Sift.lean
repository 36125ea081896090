import Mathlib.Logic.Equiv.Basic
import Mathlib.Order.Defs.Unbundled
import CompilerKit.Queue

/-!
# Sifting

An item that is out of order moves along one path of the tree, and everything else stays in order.
The order is any strict weak order, and need only compare the items of the heap. Wherever the items
go, the places that are reported follow them.
-/

namespace CompilerKit.MaxHeap

open List Bindings Option Array

variable {α ι : Type}
variable {i : Nat} {h : MaxHeap α} {a : α} {j : Nat} {K : Nat → Prop}

/-! ## The tree -/

theorem parent_lt (hi : 0 < i) : parent i < i := by
  unfold parent
  omega

theorem eq_left_or_right (hj : 0 < j) (h : parent j = i) : j = left i ∨ j = right i := by
  unfold parent at h
  unfold left right
  omega

theorem parent_left (i) : parent (left i) = i := by
  unfold parent left
  omega

theorem parent_right (i) : parent (right i) = i := by
  unfold parent right
  omega

theorem lt_left (i) : i < left i := by
  unfold left
  omega

theorem left_lt_right (i) : left i < right i := by
  unfold left right
  omega

/-! ## Items -/

theorem item_eq (ha : h.data[i]? = some a) : h.item i = .ok a := by
  unfold item
  rw [ha]

theorem reports_report (ha : h.data[i]? = some a) :
    (h.report i).reports = h.reports ++ [(a, i)] := by
  unfold report
  rw [ha]

theorem getElem?_items (h : MaxHeap α) (hi : i < h.size) : h.items[i]? = h.data[i]? := by
  unfold items
  rw [getElem?_take_of_lt hi, getElem?_toList]

theorem mem_items (hi : i < h.size) (ha : h.data[i]? = some a) : a ∈ h.items :=
  mem_of_getElem? ((h.getElem?_items hi).trans ha)

theorem exists_of_mem_items (ha : a ∈ h.items) : ∃ i, i < h.size ∧ h.data[i]? = some a := by
  obtain ⟨i, hi⟩ := mem_iff_getElem?.mp ha
  by_cases hlt : i < h.size
  · exact ⟨i, hlt, (h.getElem?_items hlt).symm.trans hi⟩
  · unfold items at hi
    rw [getElem?_take_eq_none (by omega)] at hi
    cases hi

theorem exists_item (hroom : h.size ≤ h.data.size) (hi : i < h.size) : ∃ a, h.data[i]? = some a :=
  ⟨_, getElem?_eq_getElem (by omega)⟩

@[simp] theorem data_report (h : MaxHeap α) (i) : (h.report i).data = h.data := by
  unfold report
  split <;> rfl

@[simp] theorem data_exchange (h : MaxHeap α) (i j) :
    (h.exchange i j).data = h.data.swapIfInBounds i j := by
  simp [exchange, swap]

section Exchange

variable (hi : i < h.data.size) (hj : j < h.data.size)

include hi hj

theorem getElem?_exchange (k) : (h.exchange i j).data[k]? = h.data[Equiv.swap i j k]? := by
  rw [data_exchange, swapIfInBounds_def, dif_pos hi, dif_pos hj, getElem?_swap,
    Equiv.swap_apply_def]
  split
  · split <;> simp_all
  · split <;> simp_all [eq_comm]

theorem reports_exchange (ha : h.data[i]? = some a) (hb : h.data[j]? = some b) :
    (h.exchange i j).reports = h.reports ++ [(b, i), (a, j)] := by
  have hget := getElem?_exchange hi hj
  simp only [data_exchange] at hget
  have hfirst : (h.swap i j).data[i]? = some b := by
    rw [swap, hget, Equiv.swap_apply_left, hb]
  have hsecond : ((h.swap i j).report i).data[j]? = some a := by
    rw [data_report, swap, hget, Equiv.swap_apply_right, ha]
  unfold exchange
  rw [reports_report hsecond, reports_report hfirst, List.append_assoc]
  rfl

theorem items_exchange (hi' : i < h.size) (hj' : j < h.size) :
    (h.exchange i j).items.Perm h.items := by
  obtain ⟨hilen, hia⟩ := List.getElem?_eq_some_iff.mp
    ((h.getElem?_items hi').trans (Array.getElem?_eq_getElem hi))
  obtain ⟨hjlen, hja⟩ := List.getElem?_eq_some_iff.mp
    ((h.getElem?_items hj').trans (Array.getElem?_eq_getElem hj))
  have hitems : (h.exchange i j).items = (h.items.set i h.data[j]).set j h.data[i] := by
    unfold items
    rw [data_exchange, size_exchange, Array.swapIfInBounds_def, dif_pos hi, dif_pos hj,
      toList_swap, take_set, take_set]
  rw [hitems, ← hia, ← hja]
  exact set_set_perm hilen hjlen

end Exchange

/-- An item has sunk from a place: it has changed places with items below, one after the other. -/
inductive Sunk : Nat → MaxHeap α → MaxHeap α → Prop where
  | stay : Sunk p g g
  | down {p m g g'} (hpos : 0 < m) (hm : m < g.size) (hmp : parent m = p)
      (hsunk : Sunk m (g.exchange p m) g') : Sunk p g g'

/-! ## Order -/

section Order

variable {lt : α → α → Prop}

/-- The item at one place is less than the one at another. -/
def LessAt (lt : α → α → Prop) (h : MaxHeap α) (i j : Nat) : Prop :=
  ∃ a b, h.data[i]? = some a ∧ h.data[j]? = some b ∧ lt a b

/-- No item of the heap at a place in `K` is greater than the one above it. -/
def Ordered (lt : α → α → Prop) (K : Nat → Prop) (h : MaxHeap α) : Prop :=
  ∀ j, 0 < j → K j → j < h.size → ¬LessAt lt h (parent j) j

theorem LessAt.congr (hi : h'.data[i']? = h.data[i]?) (hj : h'.data[j']? = h.data[j]?) :
    LessAt lt h' i' j' ↔ LessAt lt h i j := by
  unfold LessAt
  rw [hi, hj]

theorem lessAt_exchange (hi : i < h.data.size) (hj : j < h.data.size) (x y) :
    LessAt lt (h.exchange i j) x y ↔ LessAt lt h (Equiv.swap i j x) (Equiv.swap i j y) :=
  LessAt.congr (getElem?_exchange hi hj x) (getElem?_exchange hi hj y)

/-! ### One item out of order -/

/-- The order holds but for the item at `i`, which may be greater than those above it. -/
structure Rises (lt : α → α → Prop) (h : MaxHeap α) (i : Nat) : Prop where
  elsewhere : ∀ j, 0 < j → j < h.size → j ≠ i → ¬LessAt lt h (parent j) j
  across : 0 < i → ∀ j, 0 < j → j < h.size → parent j = i → ¬LessAt lt h (parent i) j

/-- The order holds in `K` but for the item at `i`, which may be less than those below it. -/
structure Sinks (lt : α → α → Prop) (K : Nat → Prop) (h : MaxHeap α) (i : Nat) : Prop where
  elsewhere : ∀ j, 0 < j → K j → j < h.size → parent j ≠ i → ¬LessAt lt h (parent j) j
  across : 0 < i → K i → ∀ j, 0 < j → j < h.size → parent j = i → ¬LessAt lt h (parent i) j

theorem Rises.ordered (hrise : Rises lt h i) (hstop : 0 < i → ¬LessAt lt h (parent i) i) :
    Ordered lt (fun _ => True) h := by
  intro j hj _ hjs
  by_cases hji : j = i
  · subst hji
    exact hstop hj
  · exact hrise.elsewhere j hj hjs hji

theorem Sinks.ordered (hsink : Sinks lt K h i)
    (hstop : ∀ j, 0 < j → j < h.size → parent j = i → ¬LessAt lt h i j) : Ordered lt K h := by
  intro j hj hjK hjs
  by_cases hji : parent j = i
  · exact hji ▸ hstop j hj hjs hji
  · exact hsink.elsewhere j hj hjK hjs hji

variable [IsStrictWeakOrder α lt]

theorem not_rel_trans (hab : ¬lt a b) (hbc : ¬lt b c) : ¬lt a c := by
  intro hac
  by_cases hba : lt b a
  · exact hbc (trans_of lt hba hac)
  · by_cases hcb : lt c b
    · exact hab (trans_of lt hac hcb)
    · exact (IsStrictWeakOrder.incomp_trans a b c ⟨hab, hba⟩ ⟨hbc, hcb⟩).1 hac

theorem LessAt.trans (hij : LessAt lt h i j) (hjk : LessAt lt h j k) :
    LessAt lt h i k := by
  obtain ⟨a, b, ha, hb, hab⟩ := hij
  obtain ⟨b', c, hb', hc, hbc⟩ := hjk
  obtain rfl : b = b' := some.inj (hb.symm.trans hb')
  exact ⟨a, c, ha, hc, trans_of lt hab hbc⟩

theorem LessAt.not_self : ¬LessAt lt h i i := by
  rintro ⟨a, b, ha, hb, hab⟩
  obtain rfl : a = b := some.inj (ha.symm.trans hb)
  exact irrefl_of lt a hab

theorem not_lessAt_trans (hj : j < h.data.size) (hij : ¬LessAt lt h i j)
    (hjk : ¬LessAt lt h j k) : ¬LessAt lt h i k := by
  rintro ⟨a, c, ha, hc, hac⟩
  have hb := Array.getElem?_eq_getElem hj
  have hab : ¬lt a h.data[j] := fun hab => hij ⟨a, _, ha, hb, hab⟩
  have hbc : ¬lt h.data[j] c := fun hbc => hjk ⟨_, c, hb, hc, hbc⟩
  exact not_rel_trans hab hbc hac

variable (hroom : h.size ≤ h.data.size)
include hroom

theorem Ordered.root (hord : Ordered lt (fun _ => True) h) (hj : j < h.size) :
    ¬LessAt lt h 0 j := by
  induction j using Nat.strongRecOn with
  | ind j ih =>
    by_cases hpos : 0 < j
    · have hup := parent_lt hpos
      exact not_lessAt_trans (by omega) (ih (parent j) hup (by omega)) (hord j hpos trivial hj)
    · obtain rfl : j = 0 := by omega
      exact LessAt.not_self

theorem Rises.exchange (hpos : 0 < i) (hi : i < h.size) (hrise : Rises lt h i)
    (hless : LessAt lt h (parent i) i) :
    Rises lt (h.exchange i (parent i)) (parent i) := by
  have hup := parent_lt hpos
  have hswap (x y : Nat) : LessAt lt (h.exchange i (parent i)) x y ↔
      LessAt lt h (Equiv.swap i (parent i) x) (Equiv.swap i (parent i) y) :=
    lessAt_exchange (by omega) (by omega) x y
  constructor
  · intro j hj hjs hne
    rw [hswap]
    rw [size_exchange] at hjs
    by_cases hji : j = i
    · subst hji
      rw [Equiv.swap_apply_left, Equiv.swap_apply_right]
      exact fun hback => LessAt.not_self (hless.trans hback)
    · rw [Equiv.swap_apply_of_ne_of_ne hji hne]
      by_cases hpp : parent j = parent i
      · rw [hpp, Equiv.swap_apply_right]
        intro hsib
        exact hrise.elsewhere j hj hjs hji (hpp ▸ hless.trans hsib)
      · by_cases hpi : parent j = i
        · rw [hpi, Equiv.swap_apply_left]
          exact hrise.across hpos j hj hjs hpi
        · rw [Equiv.swap_apply_of_ne_of_ne hpi hpp]
          exact hrise.elsewhere j hj hjs hji
  · intro hppos j hj hjs hjp
    rw [size_exchange] at hjs
    have hupp := parent_lt hppos
    have habove : ¬LessAt lt h (parent (parent i)) (parent i) :=
      hrise.elsewhere (parent i) hppos (by omega) (by omega)
    rw [hswap, Equiv.swap_apply_of_ne_of_ne (by omega) (by omega)]
    by_cases hji : j = i
    · rwa [hji, Equiv.swap_apply_left]
    · have hjup := parent_lt hj
      rw [Equiv.swap_apply_of_ne_of_ne hji (by omega)]
      refine not_lessAt_trans (by omega) habove ?_
      exact hjp ▸ hrise.elsewhere j hj hjs hji

/-- In an ordered heap no item is out of order. -/
theorem Ordered.rises (hord : Ordered lt (fun _ => True) h) (i) : Rises lt h i := by
  refine ⟨fun j hj hjs _ => hord j hj trivial hjs, fun hpos j hj hjs hji => ?_⟩
  have hup := parent_lt hj
  refine not_lessAt_trans (by omega) (hord i hpos trivial (by omega)) ?_
  exact hji ▸ hord j hj trivial hjs

theorem Sinks.exchange (hK : ∀ j, 0 < j → K (parent j) → K j) (hm : 0 < m) (hms : m < h.size)
    (hmi : parent m = i) (hless : LessAt lt h i m)
    (hgreatest : ∀ j, 0 < j → j < h.size → parent j = i → ¬LessAt lt h m j)
    (hsink : Sinks lt K h i) : Sinks lt K (h.exchange i m) m := by
  have hup := parent_lt hm
  have hswap (x y : Nat) : LessAt lt (h.exchange i m) x y ↔
      LessAt lt h (Equiv.swap i m x) (Equiv.swap i m y) :=
    lessAt_exchange (by omega) (by omega) x y
  constructor
  · intro j hj hjK hjs hne
    rw [size_exchange] at hjs
    have hjup := parent_lt hj
    rw [hswap]
    by_cases hjm : j = m
    · subst hjm
      rw [hmi, Equiv.swap_apply_left, Equiv.swap_apply_right]
      exact fun hback => LessAt.not_self (hless.trans hback)
    · by_cases hji : j = i
      · -- the item that came up is not greater than the one above it
        subst hji
        rw [Equiv.swap_apply_left, Equiv.swap_apply_of_ne_of_ne (by omega) hne]
        exact hsink.across hj hjK m hm hms hmi
      · rw [Equiv.swap_apply_of_ne_of_ne hji hjm]
        by_cases hpi : parent j = i
        · rw [hpi, Equiv.swap_apply_left]
          exact hgreatest j hj hjs hpi
        · rw [Equiv.swap_apply_of_ne_of_ne hpi hne]
          exact hsink.elsewhere j hj hjK hjs hpi
  · intro _ hmK j hj hjs hjm
    rw [size_exchange] at hjs
    have hjup := parent_lt hj
    rw [hswap, hmi, Equiv.swap_apply_left, Equiv.swap_apply_of_ne_of_ne (by omega) (by omega)]
    exact hjm ▸ hsink.elsewhere j hj (hK j hj (hjm ▸ hmK)) hjs (by omega)

end Order

/-! ## Reported places -/

section Places

variable [BEq ι] (id : α → ι) (start : List (ι × Nat))

/-- Where everything is after the reports of a heap, if it was at `start` before them. -/
def placesFrom (h : MaxHeap α) : List (ι × Nat) :=
  h.reports.foldl (fun ps (a, i) => Bindings.put ps (id a) i) start

/-- The reported place of every item of the heap is the one it has. -/
def Traced (h : MaxHeap α) : Prop :=
  ∀ i a, i < h.size → h.data[i]? = some a → get? (h.placesFrom id start) (id a) = some i

/-- The items of the heap have moved around, with reports of all moves. -/
structure Moved (h h' : MaxHeap α) : Prop where
  size : h'.size = h.size
  room : h'.data.size = h.data.size
  items : h'.items.Perm h.items
  traced : ∀ start, Traced id start h → Traced id start h'
  others : ∀ start x, (∀ a ∈ h.items, id a ≠ x) →
    get? (h'.placesFrom id start) x = get? (h.placesFrom id start) x

variable {id start}

theorem Moved.refl (h : MaxHeap α) : Moved id h h :=
  ⟨rfl, rfl, .refl _, fun _ ht => ht, fun _ _ _ => rfl⟩

theorem Moved.trans (h12 : Moved id h1 h2) (h23 : Moved id h2 h3) :
    Moved id h1 h3 where
  size := h23.size.trans h12.size
  room := h23.room.trans h12.room
  items := h23.items.trans h12.items
  traced start ht := h23.traced start (h12.traced start ht)
  others start x hx :=
    (h23.others start x fun a ha => hx a (h12.items.mem_iff.mp ha)).trans (h12.others start x hx)

theorem Moved.room_le (hmoved : Moved id h h') (hroom : h.size ≤ h.data.size) :
    h'.size ≤ h'.data.size := by
  rwa [hmoved.size, hmoved.room]

theorem Traced.inj (ht : Traced id start h) (hi : i < h.size) (ha : h.data[i]? = some a)
    (hj : j < h.size) (hb : h.data[j]? = some b) (hab : id a = id b) : i = j := by
  have hplace := ht i a hi ha
  rw [hab, ht j b hj hb] at hplace
  exact (some.inj hplace).symm

variable [LawfulBEq ι]

theorem moved_exchange (hroom : h.size ≤ h.data.size) (hi : i < h.size) (hj : j < h.size)
    (hij : i ≠ j) : Moved id h (h.exchange i j) := by
  have hid : i < h.data.size := by omega
  have hjd : j < h.data.size := by omega
  obtain ⟨a, ha⟩ := exists_item hroom hi
  obtain ⟨b, hb⟩ := exists_item hroom hj
  have hplaces (start : List (ι × Nat)) : (h.exchange i j).placesFrom id start =
      Bindings.put (Bindings.put (h.placesFrom id start) (id b) i) (id a) j := by
    unfold placesFrom
    rw [reports_exchange hid hjd ha hb, List.foldl_append]
    rfl
  refine ⟨size_exchange h i j, by simp, items_exchange hid hjd hi hj, ?_, ?_⟩
  · intro start ht k c hk hc
    rw [size_exchange] at hk
    rw [getElem?_exchange hid hjd] at hc
    rw [hplaces, get?_put, get?_put]
    by_cases hkj : k = j
    · subst hkj
      rw [Equiv.swap_apply_right, ha] at hc
      cases hc
      simp
    · by_cases hki : k = i
      · subst hki
        rw [Equiv.swap_apply_left, hb] at hc
        cases hc
        have hne : id b ≠ id a := fun hab => hij (ht.inj hi ha hj hb hab.symm)
        simp [beq_false_of_ne hne]
      · rw [Equiv.swap_apply_of_ne_of_ne hki hkj] at hc
        have hca : id c ≠ id a := fun hca => hki (ht.inj hk hc hi ha hca)
        have hcb : id c ≠ id b := fun hcb => hkj (ht.inj hk hc hj hb hcb)
        simp [beq_false_of_ne hca, beq_false_of_ne hcb, ht k c hk hc]
  · intro start x hx
    have hxa : x ≠ id a := (hx a (mem_items hi ha)).symm
    have hxb : x ≠ id b := (hx b (mem_items hj hb)).symm
    rw [hplaces, get?_put, get?_put, beq_false_of_ne hxa, beq_false_of_ne hxb]
    rfl

theorem Sunk.moved (h : Sunk i g g') (hroom : g.size ≤ g.data.size) : Moved id g g' := by
  induction h with
  | stay => exact .refl _
  | down hpos hm hmp _ ih =>
    have hlt := hmp ▸ parent_lt hpos
    refine .trans (moved_exchange hroom (Nat.lt_trans hlt hm) hm (Nat.ne_of_lt hlt)) (ih ?_)
    simpa using hroom

end Places

/-! ## Sifting -/

section Sifting

theorem siftUp_zero (less) (h : MaxHeap α) : h.siftUp less 0 = (.ok (), h) := by
  rw [siftUp, if_neg (Nat.lt_irrefl 0)]

variable {lt : α → α → Prop} [DecidableRel lt]

/-- The order decides between any two items of the heap. -/
def Decides (less : Less α) (lt : α → α → Prop) [DecidableRel lt] (h : MaxHeap α) : Prop :=
  ∀ a ∈ h.items, ∀ b ∈ h.items, less a b = .ok (decide (lt a b))

variable {less : Less α}

theorem Decides.congr (hdec : Decides less lt h) (hitems : ∀ a ∈ h'.items, a ∈ h.items) :
    Decides less lt h' :=
  fun a ha b hb => hdec a (hitems a ha) b (hitems b hb)

variable [BEq ι] [LawfulBEq ι] (id : α → ι)
variable (hdec : Decides less lt h) (hroom : h.size ≤ h.data.size)
include hdec hroom

theorem Decides.lessAt (hi : i < h.size) (hj : j < h.size) :
    ∃ a b, h.item i = .ok a ∧ h.item j = .ok b ∧ less a b = .ok (decide (lt a b)) ∧
      (lt a b ↔ LessAt lt h i j) := by
  obtain ⟨a, ha⟩ := exists_item hroom hi
  obtain ⟨b, hb⟩ := exists_item hroom hj
  refine ⟨a, b, item_eq ha, item_eq hb, hdec a (mem_items hi ha) b (mem_items hj hb), ?_⟩
  constructor
  · exact fun hab => ⟨a, b, ha, hb, hab⟩
  · rintro ⟨a', b', ha', hb', hab⟩
    obtain rfl : a = a' := some.inj (ha.symm.trans ha')
    obtain rfl : b = b' := some.inj (hb.symm.trans hb')
    exact hab

theorem greater_spec (hic : i < c) :
    (h.greater less i c = .ok i ∧ (c < h.size → ¬LessAt lt h i c)) ∨
      (h.greater less i c = .ok c ∧ c < h.size ∧ LessAt lt h i c) := by
  unfold greater
  by_cases hc : c < h.size
  · obtain ⟨a, b, ha, hb, hab, hless⟩ := hdec.lessAt hroom (Nat.lt_trans hic hc) hc
    rw [if_pos hc, ha, hb]
    simp only [bind, Except.bind, hab]
    by_cases hlt : lt a b
    · exact .inr ⟨by simp [hlt, pure, Except.pure], hc, hless.mp hlt⟩
    · exact .inl ⟨by simp [hlt, pure, Except.pure], fun _ hat => hlt (hless.mpr hat)⟩
  · rw [if_neg hc]
    exact .inl ⟨rfl, fun hcs => absurd hcs hc⟩

/-- An item that is not too large stays where it is. -/
theorem siftUp_stays (hi : i < h.size) (hstop : 0 < i → ¬LessAt lt h (parent i) i) :
    h.siftUp less i = (.ok (), h) := by
  rw [siftUp]
  by_cases hpos : 0 < i
  · obtain ⟨a, b, ha, hb, hab, hless⟩ := hdec.lessAt hroom (Nat.lt_trans (parent_lt hpos) hi) hi
    have hcompared : (do less (← h.item (parent i)) (← h.item i)) = .ok false := by
      rw [ha, hb]
      refine hab.trans (congrArg Except.ok (decide_eq_false fun hlt => ?_))
      exact hstop hpos (hless.mp hlt)
    rw [if_pos hpos, hcompared]
  · rw [if_neg hpos]

variable [IsStrictWeakOrder α lt]

theorem greatest_spec (i) :
    ∃ m, h.greatest less i = .ok m ∧
      (m = i ∨ 0 < m ∧ m < h.size ∧ parent m = i ∧ LessAt lt h i m) ∧
      ∀ j, 0 < j → j < h.size → parent j = i → ¬LessAt lt h m j := by
  have hil := lt_left i
  have hlr := left_lt_right i
  unfold greatest
  rcases greater_spec hdec hroom hil with ⟨hfirst, hleft⟩ | ⟨hfirst, hls, hleft⟩
  · rw [hfirst]
    rcases greater_spec hdec hroom (Nat.lt_trans hil hlr) with
      ⟨hsecond, hright⟩ | ⟨hsecond, hrs, hright⟩
    · refine ⟨i, hsecond, .inl rfl, fun j hj hjs hji => ?_⟩
      rcases eq_left_or_right hj hji with rfl | rfl
      · exact hleft hjs
      · exact hright hjs
    · refine ⟨right i, hsecond, .inr ⟨by omega, hrs, parent_right i, hright⟩, ?_⟩
      intro j hj hjs hji
      rcases eq_left_or_right hj hji with rfl | rfl
      · exact fun hback => hleft hjs (hright.trans hback)
      · exact LessAt.not_self
  · rw [hfirst]
    rcases greater_spec hdec hroom hlr with ⟨hsecond, hright⟩ | ⟨hsecond, hrs, hright⟩
    · refine ⟨left i, hsecond, .inr ⟨by omega, hls, parent_left i, hleft⟩, ?_⟩
      intro j hj hjs hji
      rcases eq_left_or_right hj hji with rfl | rfl
      · exact LessAt.not_self
      · exact hright hjs
    · refine ⟨right i, hsecond, .inr ⟨by omega, hrs, parent_right i, hleft.trans hright⟩, ?_⟩
      intro j hj hjs hji
      rcases eq_left_or_right hj hji with rfl | rfl
      · exact fun hback => LessAt.not_self (hright.trans hback)
      · exact LessAt.not_self

/-- An item that is too small finds its place below. -/
theorem siftDown_ordered (hK : ∀ j, 0 < j → K (parent j) → K j) (hsink : Sinks lt K h i) :
    ∃ h', h.siftDown less i = (.ok (), h') ∧ Sunk i h h' ∧ Ordered lt K h' := by
  induction hn : h.size - i using Nat.strongRecOn generalizing h i with
  | ind n ih =>
    obtain ⟨m, hm, hcase, hgreatest⟩ := greatest_spec hdec hroom i
    rw [siftDown, hm]
    rcases hcase with rfl | ⟨hpos, hms, hmi, hless⟩
    · refine ⟨h, ?_, .stay, hsink.ordered hgreatest⟩
      simp
    · have him : i < m := hmi ▸ parent_lt hpos
      have hitems : (h.exchange i m).items.Perm h.items :=
        items_exchange (by omega) (by omega) (Nat.lt_trans him hms) hms
      obtain ⟨h', hsift, hsunk, hord⟩ := ih ((h.exchange i m).size - m)
        (by rw [size_exchange]; omega) (hdec.congr fun a ha => hitems.mem_iff.mp ha)
        (by simpa using hroom) (hsink.exchange hroom hK hpos hms hmi hless hgreatest) rfl
      refine ⟨h', ?_, .down hpos hms hmi hsunk, hord⟩
      simp only [him, hms, and_self, if_true]
      exact hsift

/-- An item that is too large finds its place above. -/
theorem siftUp_ordered (hi : i < h.size) (hrise : Rises lt h i) :
    ∃ h', h.siftUp less i = (.ok (), h') ∧ Moved id h h' ∧ Ordered lt (fun _ => True) h' := by
  induction i using Nat.strongRecOn generalizing h with
  | ind i ih =>
    by_cases hrises : 0 < i ∧ LessAt lt h (parent i) i
    · obtain ⟨hpos, hat⟩ := hrises
      have hup := parent_lt hpos
      obtain ⟨a, b, ha, hb, hab, hless⟩ := hdec.lessAt hroom (Nat.lt_trans hup hi) hi
      have hcompared : (do less (← h.item (parent i)) (← h.item i)) = .ok true := by
        rw [ha, hb]
        exact hab.trans (congrArg Except.ok (decide_eq_true (hless.mpr hat)))
      have hmoved : Moved id h (h.exchange i (parent i)) :=
        moved_exchange hroom hi (Nat.lt_trans hup hi) (Nat.ne_of_gt hup)
      obtain ⟨h', hsift, hmoved', hord⟩ := ih (parent i) hup
        (hdec.congr fun c hc => hmoved.items.mem_iff.mp hc)
        (hmoved.room_le hroom) (by rw [hmoved.size]; omega) (hrise.exchange hroom hpos hi hat)
      refine ⟨h', ?_, hmoved.trans hmoved', hord⟩
      rwa [siftUp, if_pos hpos, hcompared]
    · have hstop : 0 < i → ¬LessAt lt h (parent i) i := fun hpos hat => hrises ⟨hpos, hat⟩
      exact ⟨h, siftUp_stays hdec hroom hi hstop, Moved.refl h, hrise.ordered hstop⟩

end Sifting

end CompilerKit.MaxHeap
