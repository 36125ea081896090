import Mathlib.Data.List.Perm.Basic
import Mathlib.Order.WithBot
import CompilerKit.Proofs.Queue.Heap

/-!
# Sessions with a priority queue

The priorities of keys stand in a table outside of the queue and change under it. As long as a key
in the queue only becomes more urgent, and the heap is mended each time, the queue serves the keys
by their current priorities.

* `Sound.step`: a call of the session keeps the places, entries and priorities in agreement.
* `Reached.sound`: so do all calls, by induction on the session; what is popped is the least key.
-/

namespace CompilerKit.PriorityQueue

open MaxHeap Bindings QueueEntry Option Nat

variable {κ π : Type} [BEq κ] {k : κ} {i : Nat} {e : QueueEntry κ}

/-! ## Queues -/

/-- The places, entries and keys of a queue agree. The keys in `inside` are in the queue, and those
in `gone` were taken out. -/
structure Tidy (q : PriorityQueue κ) (inside gone : List κ) : Prop where
  room : q.heap.size ≤ q.heap.data.size
  quiet : q.heap.reports = []
  traced : Traced QueueEntry.id q.places q.heap
  keys : (q.heap.items.map key).Perm inside
  nodup : inside.Nodup
  current : ∀ e ∈ q.heap.items, get? q.entries e.key = some e
  named : ∀ k e, get? q.entries k = some e → e.key = k ∧ e.id < q.count
  apart : ∀ k e k' e', get? q.entries k = some e → get? q.entries k' = some e' →
    e.id = e'.id → k = k'
  rooted : ∀ k ∈ gone, k ∉ inside → ∃ e, get? q.entries k = some e ∧ get? q.places e.id = some 0

omit [BEq κ] in
theorem settle_quiet {q : PriorityQueue κ} (hquiet : q.heap.reports = []) :
    q.settle q.heap = q := by
  obtain ⟨⟨data, size, reports⟩, entries, places, count⟩ := q
  cases hquiet
  rfl

namespace Tidy

variable {q : PriorityQueue κ} {inside gone : List κ}
variable {heap : MaxHeap (QueueEntry κ)} (ht : Tidy q inside gone)
include ht

theorem key_mem (he : e ∈ q.heap.items) : e.key ∈ inside :=
  ht.keys.mem_iff.mp (List.mem_map_of_mem he)

theorem exists_entry (hk : k ∈ inside) :
    ∃ i e, i < q.heap.size ∧ q.heap.data[i]? = some e ∧ e.key = k := by
  obtain ⟨e, he, rfl⟩ := List.mem_map.mp (ht.keys.mem_iff.mpr hk)
  obtain ⟨i, hi, hei⟩ := exists_of_mem_items he
  exact ⟨i, e, hi, hei, rfl⟩

theorem size_eq : q.heap.size = inside.length := by
  rw [← ht.keys.length_eq, List.length_map, items, List.length_take, Array.length_toList]
  exact (min_eq_left ht.room).symm

theorem placesFrom_eq : q.heap.placesFrom QueueEntry.id q.places = q.places := by
  unfold placesFrom
  rw [ht.quiet]
  rfl

theorem place_of_item (hi : i < q.heap.size) (he : q.heap.data[i]? = some e) :
    get? q.places e.id = some i := by
  have hplace := ht.traced i e hi he
  rwa [ht.placesFrom_eq] at hplace

theorem place?_eq (hi : i < q.heap.size) (he : q.heap.data[i]? = some e) :
    q.place? e.key = some i := by
  unfold place?
  rw [ht.current e (mem_items hi he), map_some, ht.place_of_item hi he]
  rfl

/-- The entry of a key outside of the queue is none of its items. -/
theorem id_ne (hk : k ∉ inside) (he : get? q.entries k = some e) :
    ∀ b ∈ q.heap.items, b.id ≠ e.id := by
  intro b hb hid
  apply hk
  rw [ht.apart k e b.key b he (ht.current b hb) hid.symm]
  exact ht.key_mem hb

theorem index_eq [LawfulBEq κ] (hi : i < q.heap.size)
    (he : q.heap.data[i]? = some e) (hj : j < q.heap.size) (he' : q.heap.data[j]? = some e')
    (hkey : e.key = e'.key) : i = j := by
  have hentry := ht.current e (mem_items hi he)
  rw [hkey, ht.current e' (mem_items hj he')] at hentry
  exact ht.traced.inj hi he hj he' (congrArg QueueEntry.id (some.inj hentry).symm)

theorem moved (hmoved : Moved QueueEntry.id q.heap heap) :
    Tidy (q.settle heap) inside gone where
  room := hmoved.room_le ht.room
  quiet := rfl
  traced := hmoved.traced q.places ht.traced
  keys := (hmoved.items.map key).trans ht.keys
  nodup := ht.nodup
  current := fun e he => ht.current e (hmoved.items.mem_iff.mp he)
  named := ht.named
  apart := ht.apart
  rooted := by
    intro k hk hnot
    obtain ⟨e, he, hplace⟩ := ht.rooted k hk hnot
    refine ⟨e, he, ?_⟩
    rw [← hplace, ← ht.placesFrom_eq]
    exact hmoved.others q.places e.id (ht.id_ne hnot he)

/-- Nothing is mended above the root. -/
theorem increase_gone (less missing) (hk : k ∈ gone) (hnot : k ∉ inside) :
    q.increase less k missing = (.ok (), q) := by
  obtain ⟨e, he, hplace⟩ := ht.rooted k hk hnot
  have hroot : q.place? k = some 0 := by
    unfold place?
    rw [he, map_some, hplace]
    rfl
  unfold increase
  rw [hroot]
  dsimp only
  rw [siftUp_zero]
  exact congrArg (Prod.mk _) (settle_quiet ht.quiet)

variable [LawfulBEq κ]

theorem pushed (hk : k ∉ inside)
    (hmoved : Moved QueueEntry.id (q.heap.appended ⟨q.count, k⟩) heap) :
    Tidy (settle { q with entries := put q.entries k ⟨q.count, k⟩, count := q.count + 1 }
      heap) (k :: inside) gone := by
  have hitems (e : QueueEntry κ) : e ∈ heap.items ↔ e ∈ q.heap.items ∨ e = ⟨q.count, k⟩ := by
    rw [hmoved.items.mem_iff, items_appended ht.room, List.mem_append, List.mem_singleton]
  have hlow (e : QueueEntry κ) (he : e ∈ q.heap.items) : e.id < q.count :=
    (ht.named e.key e (ht.current e he)).2
  have hget (k' : κ) (hne : k' ≠ k) :
      get? (put q.entries k ⟨q.count, k⟩) k' = get? q.entries k' := by
    rw [get?_put, beq_false_of_ne hne]
    rfl
  have hself : get? (put q.entries k ⟨q.count, k⟩) k = some ⟨q.count, k⟩ := by
    rw [get?_put, beq_self_eq_true, if_pos rfl]
  constructor
  · exact hmoved.room_le (room_appended ht.room _)
  · rfl
  · exact hmoved.traced q.places
      (traced_appended ht.room _ ht.traced fun b hb => Nat.ne_of_lt (hlow b hb))
  · have hkeys := hmoved.items.map key
    rw [items_appended ht.room, List.map_append] at hkeys
    exact hkeys.trans ((List.perm_append_singleton k _).trans (ht.keys.cons k))
  · exact List.nodup_cons.mpr ⟨hk, ht.nodup⟩
  · intro e he
    rcases (hitems e).mp he with he | rfl
    · have hne : e.key ≠ k := fun h => hk (h ▸ ht.key_mem he)
      exact (hget e.key hne).trans (ht.current e he)
    · exact hself
  · intro k' e he
    by_cases hne : k' = k
    · subst hne
      obtain rfl := some.inj (hself.symm.trans he)
      exact ⟨rfl, lt_succ_self _⟩
    · obtain ⟨hkey, hid⟩ := ht.named k' e ((hget k' hne).symm.trans he)
      exact ⟨hkey, lt_succ_of_lt hid⟩
  · -- the number of the new entry is not in use
    intro k1 e1 k2 e2 he1 he2 hid
    by_cases h1 : k1 = k <;> by_cases h2 : k2 = k
    · rw [h1, h2]
    · subst h1
      obtain rfl := some.inj (hself.symm.trans he1)
      have hlt := (ht.named k2 e2 ((hget k2 h2).symm.trans he2)).2
      exact absurd hid (ne_of_gt hlt)
    · subst h2
      obtain rfl := some.inj (hself.symm.trans he2)
      have hlt := (ht.named k1 e1 ((hget k1 h1).symm.trans he1)).2
      exact absurd hid (Nat.ne_of_lt hlt)
    · exact ht.apart k1 e1 k2 e2 ((hget k1 h1).symm.trans he1) ((hget k2 h2).symm.trans he2) hid
  · intro k' hk' hnot
    rw [List.mem_cons, not_or] at hnot
    obtain ⟨e, he, hplace⟩ := ht.rooted k' hk' hnot.2
    have hid : e.id ≠ q.count := Nat.ne_of_lt (ht.named k' e he).2
    refine ⟨e, (hget k' hnot.1).trans he, ?_⟩
    have hothers := hmoved.others q.places e.id ?_
    · rw [placesFrom_appended ht.room, ht.placesFrom_eq, get?_put, beq_false_of_ne hid] at hothers
      exact hothers.trans hplace
    · intro b hb
      rw [items_appended ht.room, List.mem_append, List.mem_singleton] at hb
      rcases hb with hb | rfl
      · exact ht.id_ne hnot.2 he b hb
      · exact hid.symm

/-- Taking out the root keeps a queue tidy, and the entry stays where it was. -/
theorem popped (hsize : 0 < q.heap.size)
    (ha : q.heap.data[0]? = some a) (hb : q.heap.data[q.heap.size - 1]? = some b)
    (hmoved : Moved QueueEntry.id (q.heap.replaced b) heap) :
    Tidy (q.settle heap) (inside.erase a.key) (a.key :: gone) := by
  have hitems : (a :: heap.items).Perm q.heap.items :=
    (hmoved.items.cons a).trans (items_replaced ha hb hsize)
  have hmem (e : QueueEntry κ) (he : e ∈ heap.items) : e ∈ q.heap.items :=
    hitems.mem_iff.mp (List.mem_cons_of_mem a he)
  have hkeys : (heap.items.map key).Perm (inside.erase a.key) :=
    (List.cons_perm_iff_perm_erase.mp ((hitems.map key).trans ht.keys)).2
  -- what is not in the queue any more keeps its place
  have hstay (k : κ) (e : QueueEntry κ) (he : get? q.entries k = some e)
      (hk : k ∉ inside.erase a.key) :
      get? (heap.placesFrom QueueEntry.id q.places) e.id = get? q.places e.id := by
    have hne : ∀ c ∈ heap.items, c.id ≠ e.id := by
      intro c hc hid
      apply hk
      rw [ht.apart k e c.key c he (ht.current c (hmem c hc)) hid.symm]
      exact hkeys.mem_iff.mp (List.mem_map_of_mem hc)
    have hne' : ∀ c ∈ (q.heap.replaced b).items, c.id ≠ e.id :=
      fun c hc => hne c (hmoved.items.mem_iff.mpr hc)
    rw [hmoved.others q.places e.id hne', others_replaced ht.room hsize hb ht.traced hne',
      ht.placesFrom_eq]
  constructor
  · exact hmoved.room_le (room_replaced ht.room b)
  · rfl
  · exact hmoved.traced q.places (traced_replaced ht.room hsize hb ht.traced)
  · exact hkeys
  · exact ht.nodup.erase a.key
  · exact fun e he => ht.current e (hmem e he)
  · exact ht.named
  · exact ht.apart
  · intro k hk hnot
    by_cases hka : k = a.key
    · subst hka
      have hcurrent := ht.current a (mem_items hsize ha)
      exact ⟨a, hcurrent, (hstay a.key a hcurrent hnot).trans (ht.place_of_item hsize ha)⟩
    · have hout : k ∉ inside := fun hin => hnot ((List.mem_erase_of_ne hka).mpr hin)
      obtain ⟨e, he, hplace⟩ := ht.rooted k ((List.mem_cons.mp hk).resolve_left hka) hout
      exact ⟨e, he, (hstay k e he hnot).trans hplace⟩

end Tidy

/-! ## Sessions -/

/-- A queue in use, with the priorities of the keys, the keys that were pushed and not popped, and
those that were popped. -/
structure Session (κ π : Type) where
  queue : PriorityQueue κ := {}
  table : List (κ × π)
  inside : List κ := []
  gone : List κ := []

/-- What is done to a queue and to the priorities. -/
inductive Operation (κ π : Type) where
  | push (k : κ)
  | pop
  /-- Give a key a higher priority, and mend the heap. -/
  | raise (k : κ) (p : π)
  /-- Mend the heap, with no change of a priority. -/
  | increase (k : κ)
  /-- Give a key a priority. -/
  | price (k : κ) (p : π)

variable {s : Session κ π}

namespace Session

variable [LinearOrder π]

/-- The order of keys by the priorities of now. -/
def less (missing : κ → Fault) (s : Session κ π) : Less κ :=
  byTable (fun m n => .ok (decide (m < n))) missing s.table

/-- Only keys with a priority are pushed, each only while it is not in the queue. While it is there,
its priority may only rise, and then the heap is mended at once. -/
def Allows (s : Session κ π) : Operation κ π → Prop
  | .push k => k ∉ s.inside ∧ has s.table k = true
  | .pop => True
  | .raise k p => (k ∈ s.inside ∨ k ∈ s.gone) ∧ ∀ m, get? s.table k = some m → m ≤ p
  | .increase k => k ∈ s.inside ∨ k ∈ s.gone
  | .price k _ => k ∉ s.inside

/-- What an operation answers, and the session after it. -/
def step (missing : κ → Fault) (s : Session κ π) :
    Operation κ π → Except Fault (Option κ) × Session κ π
  | .push k =>
    let (r, queue) := s.queue.push (s.less missing) k
    (r.map fun _ => none, { s with queue, inside := k :: s.inside })
  | .pop => match s.queue.pop (s.less missing) with
    | (.ok k, queue) =>
      (.ok (some k), { s with queue, inside := s.inside.erase k, gone := k :: s.gone })
    | (.error f, queue) => (.error f, { s with queue })
  | .raise k p =>
    let s := { s with table := put s.table k p }
    let (r, queue) := s.queue.increase (s.less missing) k (missing k)
    (r.map fun _ => none, { s with queue })
  | .increase k =>
    let (r, queue) := s.queue.increase (s.less missing) k (missing k)
    (r.map fun _ => none, { s with queue })
  | .price k p => (.ok none, { s with table := put s.table k p })

/-- The sessions that start with an empty queue and take only steps that are allowed. -/
inductive Reached (missing : κ → Fault) : Session κ π → Prop where
  | start (table) : Reached missing { table }
  | step {s op} : Reached missing s → s.Allows op → Reached missing (s.step missing op).2

/-! ## The order of entries -/

/-- The priority of a key, below all others if it has none. -/
def rank (s : Session κ π) (k : κ) : WithBot π := get? s.table k

/-- One entry is less urgent than another. -/
def Before (s : Session κ π) (a b : QueueEntry κ) : Prop := s.rank a.key < s.rank b.key

instance (s : Session κ π) : DecidableRel s.Before :=
  fun a b => inferInstanceAs (Decidable (s.rank a.key < s.rank b.key))

instance (s : Session κ π) : IsStrictWeakOrder (QueueEntry κ) s.Before where
  irrefl a := lt_irrefl (s.rank a.key)
  trans a b c := lt_trans
  incomp_trans a b c hab hbc := by
    have hac : s.rank a.key = s.rank c.key :=
      (le_antisymm (not_lt.mp hab.2) (not_lt.mp hab.1)).trans
        (le_antisymm (not_lt.mp hbc.2) (not_lt.mp hbc.1))
    exact ⟨hac.not_lt, hac.not_gt⟩

/-- Keys with priorities can be compared. -/
theorem less_eq (missing : κ → Fault) (ha : has s.table a.key) (hb : has s.table b.key) :
    entryLess (s.less missing) a b = .ok (decide (s.Before a b)) := by
  obtain ⟨m, hm⟩ := isSome_iff_exists.mp ha
  obtain ⟨n, hn⟩ := isSome_iff_exists.mp hb
  have hbefore : s.Before a b ↔ m < n := by
    unfold Before rank
    rw [hm, hn]
    exact WithBot.coe_lt_coe
  simp only [entryLess, less, byTable, hm, hn, bind, Except.bind, hbefore]

/-! ## The invariant -/

/-- The queue is tidy and in order. -/
structure Sound (s : Session κ π) : Prop where
  tidy : Tidy s.queue s.inside s.gone
  priced : ∀ k ∈ s.inside, has s.table k
  ordered : Ordered s.Before (fun _ => True) s.queue.heap

theorem sound_start (table) : ({ table } : Session κ π).Sound where
  tidy := by
    refine ⟨le_refl 0, rfl, ?_, .nil, .nil, ?_, ?_, ?_, ?_⟩
    · intro i a hi
      exact absurd hi (not_lt_zero i)
    all_goals simp [items, get?]
  priced := by simp
  ordered := fun j _ _ hj => absurd hj (not_lt_zero j)

section

variable (ht : Tidy s.queue s.inside s.gone) (hpriced : ∀ k ∈ s.inside, has s.table k)
  (missing : κ → Fault)
include ht hpriced

theorem decides : Decides (entryLess (s.less missing)) s.Before s.queue.heap :=
  fun _ ha _ hb => less_eq missing (hpriced _ (ht.key_mem ha)) (hpriced _ (ht.key_mem hb))

/-- Mending the heap restores the order, if only the item of the key is too large. -/
theorem increase_sound (hi : i < s.queue.heap.size) (he : s.queue.heap.data[i]? = some e)
    (hrise : Rises s.Before s.queue.heap i) (fault) :
    ∃ queue, s.queue.increase (s.less missing) e.key fault = (.ok (), queue) ∧
      ({ s with queue } : Session κ π).Sound := by
  obtain ⟨heap, hsift, hmoved, hord⟩ :=
    siftUp_ordered QueueEntry.id (decides ht hpriced missing) ht.room hi hrise
  refine ⟨_, ?_, ht.moved hmoved, hpriced, hord⟩
  unfold increase
  rw [ht.place?_eq hi he]
  dsimp only
  rw [hsift]
  rfl

end

theorem Sound.answered (hs : s'.Sound) (answer) (hstep : s.step missing op = (.ok answer, s')) :
    (s.step missing op).2.Sound ∧
      ((op = .pop → s.inside ≠ []) → ∃ answer, (s.step missing op).1 = .ok answer) := by
  rw [hstep]
  exact ⟨hs, fun _ => ⟨answer, rfl⟩⟩

section

variable (hs : s.Sound) (missing : κ → Fault)
include hs

theorem Sound.exists_priority (hk : k ∈ s.inside) :
    ∃ m, get? s.table k = some m ∧ s.rank k = m := by
  obtain ⟨m, hm⟩ := isSome_iff_exists.mp (hs.priced k hk)
  exact ⟨m, hm, hm⟩

theorem Sound.pop_empty (hempty : s.inside = []) :
    s.queue.pop (s.less missing) = (.error .broken, s.queue) := by
  have hsize : s.queue.heap.size = 0 := by
    rw [hs.tidy.size_eq, hempty]
    rfl
  unfold PriorityQueue.pop extract
  rw [if_pos hsize]
  exact congrArg (Prod.mk _) (settle_quiet hs.tidy.quiet)

/-- Where no priority has changed, there is nothing to mend. -/
theorem Sound.increase (hk : k ∈ s.inside ∨ k ∈ s.gone) (fault) :
    s.queue.increase (s.less missing) k fault = (.ok (), s.queue) := by
  by_cases hin : k ∈ s.inside
  · obtain ⟨i, e, hi, he, rfl⟩ := hs.tidy.exists_entry hin
    unfold increase
    rw [hs.tidy.place?_eq hi he]
    dsimp only
    rw [siftUp_stays (decides hs.tidy hs.priced missing) hs.tidy.room hi fun hpos =>
      hs.ordered i hpos trivial hi]
    exact congrArg (Prod.mk _) (settle_quiet hs.tidy.quiet)
  · exact hs.tidy.increase_gone _ fault (hk.resolve_left hin) hin

variable [LawfulBEq κ]

theorem Sound.push (hk : k ∉ s.inside) (hp : has s.table k) :
    ∃ queue, s.queue.push (s.less missing) k = (.ok (), queue) ∧
      ({ s with queue, inside := k :: s.inside }).Sound := by
  have hpriced : ∀ k' ∈ k :: s.inside, has s.table k' := List.forall_mem_cons.mpr ⟨hp, hs.priced⟩
  have hkey : ∀ e ∈ (s.queue.heap.appended ⟨s.queue.count, k⟩).items, e.key ∈ k :: s.inside := by
    intro e he
    rw [items_appended hs.tidy.room, List.mem_append, List.mem_singleton] at he
    rcases he with he | rfl
    · exact List.mem_cons_of_mem k (hs.tidy.key_mem he)
    · exact List.mem_cons_self
  have hdec : Decides (entryLess (s.less missing)) s.Before
      (s.queue.heap.appended ⟨s.queue.count, k⟩) :=
    fun a ha b hb => less_eq missing (hpriced _ (hkey a ha)) (hpriced _ (hkey b hb))
  obtain ⟨heap, hinsert, hmoved, hord⟩ :=
    insert_ordered hs.tidy.room _ QueueEntry.id hs.ordered hdec
  refine ⟨_, ?_, hs.tidy.pushed hk hmoved, hpriced, hord⟩
  unfold PriorityQueue.push
  dsimp only
  rw [hinsert]
  rfl

theorem Sound.pop (hne : s.inside ≠ []) :
    ∃ k queue, s.queue.pop (s.less missing) = (.ok k, queue) ∧ k ∈ s.inside ∧
      (∀ k' ∈ s.inside, s.rank k' ≤ s.rank k) ∧
      ({ s with queue, inside := s.inside.erase k, gone := k :: s.gone }).Sound := by
  have hsize : 0 < s.queue.heap.size := by
    rw [hs.tidy.size_eq]
    exact List.length_pos_iff.mpr hne
  obtain ⟨a, b, heap, ha, hb, hextract, hmoved, hord, hmax⟩ :=
    extract_ordered hs.tidy.room hsize QueueEntry.id hs.ordered (decides hs.tidy hs.priced missing)
  refine ⟨a.key, _, ?_, hs.tidy.key_mem (mem_items hsize ha), ?_,
    hs.tidy.popped hsize ha hb hmoved, ?_, hord⟩
  · unfold PriorityQueue.pop
    rw [hextract]
    rfl
  · intro k hk
    obtain ⟨i, e, hi, he, rfl⟩ := hs.tidy.exists_entry hk
    exact not_lt.mp (hmax e (mem_items hi he))
  · exact fun k hk => hs.priced k (List.mem_of_mem_erase hk)

end

/-! ## Changes of priorities -/

variable [LawfulBEq κ]

omit [LinearOrder π] in
theorem priced_put (hpriced : ∀ k ∈ s.inside, has s.table k) (k) (p : π) :
    ∀ k' ∈ s.inside, has (put s.table k p) k' := by
  intro k' hk'
  unfold has
  rw [get?_put]
  split
  · rfl
  · exact hpriced k' hk'

omit [LinearOrder π] in
theorem rank_put (s : Session κ π) (hne : k' ≠ k) (p : π) :
    ({ s with table := put s.table k p } : Session κ π).rank k' = s.rank k' := by
  unfold rank
  rw [get?_put, beq_false_of_ne hne]
  rfl

theorem rank_le_put (s : Session κ π) (hp : ∀ m, get? s.table k = some m → m ≤ p) (k' : κ) :
    s.rank k' ≤ ({ s with table := put s.table k p }).rank k' := by
  by_cases hk : k' = k
  · subst hk
    unfold rank
    rw [get?_put, beq_self_eq_true, if_pos rfl]
    cases hm : get? s.table k' with
    | none => exact bot_le
    | some m => exact WithBot.coe_le_coe.mpr (hp m hm)
  · exact (s.rank_put hk p).ge

/-- The priority of a key outside of the queue changes nothing in it. -/
theorem Sound.price (hs : s.Sound) (hk : k ∉ s.inside) (p : π) :
    ({ s with table := put s.table k p }).Sound := by
  refine ⟨hs.tidy, priced_put hs.priced k p, ?_⟩
  rintro j hj - hjs ⟨a, b, ha, hb, hab⟩
  have hup := parent_lt hj
  have hkey (i : Nat) (e : QueueEntry κ) (hi : i < s.queue.heap.size)
      (he : s.queue.heap.data[i]? = some e) : e.key ≠ k :=
    fun h => hk (h ▸ hs.tidy.key_mem (mem_items hi he))
  have hak := hkey (parent j) a (lt_trans hup hjs) ha
  have hbk := hkey j b hjs hb
  unfold Before at hab
  rw [s.rank_put hak, s.rank_put hbk] at hab
  exact hs.ordered j hj trivial hjs ⟨a, b, ha, hb, hab⟩

/-- Where the priority of a key in the queue has risen, only its item may be too large. -/
theorem Sound.raise (hs : s.Sound) (hi : i < s.queue.heap.size)
    (he : s.queue.heap.data[i]? = some e) (hp : ∀ m, get? s.table e.key = some m → m ≤ p) :
    Rises ({ s with table := put s.table e.key p }).Before s.queue.heap i := by
  have hrise := hs.ordered.rises hs.tidy.room i
  have hkey (j : Nat) (b : QueueEntry κ) (hj : j < s.queue.heap.size) (hji : j ≠ i)
      (hb : s.queue.heap.data[j]? = some b) : b.key ≠ e.key :=
    fun h => hji (hs.tidy.index_eq hj hb hi he h)
  constructor
  · rintro j hj hjs hji ⟨a, b, ha, hb, hab⟩
    unfold Before at hab
    rw [s.rank_put (hkey j b hjs hji hb)] at hab
    exact hrise.elsewhere j hj hjs hji ⟨a, b, ha, hb, (s.rank_le_put hp a.key).trans_lt hab⟩
  · rintro hpos j hj hjs hji ⟨a, b, ha, hb, hab⟩
    have hup := parent_lt hpos
    have hjup := parent_lt hj
    unfold Before at hab
    rw [s.rank_put (hkey (parent i) a (by omega) (by omega) ha),
      s.rank_put (hkey j b hjs (by omega) hb)] at hab
    exact hrise.across hpos j hj hjs hji ⟨a, b, ha, hb, hab⟩

/-! ## Whole sessions -/

/-- Every operation that is allowed keeps the invariant, and only `pop` on an empty queue fails. -/
theorem Sound.step (hs : s.Sound) (missing : κ → Fault) (hop : s.Allows op) :
    (s.step missing op).2.Sound ∧
      ((op = .pop → s.inside ≠ []) → ∃ answer, (s.step missing op).1 = .ok answer) := by
  cases op with
  | push k =>
    obtain ⟨queue, hpush, hsound⟩ := hs.push missing hop.1 hop.2
    refine hsound.answered none ?_
    dsimp only [Session.step]
    rw [hpush]
    rfl
  | pop =>
    by_cases hempty : s.inside = []
    · have hstep : s.step missing .pop = (.error .broken, s) := by
        dsimp only [Session.step]
        rw [hs.pop_empty missing hempty]
      rw [hstep]
      exact ⟨hs, fun hne => absurd hempty (hne rfl)⟩
    · obtain ⟨k, queue, hpop, -, -, hsound⟩ := hs.pop missing hempty
      refine hsound.answered (some k) ?_
      dsimp only [Session.step]
      rw [hpop]
  | raise k p =>
    have hmended : ∃ queue,
        s.queue.increase (less missing { s with table := put s.table k p }) k
          (missing k) = (.ok (), queue) ∧
        ({ s with table := put s.table k p, queue }).Sound := by
      by_cases hin : k ∈ s.inside
      · obtain ⟨i, e, hi, he, rfl⟩ := hs.tidy.exists_entry hin
        exact increase_sound (s := { s with table := put s.table e.key p }) hs.tidy
          (priced_put hs.priced e.key p) missing hi he (hs.raise hi he hop.2) _
      · have hgone := hop.1.resolve_left hin
        exact ⟨s.queue, hs.tidy.increase_gone _ _ hgone hin, hs.price hin p⟩
    obtain ⟨queue, hincrease, hsound⟩ := hmended
    refine hsound.answered none ?_
    dsimp only [Session.step]
    rw [hincrease]
    rfl
  | increase k =>
    refine hs.answered none ?_
    dsimp only [Session.step]
    rw [hs.increase missing hop]
    rfl
  | price k p => exact ⟨hs.price hop p, fun _ => ⟨none, rfl⟩⟩

theorem Reached.sound {missing : κ → Fault} (h : s.Reached missing) : s.Sound := by
  induction h with
  | start table => exact sound_start table
  | step _ hop ih => exact (ih.step missing hop).1

/-- The queue serves its keys by their priorities of now. -/
structure Serves (missing : κ → Fault) (s : Session κ π) : Prop where
  /-- No entry is more urgent than the one above it. -/
  ordered : ∀ i, 0 < i → i < s.queue.heap.size → ∃ e f m n,
    s.queue.heap.data[parent i]? = some e ∧ s.queue.heap.data[i]? = some f ∧
      get? s.table e.key = some m ∧ get? s.table f.key = some n ∧ n ≤ m
  /-- The place of every key in the queue is that of its entry in the heap. -/
  placed : ∀ k ∈ s.inside, ∃ i e, s.queue.place? k = some i ∧ i < s.queue.heap.size ∧
    get? s.queue.entries k = some e ∧ s.queue.heap.data[i]? = some e
  /-- The keys in the queue are those that were pushed and not popped, each once. -/
  keys : (s.queue.heap.items.map key).Perm s.inside ∧ s.inside.Nodup
  answers : ∀ op, s.Allows op → (op = .pop → s.inside ≠ []) →
    ∃ answer, (s.step missing op).1 = .ok answer
  /-- A key of highest priority is popped. -/
  greatest : s.inside ≠ [] → ∃ k n, (s.queue.pop (s.less missing)).1 = .ok k ∧ k ∈ s.inside ∧
    get? s.table k = some n ∧
      ∀ k' ∈ s.inside, ∃ m, get? s.table k' = some m ∧ m ≤ n
  empty : s.inside = [] → s.queue.pop (s.less missing) = (.error .broken, s.queue)
  /-- Mending changes nothing where no priority has risen. -/
  mended : ∀ k, k ∈ s.inside ∨ k ∈ s.gone → ∀ fault,
    s.queue.increase (s.less missing) k fault = (.ok (), s.queue)

end Session

/-- In every state of a session, the queue serves its keys by their priorities of now. -/
theorem served_by_priority [LinearOrder π] [LawfulBEq κ] {missing : κ → Fault} {s : Session κ π}
    (h : s.Reached missing) : s.Serves missing := by
  have hs := h.sound
  refine ⟨?_, ?_, ⟨hs.tidy.keys, hs.tidy.nodup⟩, fun op hop => (hs.step missing hop).2, ?_,
    hs.pop_empty missing, fun k hk fault => hs.increase missing hk fault⟩
  · intro i hpos hi
    have hup := lt_trans (parent_lt hpos) hi
    obtain ⟨e, he⟩ := exists_item hs.tidy.room hup
    obtain ⟨f, hf⟩ := exists_item hs.tidy.room hi
    obtain ⟨m, hm, hrm⟩ := hs.exists_priority (hs.tidy.key_mem (mem_items hup he))
    obtain ⟨n, hn, hrn⟩ := hs.exists_priority (hs.tidy.key_mem (mem_items hi hf))
    refine ⟨e, f, m, n, he, hf, hm, hn, WithBot.coe_le_coe.mp ?_⟩
    rw [← hrm, ← hrn]
    exact not_lt.mp fun hlt => hs.ordered i hpos trivial hi ⟨e, f, he, hf, hlt⟩
  · intro k hk
    obtain ⟨i, e, hi, he, rfl⟩ := hs.tidy.exists_entry hk
    exact ⟨i, e, hs.tidy.place?_eq hi he, hi, hs.tidy.current e (mem_items hi he), he⟩
  · intro hne
    obtain ⟨k, queue, hpop, hk, hmax, -⟩ := hs.pop missing hne
    obtain ⟨n, hn, hrn⟩ := hs.exists_priority hk
    refine ⟨k, n, congrArg Prod.fst hpop, hk, hn, fun k' hk' => ?_⟩
    obtain ⟨m, hm, hrm⟩ := hs.exists_priority hk'
    refine ⟨m, hm, WithBot.coe_le_coe.mp ?_⟩
    rw [← hrm, ← hrn]
    exact hmax k' hk'

/-- Three keys, of which the least urgent becomes the most urgent, is popped, and is pushed again
with another priority. -/
theorem served_by_priority_raised :
    let missing : Nat → Fault := fun _ => .broken
    let start : Session Nat Nat := { table := [(1, 1), (2, 7), (3, 5)] }
    let ops : List (Operation Nat Nat) :=
      [.push 1, .push 2, .push 3, .raise 1 9, .pop, .increase 1, .price 1 6, .push 1]
    let s := ops.foldl (fun s op => (s.step missing op).2) start
    s.Reached missing ∧ s.inside = [1, 3, 2] ∧ s.gone = [1] ∧
      (s.queue.pop (s.less missing)).1.toOption = some 2 ∧ s.Serves missing := by
  intro missing start ops s
  have h₁ : Session.Reached missing _ :=
    .step (.start start.table) (show Session.Allows _ (.push 1) from ⟨by decide, by decide⟩)
  have h₂ : Session.Reached missing _ :=
    .step h₁ (show Session.Allows _ (.push 2) from ⟨by decide, by decide⟩)
  have h₃ : Session.Reached missing _ :=
    .step h₂ (show Session.Allows _ (.push 3) from ⟨by decide, by decide⟩)
  have hraise : ∀ m, get? start.table 1 = some m → m ≤ 9 := by
    intro m hm
    obtain rfl : 1 = m := some.inj hm
    decide
  have h₄ : Session.Reached missing _ :=
    .step h₃ (show Session.Allows _ (.raise 1 9) from ⟨.inl (by decide), hraise⟩)
  have h₅ : Session.Reached missing _ := .step h₄ (show Session.Allows _ .pop from trivial)
  have h₆ : Session.Reached missing _ :=
    .step h₅ (show Session.Allows _ (.increase 1) from .inr (by decide +kernel))
  have h₇ : Session.Reached missing _ :=
    .step h₆ (show Session.Allows _ (.price 1 6) from (by decide +kernel : 1 ∉ _))
  have h₈ : s.Reached missing :=
    .step h₇ (show Session.Allows _ (.push 1) from ⟨by decide +kernel, by decide +kernel⟩)
  exact ⟨h₈, by decide +kernel, by decide +kernel, by decide +kernel, served_by_priority h₈⟩

end CompilerKit.PriorityQueue
