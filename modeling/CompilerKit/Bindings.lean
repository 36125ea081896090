/-!
# Bindings

Finite maps as lists of pairs in the order in which the keys were first bound. Binding a key again
keeps its place.
-/

namespace CompilerKit.Bindings

variable {κ α : Type} [BEq κ] {b more : List (κ × α)} {x : κ} {v : α} {P : κ × α → Prop}

def get? (b : List (κ × α)) (x : κ) : Option α := b.lookup x

def has (b : List (κ × α)) (x : κ) : Bool := (get? b x).isSome

/-- Bind a key, in its place if it is bound already and at the end otherwise. -/
def put : List (κ × α) → κ → α → List (κ × α)
  | [], x, v => [(x, v)]
  | (y, w) :: rest, x, v => if x == y then (y, v) :: rest else (y, w) :: put rest x v

def putAll (b : List (κ × α)) (more : List (κ × α)) : List (κ × α) :=
  more.foldl (fun b (x, v) => put b x v) b

def same [BEq α] (a b : List (κ × α)) : Bool :=
  a.length == b.length && a.all fun (x, v) => match get? b x with
    | some w => v == w
    | none => false

theorem get?_put [LawfulBEq κ] (b : List (κ × α)) (x y : κ) (v : α) :
    get? (put b x v) y = if y == x then some v else get? b y := by
  induction b with
  | nil => cases h : y == x <;> simp [put, get?, List.lookup_cons, h]
  | cons p rest ih =>
    obtain ⟨z, w⟩ := p
    simp only [get?] at ih ⊢
    cases hxz : x == z
    · cases hyz : y == z
      · simp [put, List.lookup_cons, hxz, hyz, ih]
      · have hyx : (y == x) = false := by
          rw [beq_eq_false_iff_ne] at hxz ⊢
          intro h
          exact hxz (h.symm.trans (eq_of_beq hyz))
        simp [put, List.lookup_cons, hxz, hyz, hyx]
    · have := eq_of_beq hxz
      subst this
      cases h : y == x <;> simp [put, List.lookup_cons, h]

theorem put_put [LawfulBEq κ] (b : List (κ × α)) (x : κ) (v w : α) :
    put (put b x v) x w = put b x w := by
  induction b with
  | nil => simp [put]
  | cons p rest ih =>
    obtain ⟨y, u⟩ := p
    cases hxy : x == y <;> simp [put, hxy, ih]

theorem mem_of_get? [LawfulBEq κ] (h : get? b x = some v) : (x, v) ∈ b := by
  induction b with
  | nil => cases h
  | cons p rest ih =>
    rw [get?, List.lookup_cons] at h
    cases hxp : x == p.1 with
    | false =>
      rw [hxp] at h
      exact List.mem_cons_of_mem _ (ih h)
    | true =>
      rw [hxp] at h
      cases h
      rw [eq_of_beq hxp]
      exact List.mem_cons_self

theorem get?_cons_of_mem [LawfulBEq κ] {p q : κ × α} {b b' : List (κ × α)}
    (h : ((p :: b).map Prod.fst).Nodup) (hq : q ∈ b) : get? (p :: b') q.1 = get? b' q.1 := by
  rw [List.map_cons, List.nodup_cons] at h
  have hne : (q.1 == p.1) = false := by
    rw [beq_eq_false_iff_ne]
    intro heq
    exact h.1 (heq ▸ List.mem_map_of_mem hq)
  rw [get?, List.lookup_cons, hne]
  rfl

theorem get?_of_mem [LawfulBEq κ] (hb : (b.map Prod.fst).Nodup) (h : (x, v) ∈ b) :
    get? b x = some v := by
  induction b with
  | nil => cases h
  | cons p rest ih =>
    rcases List.mem_cons.mp h with rfl | hrest
    · rw [get?, List.lookup_cons, beq_self_eq_true]
    · exact (get?_cons_of_mem hb hrest).trans (ih (List.nodup_cons.mp hb).2 hrest)

/-- Keys that are different bind over what has been bound before. -/
theorem get?_putAll [LawfulBEq κ] (b : List (κ × α)) (h : (more.map Prod.fst).Nodup) (x : κ) :
    get? (putAll b more) x = (get? more x).or (get? b x) := by
  induction more generalizing b with
  | nil => rfl
  | cons p more ih =>
    obtain ⟨y, v⟩ := p
    rw [List.map_cons, List.nodup_cons] at h
    change get? (putAll (put b y v) more) x = _
    rw [ih _ h.2, get?_put]
    simp only [get?, List.lookup_cons]
    cases hxy : x == y with
    | false => rfl
    | true =>
      have hnone : List.lookup x more = none := by
        rw [List.lookup_eq_none_iff]
        intro q hq
        rw [eq_of_beq hxy, bne_iff_ne]
        intro hy
        exact h.1 (List.mem_map.mpr ⟨q, hq, hy.symm⟩)
      rw [hnone]
      rfl

theorem forall_put [LawfulBEq κ] (h : ∀ e ∈ b, P e) (hx : P (x, v)) : ∀ e ∈ put b x v, P e := by
  induction b with
  | nil => exact List.forall_mem_singleton.mpr hx
  | cons p rest ih =>
    obtain ⟨y, w⟩ := p
    obtain ⟨hy, hrest⟩ := List.forall_mem_cons.mp h
    rw [put]
    split
    · next hxy => exact List.forall_mem_cons.mpr ⟨eq_of_beq hxy ▸ hx, hrest⟩
    · exact List.forall_mem_cons.mpr ⟨hy, ih hrest⟩

theorem forall_putAll [LawfulBEq κ] (h : ∀ e ∈ b, P e) (hmore : ∀ e ∈ more, P e) :
    ∀ e ∈ putAll b more, P e :=
  List.foldlRecOn (motive := fun b => ∀ e ∈ b, P e) more _ h fun _ h p hp =>
    forall_put h (hmore p hp)

theorem has_cons (p : κ × α) (b : List (κ × α)) (x : κ) :
    has (p :: b) x = (x == p.1 || has b x) := by
  unfold has get?
  rw [List.lookup_cons]
  cases x == p.1 <;> rfl

theorem has_iff_mem_keys [LawfulBEq κ] : has b x = true ↔ x ∈ b.map Prod.fst := by
  induction b with
  | nil => simp [has, get?]
  | cons p rest ih => simp [has_cons, ih]

/-- A key that is bound stays where it is; a new one comes last. -/
theorem keys_put [LawfulBEq κ] (b : List (κ × α)) (x : κ) (v : α) :
    (put b x v).map Prod.fst =
      if has b x then b.map Prod.fst else b.map Prod.fst ++ [x] := by
  induction b with
  | nil => rfl
  | cons p rest ih =>
    obtain ⟨y, w⟩ := p
    rw [put, has_cons]
    cases hxy : x == y
    · simp only [Bool.false_eq_true, if_false, List.map_cons, ih, Bool.false_or]
      split <;> rfl
    · simp

end CompilerKit.Bindings
