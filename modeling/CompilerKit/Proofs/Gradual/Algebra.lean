import CompilerKit.Proofs.Gradual.Precision

/-!
# The algebra of gradual types

Consistency is reflexive and symmetric, and joins of types that are consistent with each other are
commutative, idempotent and associative and stay consistent with the types. The type of a list of
items is such a join, and does not depend on the order of items that are consistent with each other.
-/

namespace CompilerKit.Ty

open List

/-- The types of gradual programs, with their parts in lists. -/
inductive Gradual : Ty → Prop where
  | int : Gradual .int
  | bool : Gradual .bool
  | void : Gradual .void
  | any : Gradual .any
  | tuple (h : ∀ p ∈ ps, Gradual p) : Gradual (.tuple ps)
  | list (h : Gradual p) : Gradual (.list p)
  | function (h : ∀ p ∈ ps, Gradual p) (hr : Gradual r) : Gradual (.function ps r)

variable {s t u : Ty} {ps : List Ty}

theorem join_any (s : Ty) : join s any = s := by
  cases s <;> simp [join]

/-! ## One type -/

theorem consistents_self (h : ∀ p ∈ ps, consistent p p ∧ join p p = p) :
    consistents ps ps ∧ joins ps ps = ps := by
  induction ps with
  | nil => exact ⟨rfl, rfl⟩
  | cons p ps ih =>
    rw [forall_mem_cons] at h
    simp [consistents, joins, h.1, ih h.2]

theorem consistent_self (h : Gradual t) : consistent t t ∧ join t t = t := by
  induction h with
  | tuple _ ih => simpa [consistent, join] using consistents_self ih
  | list _ ih => simpa [consistent, join] using ih
  | function _ _ ih ihr =>
    obtain ⟨hcons, hjoin⟩ := consistents_self ih
    simp [consistent, join, hcons, hjoin, ihr]
  | _ => exact ⟨rfl, rfl⟩

/-! ## Two types -/

theorem consistents_comm
    (h : ∀ p ∈ ps, ∀ q ∈ qs, consistent p q = consistent q p ∧
      (consistent p q → join p q = join q p)) :
    consistents ps qs = consistents qs ps ∧
      (consistents ps qs → joins ps qs = joins qs ps) := by
  induction ps generalizing qs with
  | nil => cases qs <;> simp [consistents, joins]
  | cons p ps ih =>
    cases qs with
    | nil => simp [consistents, joins]
    | cons q qs =>
      simp only [forall_mem_cons] at h
      obtain ⟨hcons, hjoin⟩ := ih fun p hp q hq => (h.2 p hp).2 q hq
      simp only [consistents, joins, h.1.1.1, hcons, Bool.and_eq_true, true_and]
      rintro ⟨hp, hps⟩
      rw [h.1.1.2 (h.1.1.1.trans hp), hjoin (hcons.trans hps)]

theorem consistent_comm (hs : Gradual s) (ht : Gradual t) :
    consistent s t = consistent t s ∧ (consistent s t → join s t = join t s) := by
  induction hs generalizing t with
  | any => simp [consistent, consistent_any, join, join_any]
  | tuple _ ih =>
    cases ht with
    | tuple hqs =>
      obtain ⟨hcons, hjoin⟩ := consistents_comm fun p hp q hq => ih p hp (hqs q hq)
      simp only [consistent, join]
      exact ⟨hcons, fun h => by rw [hjoin h]⟩
    | _ => exact ⟨rfl, by simp [consistent, join, BEq.beq, equal]⟩
  | list _ ih =>
    cases ht with
    | list hq =>
      simp only [consistent, join]
      exact ⟨(ih hq).1, fun h => by rw [(ih hq).2 h]⟩
    | _ => exact ⟨rfl, by simp [consistent, join, BEq.beq, equal]⟩
  | function _ _ ih ihr =>
    cases ht with
    | function hqs hs =>
      obtain ⟨hcons, hjoin⟩ := consistents_comm fun p hp q hq => ih p hp (hqs q hq)
      simp only [consistent, join, hcons, (ihr hs).1, Bool.and_eq_true, true_and]
      rintro ⟨hps, hr⟩
      rw [hjoin (hcons.trans hps), (ihr hs).2 ((ihr hs).1.trans hr)]
    | _ => exact ⟨rfl, by simp [consistent, join, BEq.beq, equal]⟩
  | _ => cases ht <;> exact ⟨rfl, by simp [consistent, join, BEq.beq, equal]⟩

/-! ## Three types -/

theorem joins_consistents
    (h : ∀ p ∈ ps, ∀ q ∈ qs, ∀ r ∈ rs, consistent p q → consistent q r →
      consistent p r → consistent (join p q) r ∧
        join (join p q) r = join p (join q r))
    (hpq : consistents ps qs) (hqr : consistents qs rs)
    (hpr : consistents ps rs) :
    consistents (joins ps qs) rs ∧ joins (joins ps qs) rs = joins ps (joins qs rs) := by
  induction ps generalizing qs rs with
  | nil => simp [joins, consistents]
  | cons p ps ih =>
    cases qs with
    | nil => simp [joins, consistents]
    | cons q qs =>
      cases rs with
      | nil => simp [joins, consistents]
      | cons r rs =>
        simp only [forall_mem_cons] at h
        simp only [consistents, Bool.and_eq_true] at hpq hqr hpr
        obtain ⟨hcons, hjoin⟩ := h.1.1.1 hpq.1 hqr.1 hpr.1
        obtain ⟨hcons', hjoin'⟩ :=
          ih (fun p hp q hq r hr => ((h.2 p hp).2 q hq).2 r hr) hpq.2 hqr.2 hpr.2
        simp [joins, consistents, hcons, hjoin, hcons', hjoin']

theorem join_consistent (hs : Gradual s) (ht : Gradual t) (hu : Gradual u)
    (hst : consistent s t) (htu : consistent t u) (hsu : consistent s u) :
    consistent (join s t) u ∧ join (join s t) u = join s (join t u) := by
  induction hs generalizing t u with
  | any => simp [join, htu]
  | tuple _ ih =>
    cases ht with
    | any => simp [join, hsu]
    | tuple hqs =>
      cases hu with
      | any => simp [join, join_any, consistent_any]
      | tuple hrs =>
        obtain ⟨hcons, hjoin⟩ := joins_consistents
          (fun p hp q hq r hr => ih p hp (hqs q hq) (hrs r hr)) hst htu hsu
        simp only [join, consistent, hjoin, and_true]
        exact hcons
      | _ => cases hsu
    | _ => cases hst
  | list _ ih =>
    cases ht with
    | any => simp [join, hsu]
    | list hq =>
      cases hu with
      | any => simp [join, join_any, consistent_any]
      | list hr =>
        obtain ⟨hcons, hjoin⟩ := ih hq hr hst htu hsu
        simp only [join, consistent, hjoin, and_true]
        exact hcons
      | _ => cases hsu
    | _ => cases hst
  | function _ _ ih ihr =>
    cases ht with
    | any => simp [join, hsu]
    | function hqs hq =>
      cases hu with
      | any => simp [join, join_any, consistent_any]
      | function hrs hr =>
        simp only [consistent, Bool.and_eq_true] at hst htu hsu
        obtain ⟨hcons, hjoin⟩ := joins_consistents
          (fun p hp q hq r hr => ih p hp (hqs q hq) (hrs r hr)) hst.1 htu.1 hsu.1
        obtain ⟨hcons', hjoin'⟩ := ihr hq hr hst.2 htu.2 hsu.2
        simp [join, consistent, hcons, hjoin, hcons', hjoin']
      | _ => cases hsu
    | _ => cases hst
  | _ =>
    cases ht with
    | any => simp [join, hsu]
    | _ => cases hu <;> first | exact ⟨rfl, rfl⟩ | cases hsu

/-- The laws of consistency and of joins. -/
theorem gradual_algebra :
    (∀ t, Gradual t → consistent t t = true) ∧
    (∀ s t, Gradual s → Gradual t → consistent s t = consistent t s) ∧
    ∀ s t u, Gradual s → Gradual t → Gradual u →
      consistent s t = true → consistent t u = true → consistent s u = true →
      join s t = join t s ∧ join s s = s ∧ join (join s t) u = join s (join t u) ∧
      consistent (join s t) s = true ∧ consistent (join s t) t = true ∧
      consistent (join s t) u = true := by
  refine ⟨fun t ht => (consistent_self ht).1, fun s t hs ht => (consistent_comm hs ht).1, ?_⟩
  intro s t u hs ht hu hst htu hsu
  have hts : consistent t s = true := (consistent_comm hs ht).1.symm.trans hst
  exact ⟨(consistent_comm hs ht).2 hst, (consistent_self hs).2,
    (join_consistent hs ht hu hst htu hsu).2,
    (join_consistent hs ht hs hst hts (consistent_self hs).1).1,
    (join_consistent hs ht ht hst (consistent_self ht).1 hst).1,
    (join_consistent hs ht hu hst htu hsu).1⟩

/-- Vectors of different lengths, with components known on one side only. -/
theorem gradual_algebra_tuples :
    consistent (.tuple [.int, .any]) (.tuple [.any, .bool, .int]) = true ∧
      join (.tuple [.int, .any]) (.tuple [.any, .bool, .int]) =
        join (.tuple [.any, .bool, .int]) (.tuple [.int, .any]) := by
  have hs : Gradual (.tuple [.int, .any]) := .tuple (by simp [Gradual.int, Gradual.any])
  have ht : Gradual (.tuple [.any, .bool, .int]) :=
    .tuple (by simp [Gradual.int, Gradual.any, Gradual.bool])
  exact ⟨rfl, (gradual_algebra.2.2 _ _ .any hs ht .any rfl rfl rfl).1⟩

/-! ## Lists of items -/

theorem Gradual.join (hs : Gradual s) (ht : Gradual t) : Gradual (join s t) := by
  have hlist {ps qs : List Ty} (h : ∀ p ∈ ps, ∀ q ∈ qs, Gradual (Ty.join p q)) :
      ∀ r ∈ joins ps qs, Gradual r := by
    induction ps generalizing qs with
    | nil => simp [joins]
    | cons p ps ih =>
      cases qs with
      | nil => simp [joins]
      | cons q qs =>
        simp only [forall_mem_cons] at h
        rw [joins, forall_mem_cons]
        exact ⟨h.1.1, ih fun p hp q hq => (h.2 p hp).2 q hq⟩
  induction hs generalizing t with
  | any => exact ht
  | @tuple ps hps ih =>
    cases ht with
    | tuple hqs => exact .tuple (hlist fun p hp q hq => ih p hp (hqs q hq))
    | _ => exact .tuple hps
  | list hp ih =>
    cases ht with
    | list hq => exact .list (ih hq)
    | _ => exact .list hp
  | function hps hr ih ihr =>
    cases ht with
    | function hqs hs => exact .function (hlist fun p hp q hq => ih p hp (hqs q hq)) (ihr hs)
    | _ => exact .function hps hr
  | _ => cases ht <;> constructor

/-- Joins of types that are consistent with each other do not depend on the order. -/
theorem foldl_join_perm (h : ts ~ us) (hts : ∀ t ∈ ts, Gradual t)
    (hcons : ∀ s ∈ ts, ∀ t ∈ ts, consistent s t) (hs : Gradual s)
    (hstart : ∀ t ∈ ts, consistent s t) : ts.foldl join s = us.foldl join s := by
  induction h generalizing s with
  | nil => rfl
  | cons t _ ih =>
    simp only [forall_mem_cons] at hts hcons hstart
    refine ih hts.2 (fun u hu v hv => (hcons.2 u hu).2 v hv) (hs.join hts.1) fun u hu => ?_
    exact (join_consistent hs hts.1 (hts.2 u hu) hstart.1 (hcons.1.2 u hu) (hstart.2 u hu)).1
  | swap t u l =>
    simp only [forall_mem_cons] at hts hcons hstart
    obtain ⟨hu, ht, -⟩ := hts
    obtain ⟨hsu, hst, -⟩ := hstart
    have hut := hcons.1.2.1
    have htu := hcons.2.1.1
    simp only [foldl_cons]
    rw [(join_consistent hs hu ht hsu hut hst).2, (join_consistent hs ht hu hst htu hsu).2,
      (consistent_comm hu ht).2 hut]
  | trans h _ ih ih' =>
    have hmem (t : Ty) := h.mem_iff (a := t)
    simp only [← hmem] at ih'
    exact (ih hts hcons hs hstart).trans (ih' hts hcons hs hstart)

variable {items : List (Ty × Expr)} {Γ : TypeTable}

theorem joinItems_cons (p : Ty × Expr) : (joinItems (p :: items) s).run Γ =
    if consistent s p.1 then (joinItems items (join s p.1)).run Γ
    else .error (.inconsistent s p.1 (.expr p.2)) := by
  simp only [joinItems, foldlM_cons, requireConsistent]
  split <;> rfl

theorem joinItems_run (hitems : ∀ p ∈ items, Gradual p.1)
    (hcons : ∀ p ∈ items, ∀ q ∈ items, consistent p.1 q.1) (hs : Gradual s)
    (hstart : ∀ p ∈ items, consistent s p.1) :
    (joinItems items s).run Γ = .ok ((items.map Prod.fst).foldl join s, Γ) := by
  induction items generalizing s with
  | nil => rfl
  | cons p items ih =>
    simp only [forall_mem_cons] at hitems hcons hstart
    rw [joinItems_cons, if_pos hstart.1, map_cons, foldl_cons]
    refine ih hitems.2 (fun q hq => (hcons.2 q hq).2) (hs.join hitems.1) fun q hq => ?_
    exact (join_consistent hs hitems.1 (hitems.2 q hq) hstart.1 (hcons.1.2 q hq) (hstart.2 q hq)).1

/-- The items of a list are accepted in every order if and only if any two of them are consistent,
and then all orders give the same type. -/
theorem joinItems_perm_iff (hitems : ∀ p ∈ items, Gradual p.1) (Γ : TypeTable) :
    ((∀ p ps, p :: ps ~ items → ∃ r, (joinItems (p :: ps) p.1).run Γ = .ok r) ↔
      ∀ p ∈ items, ∀ q ∈ items, consistent p.1 q.1 = true) ∧
    ((∀ p ∈ items, ∀ q ∈ items, consistent p.1 q.1 = true) →
      ∃ t, ∀ p ps, p :: ps ~ items → (joinItems (p :: ps) p.1).run Γ = .ok (t, Γ)) := by
  have haccept (hcons : ∀ p ∈ items, ∀ q ∈ items, consistent p.1 q.1 = true) (p ps)
      (hperm : p :: ps ~ items) :
      (joinItems (p :: ps) p.1).run Γ = .ok ((items.map Prod.fst).foldl join any, Γ) := by
    have hp := hitems p (hperm.subset mem_cons_self)
    simp only [← hperm.mem_iff] at hitems hcons
    rw [joinItems_run hitems hcons hp (hcons p mem_cons_self),
      ← foldl_join_perm (hperm.map Prod.fst) (by simpa using hitems) (by simpa using hcons) .any
        (by simp [consistent])]
    simp [join, (consistent_self hp).2]
  refine ⟨⟨fun h p hp q hq => ?_, fun h p ps hperm => ⟨_, haccept h p ps hperm⟩⟩,
    fun h => ⟨_, haccept h⟩⟩
  have hself := consistent_self (hitems p hp)
  by_cases hne : q = p
  · rw [hne]
    exact hself.1
  -- In some order the two come first, where the second is compared with the first.
  obtain ⟨l, r, rfl⟩ := append_of_mem hp
  obtain ⟨l', r', hl⟩ : ∃ l' r', l ++ r = l' ++ q :: r' := append_of_mem (by grind)
  have hperm : p :: q :: (l' ++ r') ~ l ++ p :: r := by
    refine .trans (.cons p ?_) perm_middle.symm
    rw [hl]
    exact perm_middle.symm
  obtain ⟨_, hr⟩ := h p _ hperm
  rw [joinItems_cons, if_pos hself.1, hself.2, joinItems_cons] at hr
  split at hr
  · assumption
  · contradiction

theorem joinItems_perm_iff_tuples : ∃ t, ∀ p ps,
    p :: ps ~ [(.tuple [.int, .any], .name "x" {}), (.tuple [.any], .name "y" {})] →
      (joinItems (p :: ps) p.1).run {} = .ok (t, {}) :=
  (joinItems_perm_iff (by simp [Gradual.tuple, Gradual.int, Gradual.any]) {}).2
    (by simp [consistent, consistents]; rfl)

end CompilerKit.Ty
