import CompilerKit.Proofs.Simulation
import CompilerKit.Typing.Blocks

/-!
# Checking under tables that know more

A table that knows less about the variables is easier to check under: what is checked under one
table is checked under every table that knows less, and comes to a type that knows less. While
blocks are checked, a table only comes to know more. Both need types that the type system tells
apart: a type that takes the place of another one must not be less than it, or beside it.
-/

namespace CompilerKit.Blocks

open Check List Bindings Ty

variable {s t : Ty} {a env : TypeTable}
variable {b : TypeTable} {S : Ty → Prop} {e : CheckError}

/-! ## Types and tables -/

/-- The first type knows no more than the second one. -/
def Below (s t : Ty) : Prop := s = .bottom ∨ s = t

theorem Below.refl (t) : Below t t := .inr rfl

theorem Below.trans (h : Below s t) (h' : Below t u) : Below s u := by
  rcases h with rfl | rfl
  · exact .inl rfl
  · exact h'

theorem Below.antisymm (h : Below s t) (h' : Below t s) : s = t := by
  rcases h with rfl | rfl
  · rcases h' with rfl | rfl <;> rfl
  · rfl

/-- The second table knows at least as much about every variable of the first one. -/
def TableBelow (a b : TypeTable) : Prop :=
  ∀ x s, get? a x = some s → ∃ t, get? b x = some t ∧ Below s t

/-- The second table is the first one after some checking: it has the variables of the first one in
their order, with types that know at least as much, and may have more variables after them. -/
inductive Rises : TypeTable → TypeTable → Prop where
  | nil (b : TypeTable) : Rises [] b
  | cons (x : String) {s t a b} (h : Below s t) (hab : Rises a b) :
      Rises ((x, s) :: a) ((x, t) :: b)

theorem Rises.refl (a) : Rises a a := by
  induction a with
  | nil => exact .nil []
  | cons p a ih => exact .cons p.1 (.refl p.2) ih

theorem Rises.trans (h : Rises a b) (h' : Rises b d) : Rises a d := by
  induction h generalizing d with
  | nil b => exact .nil d
  | cons x hst _ ih =>
    cases h' with
    | cons _ htu hbd => exact .cons x (hst.trans htu) (ih hbd)

theorem Rises.antisymm (h : Rises a b) (h' : Rises b a) : a = b := by
  induction h with
  | nil b =>
    cases h'
    rfl
  | cons x hst _ ih =>
    cases h' with
    | cons _ hts hba => rw [hst.antisymm hts, ih hba]

variable {x : String}

theorem rises_put (h : ∀ s, get? a x = some s → Below s t) : Rises a (put a x t) := by
  induction a with
  | nil => exact .nil _
  | cons p a ih =>
    obtain ⟨y, w⟩ := p
    rw [put]
    simp only [get?, lookup_cons] at h
    cases hxy : x == y with
    | true =>
      rw [hxy] at h
      exact .cons y (h w rfl) (.refl a)
    | false =>
      rw [hxy] at h
      exact .cons y (.refl w) (ih h)

theorem tableBelow_put (h : TableBelow a b) (x) (hst : Below s t) :
    TableBelow (put a x s) (put b x t) := by
  intro y u hu
  rw [get?_put] at hu ⊢
  cases hyx : y == x with
  | true =>
    rw [hyx] at hu
    cases hu
    exact ⟨t, rfl, hst⟩
  | false =>
    rw [hyx] at hu
    exact h y u hu

theorem mem_keys_put : y ∈ (put a x t).map Prod.fst ↔ y ∈ a.map Prod.fst ∨ y = x := by
  rw [← has_iff_mem_keys, ← has_iff_mem_keys, has, has, get?_put]
  by_cases hyx : y = x <;> simp [hyx]

theorem nodup_keys_put (h : (a.map Prod.fst).Nodup) (x t) : ((put a x t).map Prod.fst).Nodup := by
  rw [keys_put]
  split
  · exact h
  · next hx =>
    rw [has_iff_mem_keys] at hx
    refine nodup_append.mpr ⟨h, pairwise_singleton _ x, ?_⟩
    rintro y hy _ hz rfl
    rw [mem_singleton] at hz
    exact hx (hz ▸ hy)

/-! ## Types that are told apart -/

/-- A set of types, closed under what the rules make of types, of which the type system accepts no
two different ones as equal. -/
structure Apart (c : TypeSystem) (S : Ty → Prop) : Prop where
  forgives : forgivesBottom c
  bottom : S .bottom
  int : S .int
  bool : S .bool
  parts : ∀ {b}, S (.tuple ts b) → ∀ t ∈ ts, S t
  accepts : ∀ {t} (place : Culprit), S t → equate c place t t = .ok ()
  tells : ∀ {s t place}, S s → S t → equate c place s t = .ok () → s = .bottom ∨ t = .bottom ∨ s = t
  beq_iff : ∀ {s t}, S s → S t → ((s == t) ↔ s = t)

/-- All types of the table are in the set. -/
def Valued (S : Ty → Prop) (env : TypeTable) : Prop := ∀ x t, get? env x = some t → S t

theorem Valued.put (h : Valued S env) (x) (ht : S t) : Valued S (put env x t) := by
  intro y u hu
  rw [get?_put] at hu
  split at hu
  · cases hu
    exact ht
  · exact h y u hu

/-- The table binds every variable once, to a type in the set. -/
structure Tidy (S : Ty → Prop) (env : TypeTable) : Prop where
  nodup : (env.map Prod.fst).Nodup
  valued : Valued S env

theorem Tidy.put (h : Tidy S env) (x) (ht : S t) : Tidy S (put env x t) :=
  ⟨nodup_keys_put h.nodup x t, h.valued.put x ht⟩

/-- Two tables with types in the set, of which the second one knows more. -/
structure Related (S : Ty → Prop) (env m : TypeTable) : Prop where
  left : Valued S env
  right : Valued S m
  below : TableBelow env m

/-- Two types in the set, of which the second one knows more. -/
structure TyRel (S : Ty → Prop) (s t : Ty) : Prop where
  left : S s
  right : S t
  below : Below s t

theorem TyRel.refl (h : S t) : TyRel S t t := ⟨h, h, .refl t⟩

theorem Related.put (h : Related S env m) (x) (hst : TyRel S s t) :
    Related S (put env x s) (put m x t) :=
  ⟨h.left.put x hst.left, h.right.put x hst.right, tableBelow_put h.below x hst.below⟩

theorem combineTypes_of_ne (h : t ≠ .bottom) (s) : combineTypes t s = t := by
  cases t with
  | bottom => exact absurd rfl h
  | _ => rfl

section

variable (hS : Apart c S)
include hS

theorem Apart.valued_getD (h : Valued S env) (x) : S ((get? env x).getD .bottom) := by
  cases hx : get? env x with
  | none => exact hS.bottom
  | some t => exact h x t hx

theorem Apart.related_getD (h : Related S env m) (x) :
    TyRel S ((get? env x).getD .bottom) ((get? m x).getD .bottom) := by
  refine ⟨hS.valued_getD h.left x, hS.valued_getD h.right x, ?_⟩
  cases hx : get? env x with
  | none => exact .inl rfl
  | some s =>
    obtain ⟨t, ht, hst⟩ := h.below x s hx
    rwa [ht]

theorem Apart.equate_below (hs : TyRel S s s') (ht : TyRel S t t')
    (h : equate c place s' t' = .ok ()) : equate c place s t = .ok () := by
  rcases hs.below with rfl | rfl
  · exact equate_bottom hS.forgives (.inl rfl) place
  · rcases ht.below with rfl | rfl
    · exact equate_bottom hS.forgives (.inr rfl) place
    · exact h

/-- A variable that is assigned to comes to know more, and the more the more is known. -/
theorem Apart.combine (hs : TyRel S s s') (ht : TyRel S t t')
    (h : equate c place s' t' = .ok ()) : TyRel S (combineTypes t s) (combineTypes t' s') := by
  rcases ht.below with rfl | rfl
  · by_cases ht' : t' = .bottom
    · subst ht'
      exact hs
    · rw [combineTypes_of_ne ht']
      refine ⟨hs.left, ht.right, ?_⟩
      rcases hS.tells hs.right ht.right h with hbottom | hbottom | rfl
      · rcases hs.below with hs' | hs'
        · exact .inl hs'
        · exact .inl (hs'.trans hbottom)
      · exact absurd hbottom ht'
      · exact hs.below
  · by_cases ht' : t = .bottom
    · subst ht'
      exact hs
    · rwa [combineTypes_of_ne ht', combineTypes_of_ne ht']

end

/-! ## Checks -/

/-- Checking has come from a table to another one, which has the variables `V` too. -/
structure Gains (S : Ty → Prop) (V : List String) (env after : TypeTable) : Prop where
  tidy : Tidy S after
  rises : Rises env after
  keys : ∀ x, x ∈ after.map Prod.fst ↔ x ∈ env.map Prod.fst ∨ x ∈ V

theorem Gains.stay (h : Tidy S env) : Gains S [] env env := ⟨h, .refl env, fun x => by simp⟩

theorem Gains.trans {after} (h : Gains S V env mid) (h' : Gains S W mid after) :
    Gains S (V ++ W) env after where
  tidy := h'.tidy
  rises := h.rises.trans h'.rises
  keys x := by rw [h'.keys, h.keys, mem_append, or_assoc]

theorem Gains.put (h : Tidy S env) (x) (ht : S t) (hbelow : ∀ s, get? env x = some s → Below s t) :
    Gains S [x] env (put env x t) where
  tidy := h.put x ht
  rises := rises_put hbelow
  keys y := by rw [mem_keys_put, mem_singleton]

/-- The check `x` only adds to what a table knows. Where the check `y` succeeds, `x` succeeds with a
table that knows less, and gives something that knows less. -/
structure Monotone (S : Ty → Prop) (V : List String) {α : Type} (R : α → α → Prop)
    (x y : Check α) : Prop where
  gains : ∀ {env after a}, Tidy S env → x.run env = .ok (a, after) → R a a ∧ Gains S V env after
  below : ∀ {env m m' b}, Related S env m → y.run m = .ok (b, m') → ∃ a after,
    x.run env = .ok (a, after) ∧ R a b ∧ Related S after m'

/-- Nothing is said of what a check gives. -/
def Anything {α : Type} (_ _ : α) : Prop := True

namespace Monotone

variable {V W : List String} {α β : Type} {R : α → α → Prop} {Q : β → β → Prop}
  {x y : Check α}

theorem congr (h : Monotone S V R x y) (hVW : ∀ z, z ∈ V ↔ z ∈ W) : Monotone S W R x y where
  gains henv hx := by
    obtain ⟨ha, htidy, hrises, hkeys⟩ := h.gains henv hx
    exact ⟨ha, htidy, hrises, fun z => by rw [hkeys, hVW]⟩
  below := h.below

theorem throw (e e') : Monotone S V R (MonadExcept.throw e) (MonadExcept.throw e') where
  gains _ hx := by cases hx
  below _ hy := by cases hy

theorem never (h : ∀ env r, x.run env ≠ .ok r) : Monotone S V R x x where
  gains _ hx := absurd hx (h _ _)
  below _ hx := absurd hx (h _ _)

theorem given {p : Prop} [Decidable p] (h : p → Monotone S V R x y) :
    Monotone S V R (if p then x else MonadExcept.throw e)
      (if p then y else MonadExcept.throw e') := by
  split
  · next hp => exact h hp
  · exact throw e e'

theorem lacks (hp : p = false) :
    Monotone S V R (if p = true then x else MonadExcept.throw e)
      (if p = true then x else MonadExcept.throw e) := by
  rw [hp]
  exact throw e e

theorem lift {r r' : Except CheckError α} (hr : ∀ a, r = .ok a → R a a)
    (hr' : ∀ b, r' = .ok b → ∃ a, r = .ok a ∧ R a b) :
    Monotone S [] R (liftM r) (liftM r') where
  gains henv hx := by
    cases r with
    | error e => cases hx
    | ok a =>
      cases hx
      exact ⟨hr _ rfl, .stay henv⟩
  below hrel hy := by
    cases r' with
    | error e => cases hy
    | ok b =>
      cases hy
      obtain ⟨a, rfl, hab⟩ := hr' _ rfl
      exact ⟨a, _, rfl, hab, hrel⟩

theorem skip {a} (ha : R a a)
    (hy : ∀ {m m' : TypeTable} {b : α}, Valued S m → y.run m = .ok (b, m') → m' = m ∧ R a b) :
    Monotone S [] R (Pure.pure a) y where
  gains henv hx := by
    cases hx
    exact ⟨ha, .stay henv⟩
  below hrel hrun := by
    obtain ⟨rfl, hab⟩ := hy hrel.right hrun
    exact ⟨a, _, rfl, hab, hrel⟩

theorem pure {a} (ha : R a a) : Monotone S [] R (Pure.pure a) (Pure.pure a) := by
  refine skip ha fun _ hy => ?_
  cases hy
  exact ⟨rfl, ha⟩

theorem bind {f g : α → Check β} (hxy : Monotone S V R x y)
    (hfg : ∀ a b, R a b → Monotone S W Q (f a) (g b)) :
    Monotone S (V ++ W) Q (x >>= f) (y >>= g) where
  gains henv h := by
    obtain ⟨a, mid, hx, hf⟩ := bind_ok h
    obtain ⟨ha, hmid⟩ := hxy.gains henv hx
    obtain ⟨hb, hafter⟩ := (hfg a a ha).gains hmid.tidy hf
    exact ⟨hb, hmid.trans hafter⟩
  below hrel h := by
    obtain ⟨b, m1, hy, hg⟩ := bind_ok h
    obtain ⟨a, mid, hx, hab, hrel1⟩ := hxy.below hrel hy
    obtain ⟨a', after, hf, hab', hrel2⟩ := (hfg a b hab).below hrel1 hg
    refine ⟨a', after, ?_, hab', hrel2⟩
    rwa [StateT.run_bind, hx]

end Monotone

theorem run_equal (h : equate c place s t = .ok ()) (env) :
    (equal c s t place).run env = .ok ((), env) := by
  rw [equal, h]
  rfl

section

variable (hS : Apart c S)
include hS

theorem monotone_equal {s' t'} (place) (hs : TyRel S s s') (ht : TyRel S t t') :
    Monotone S [] Anything (equal c s t place) (equal c s' t' place) :=
  .lift (fun _ _ => trivial) fun _ h => ⟨(), hS.equate_below hs ht h, trivial⟩

theorem monotone_variableType (x) : Monotone S [x] (TyRel S) (variableType x) (variableType x) where
  gains {env} _ _ henv h := by
    cases h
    have ht := hS.valued_getD henv.valued x
    refine ⟨.refl ht, .put henv x ht fun s hs => ?_⟩
    rw [hs]
    exact .refl s
  below {env m} _ _ hrel h := by
    cases h
    have hst := hS.related_getD hrel x
    exact ⟨_, _, rfl, hst, hrel.put x hst⟩

theorem monotone_assign (x) (place) (ht : TyRel S t t') :
    Monotone S [x] Anything
      (do
        let u := (← find? x).getD .bottom
        equal c u t place
        bind x (combineTypes t u))
      (do
        let u := (← find? x).getD .bottom
        equal c u t' place
        bind x (combineTypes t' u)) where
  gains {env after _} henv h := by
    obtain ⟨_, _, hfind, h1⟩ := bind_ok h
    cases hfind
    obtain ⟨_, hequate, h2⟩ := bind_lift_ok h1
    cases h2
    have hu := hS.valued_getD henv.valued x
    have hcombine := hS.combine (.refl hu) (.refl ht.left) hequate
    refine ⟨trivial, .put henv x hcombine.left fun s hs => ?_⟩
    rw [hs] at hequate hu ⊢
    exact (hS.combine (.refl hu) ⟨hS.bottom, ht.left, .inl rfl⟩ hequate).below
  below {env m m' _} hrel h := by
    obtain ⟨_, _, hfind, h1⟩ := bind_ok h
    cases hfind
    obtain ⟨_, hequate, h2⟩ := bind_lift_ok h1
    cases h2
    have hu := hS.related_getD hrel x
    refine ⟨(), put env x (combineTypes t _), ?_, trivial, hrel.put x (hS.combine hu ht hequate)⟩
    change (equal c _ t place >>= fun _ => bind x _).run env = _
    rw [StateT.run_bind, run_equal (hS.equate_below hu ht hequate)]
    rfl

end

end CompilerKit.Blocks
