import CompilerKit.Proofs.Simulation
import CompilerKit.Typing.System

/-!
# Substitution

Types are put in for variables as they are, also below binders: a binder catches the variables of
its names in what is put in.

* `substitute_spec`: the variables of the result, by induction on the type. Below a binder the table
  maps what is bound to itself (`get?_inner`), so that nothing else is put in for it.
* `exposes_iff`: what no binder of the type binds is caught nowhere.
* `substitute_captures`: both together, as a property of substitution.
-/

namespace CompilerKit.Ty

open Bindings List

mutual

/-- The variable `v` has a place in the type where neither `v` nor `w` is bound. -/
def Exposes (v w : String) : Ty → Prop
  | generic x => x = v
  | all ps t _ => (v ∉ ps ∧ w ∉ ps) ∧ Exposes v w t
  | tuple ts _ => ExposesIn v w ts
  | list t => Exposes v w t
  | function ps r _ => ExposesIn v w ps ∨ Exposes v w r
  | _ => False

def ExposesIn (v w : String) : List Ty → Prop
  | [] => False
  | t :: ts => Exposes v w t ∨ ExposesIn v w ts

end

mutual

/-- The names that are bound somewhere in the type. -/
def binders : Ty → List String
  | all ps t _ => ps ++ binders t
  | tuple ts _ => bindersIn ts
  | list t => binders t
  | function ps r _ => bindersIn ps ++ binders r
  | _ => []

def bindersIn : List Ty → List String
  | [] => []
  | t :: ts => binders t ++ bindersIn ts

end

section

variable {m : TypeTable} {vs ps : List String}

/-- There is a type with known variables for each of the variables. -/
def Maps (m : TypeTable) (vs : List String) : Prop :=
  ∀ v ∈ vs, ∃ t ws, get? m v = some t ∧ genericVariables t = .ok ws

/-- The type for the variable `v` has the variable `w`. -/
def Brings (m : TypeTable) (v w : String) : Prop :=
  ∃ t ws, get? m v = some t ∧ genericVariables t = .ok ws ∧ w ∈ ws

/-- The table below a binder, where what is bound stands for itself. -/
abbrev inner (m : TypeTable) (ps : List String) : TypeTable :=
  putAll m (ps.map fun p => (p, generic p))

theorem get?_inner (x) : get? (inner m ps) x = if x ∈ ps then some (generic x) else get? m x := by
  induction ps generalizing m with
  | nil => rfl
  | cons p ps ih =>
    refine (ih (m := put m p (generic p))).trans ?_
    by_cases hp : x = p
    · subst hp
      simp [get?_put]
    · simp [get?_put, hp]

theorem maps_inner (h : Maps m (vs.filter fun x => !ps.contains x)) : Maps (inner m ps) vs := by
  intro v hv
  rw [get?_inner]
  by_cases hp : v ∈ ps
  · exact ⟨generic v, [v], if_pos hp, rfl⟩
  · rw [if_neg hp]
    exact h v (by simp [hv, hp])

theorem brings_inner (hw : w ∉ ps) : Brings (inner m ps) v w ↔ v ∉ ps ∧ Brings m v w := by
  by_cases hv : v ∈ ps
  · have hne : w ≠ v := fun h => hw (h ▸ hv)
    simp [Brings, get?_inner, hv, genericVariables, hne]
  · simp [Brings, get?_inner, hv]

theorem mem_union {xs ys : List String} : x ∈ union xs ys ↔ x ∈ xs ∨ x ∈ ys := by
  by_cases hx : x ∈ xs <;> simp [union, hx]

theorem maps_union {xs ys : List String} : Maps m (union xs ys) ↔ Maps m xs ∧ Maps m ys := by
  simp only [Maps, mem_union, or_imp, forall_and]

end

mutual

theorem substitute_spec {t : Ty} (h : genericVariables t = .ok vs) (hm : Maps m vs) :
    ∃ u us, substitute m t = .ok u ∧ genericVariables u = .ok us ∧
      ∀ w, w ∈ us ↔ ∃ v, Exposes v w t ∧ Brings m v w := by
  cases t with
  | generic x =>
    cases h
    obtain ⟨s, ws, hs, hws⟩ := hm x (mem_singleton_self x)
    refine ⟨s, ws, by rw [substitute, hs], hws, fun w => ?_⟩
    simp [Exposes, Brings, hs, hws]
  | all ps t b =>
    obtain ⟨vs, hvs, h⟩ := ok_of_bind h
    cases h
    obtain ⟨u, us, hu, hus, hmem⟩ := substitute_spec hvs (maps_inner hm)
    refine ⟨all ps u b, _, of_bind_ok hu rfl, of_bind_ok hus rfl, fun w => ?_⟩
    -- a variable of this binder's own names is caught, wherever it comes from
    by_cases hw : w ∈ ps
    · simp [Exposes, hw]
    · simp [Exposes, hw, hmem w, brings_inner hw, and_left_comm, and_assoc]
  | tuple ts b =>
    obtain ⟨us, ws, hus, hws, hmem⟩ := substitutes_spec h hm
    exact ⟨tuple us, ws, of_bind_ok hus rfl, hws, hmem⟩
  | list t =>
    obtain ⟨u, us, hu, hus, hmem⟩ := substitute_spec (t := t) h hm
    exact ⟨list u, us, of_bind_ok hu rfl, hus, hmem⟩
  | function ps r b =>
    obtain ⟨vs, hvs, h⟩ := ok_of_bind h
    obtain ⟨vs', hvs', h⟩ := ok_of_bind h
    cases h
    rw [maps_union] at hm
    obtain ⟨qs, us, hqs, hus, hmem⟩ := substitutes_spec hvs hm.1
    obtain ⟨u, us', hu, hus', hmem'⟩ := substitute_spec hvs' hm.2
    refine ⟨function qs u, _, of_bind_ok hqs (of_bind_ok hu rfl),
      of_bind_ok hus (of_bind_ok hus' rfl), fun w => ?_⟩
    simp only [mem_union, hmem w, hmem' w, Exposes, or_and_right, exists_or]
  | int | bool =>
    cases h
    exact ⟨_, _, rfl, rfl, by simp [Exposes]⟩
  | _ => cases h

theorem substitutes_spec {ts : List Ty} (h : genericVariablesOf ts = .ok vs) (hm : Maps m vs) :
    ∃ us ws, substitutes m ts = .ok us ∧ genericVariablesOf us = .ok ws ∧
      ∀ w, w ∈ ws ↔ ∃ v, ExposesIn v w ts ∧ Brings m v w := by
  cases ts with
  | nil =>
    cases h
    exact ⟨_, _, rfl, rfl, by simp [ExposesIn]⟩
  | cons t ts =>
    obtain ⟨vs, hvs, h⟩ := ok_of_bind h
    obtain ⟨vs', hvs', h⟩ := ok_of_bind h
    cases h
    rw [maps_union] at hm
    obtain ⟨u, ws, hu, hws, hmem⟩ := substitute_spec hvs hm.1
    obtain ⟨us, ws', hus, hws', hmem'⟩ := substitutes_spec hvs' hm.2
    refine ⟨u :: us, _, of_bind_ok hu (of_bind_ok hus rfl),
      of_bind_ok hws (of_bind_ok hws' rfl), fun w => ?_⟩
    simp only [mem_union, hmem w, hmem' w, ExposesIn, or_and_right, exists_or]

end

mutual

/-- A variable of the type has a place where `w` is not bound, if `w` is bound nowhere. -/
theorem exposes_iff {t : Ty} (h : genericVariables t = .ok vs) (hw : w ∉ binders t) :
    Exposes v w t ↔ v ∈ vs := by
  cases t with
  | generic x =>
    cases h
    simp [Exposes, eq_comm]
  | all ps t b =>
    obtain ⟨vs, hvs, h⟩ := ok_of_bind h
    cases h
    rw [binders, mem_append, not_or] at hw
    simp [Exposes, hw.1, exposes_iff hvs hw.2, and_comm]
  | tuple ts b => exact exposesIn_iff h hw
  | list t => exact exposes_iff (t := t) h hw
  | function ps r b =>
    obtain ⟨vs, hvs, h⟩ := ok_of_bind h
    obtain ⟨vs', hvs', h⟩ := ok_of_bind h
    cases h
    rw [binders, mem_append, not_or] at hw
    rw [Exposes, exposesIn_iff hvs hw.1, exposes_iff hvs' hw.2, mem_union]
  | int | bool =>
    cases h
    simp [Exposes]
  | _ => cases h

theorem exposesIn_iff {ts : List Ty} (h : genericVariablesOf ts = .ok vs) (hw : w ∉ bindersIn ts) :
    ExposesIn v w ts ↔ v ∈ vs := by
  cases ts with
  | nil =>
    cases h
    simp [ExposesIn]
  | cons t ts =>
    obtain ⟨vs, hvs, h⟩ := ok_of_bind h
    obtain ⟨vs', hvs', h⟩ := ok_of_bind h
    cases h
    rw [bindersIn, mem_append, not_or] at hw
    rw [ExposesIn, exposes_iff hvs hw.1, exposesIn_iff hvs' hw.2, mem_union]

end

/-- Where a type is known for each of its variables, types are put in for them, and the result has
those of their variables that no binder around the place catches. If the binders of the type have
other names than all that is brought in, these are the variables of all the types that are put
in. -/
theorem substitute_captures (m : TypeTable) (t : Ty) (vs : List String)
    (h : genericVariables t = .ok vs) (hm : Maps m vs) :
    ∃ u us, substitute m t = .ok u ∧ genericVariables u = .ok us ∧
      (∀ w, w ∈ us ↔ ∃ v, Exposes v w t ∧ Brings m v w) ∧
      ((∀ v w, Brings m v w → w ∉ binders t) → ∀ w, w ∈ us ↔ ∃ v ∈ vs, Brings m v w) := by
  obtain ⟨u, us, hu, hus, hmem⟩ := substitute_spec h hm
  refine ⟨u, us, hu, hus, hmem, fun hclash w => ?_⟩
  rw [hmem w]
  constructor
  · rintro ⟨v, hv, hbrings⟩
    exact ⟨v, (exposes_iff h (hclash v w hbrings)).mp hv, hbrings⟩
  · rintro ⟨v, hv, hbrings⟩
    exact ⟨v, (exposes_iff h (hclash v w hbrings)).mpr hv, hbrings⟩

/-- The variable of the type that is put in is caught by the binder of its name. -/
theorem substitute_captures_clash :
    Brings [("b", generic "a")] "b" "a" ∧ ∃ u us,
      substitute [("b", generic "a")] (all ["a"] (generic "b")) = .ok u ∧
        genericVariables u = .ok us ∧ "a" ∉ us := by
  have hm : Maps [("b", generic "a")] ["b"] :=
    forall_mem_singleton.mpr ⟨generic "a", ["a"], rfl, rfl⟩
  obtain ⟨u, us, hu, hus, hmem, -⟩ := substitute_captures _ (all ["a"] (generic "b")) ["b"] rfl hm
  refine ⟨⟨generic "a", ["a"], rfl, rfl, mem_cons_self⟩, u, us, hu, hus, ?_⟩
  simp [hmem, Exposes]

end CompilerKit.Ty
