import CompilerKit.Proofs.Comparison
import CompilerKit.Proofs.Substitution

/-!
# Renaming

Types with binders are compared after the names of one binder have been put in for those of the
other. This works where every variable is bound by the next binder around it.

* `substitute_renamed`: putting in other names turns a renamed type into a renamed type. Below a
  further binder nothing is put in, because all variables there are its own.
* `equate_of_renamed`: a renamed type is taken for equal, by induction on the renaming.
* `variables_of_substitute`: something has to be put in for every variable, so that the comparison
  fails at those of other binders.
* `equate_renamed`: what is taken for equal, and what is not.
-/

namespace CompilerKit.Ty

open Bindings List

mutual

/-- The second type is the first with other names for what is bound. Below a binder there is no
`None`, and there are only variables of this binder; `R` says which ones go together. -/
inductive Renamed : (R : String → String → Prop) → (below : Bool) → Ty → Ty → Prop where
  | int : Renamed R below int int
  | bool : Renamed R below bool bool
  | void : Renamed R false void void
  | generic (h : R x y) : Renamed R below (generic x) (generic y)
  | all (hqs : qs.Nodup) (h : Renamed (fun x y => (y, x) ∈ qs.zip ps) true s t) :
      Renamed R below (all ps s a) (all qs t b)
  | tuple (h : RenamedIn R below ss ts) : Renamed R below (tuple ss a) (tuple ts b)
  | list (h : Renamed R below s t) : Renamed R below (list s) (list t)
  | function (h : RenamedIn R below ps qs) (hr : Renamed R below r s) :
      Renamed R below (function ps r a) (function qs s b)

inductive RenamedIn : (R : String → String → Prop) → (below : Bool) → List Ty → List Ty →
    Prop where
  | nil : RenamedIn R below [] []
  | cons (h : Renamed R below s t) (hs : RenamedIn R below ss ts) :
      RenamedIn R below (s :: ss) (t :: ts)

end

/-- The table that puts the first names in for the second ones. -/
abbrev renamings (ps qs : List String) : TypeTable :=
  putAll [] ((qs.zip ps).map fun (q, p) => (q, generic p))

theorem get?_renamings {ps qs : List String} {x y : String} (hqs : qs.Nodup)
    (h : (y, x) ∈ qs.zip ps) :
    get? (renamings ps qs) y = some (generic x) := by
  have hkeys : (((qs.zip ps).map fun (q, p) => (q, generic p)).map Prod.fst).Nodup := by
    rw [map_map, zip_eq_zip_take_min]
    change ((zip _ _).map Prod.fst).Nodup
    rw [map_fst_zip (by simp)]
    exact hqs.sublist (take_sublist _ _)
  rw [get?_putAll _ hkeys, get?_of_mem hkeys (mem_map.mpr ⟨_, h, rfl⟩)]
  rfl

mutual

/-- Other variables are put in for the variables of a renamed type. -/
theorem substitute_renamed {R S : String → String → Prop} {m : TypeTable} {s t : Ty}
    (h : Renamed R true s t) (hm : ∀ x y, R x y → ∃ z, get? m y = some (generic z) ∧ S x z) :
    ∃ u, substitute m t = .ok u ∧ Renamed S true s u := by
  cases h with
  | int => exact ⟨_, rfl, .int⟩
  | bool => exact ⟨_, rfl, .bool⟩
  | generic h =>
    obtain ⟨z, hz, hS⟩ := hm _ _ h
    exact ⟨_, by rw [substitute, hz], .generic hS⟩
  | all hqs h =>
    obtain ⟨u, hu, h⟩ := substitute_renamed h fun x y hxy =>
      ⟨y, (get?_inner y).trans (if_pos (of_mem_zip hxy).1), hxy⟩
    exact ⟨_, of_bind_ok hu rfl, .all hqs h⟩
  | tuple h =>
    obtain ⟨us, hus, h⟩ := substitutes_renamed h hm
    exact ⟨_, of_bind_ok hus rfl, .tuple h⟩
  | list h =>
    obtain ⟨u, hu, h⟩ := substitute_renamed h hm
    exact ⟨_, of_bind_ok hu rfl, .list h⟩
  | function h hr =>
    obtain ⟨us, hus, h⟩ := substitutes_renamed h hm
    obtain ⟨u, hu, hr⟩ := substitute_renamed hr hm
    exact ⟨_, of_bind_ok hus (of_bind_ok hu rfl), .function h hr⟩
termination_by sizeOf s

theorem substitutes_renamed {R S : String → String → Prop} {m : TypeTable} {ss ts : List Ty}
    (h : RenamedIn R true ss ts) (hm : ∀ x y, R x y → ∃ z, get? m y = some (generic z) ∧ S x z) :
    ∃ us, substitutes m ts = .ok us ∧ RenamedIn S true ss us := by
  cases h with
  | nil => exact ⟨_, rfl, .nil⟩
  | cons h hs =>
    obtain ⟨u, hu, h⟩ := substitute_renamed h hm
    obtain ⟨us, hus, hs⟩ := substitutes_renamed hs hm
    exact ⟨_, of_bind_ok hu (of_bind_ok hus rfl), .cons h hs⟩
termination_by sizeOf ss

end

mutual

theorem equate_of_renamed {below : Bool} {s t : Ty} (h : Renamed Eq below s t) (place : Culprit) :
    equate .generics place s t = .ok () := by
  cases h with
  | int | bool | void => rfl
  | generic h =>
    cases h
    exact if_pos ((equal_iff (.generic _) _).mpr rfl)
  | all hqs h =>
    obtain ⟨u, hu, h⟩ := substitute_renamed h fun x y hxy => ⟨x, get?_renamings hqs hxy, rfl⟩
    exact of_bind_ok hu (equate_of_renamed h place)
  | tuple h => exact equates_of_renamed h place
  | list h => exact equate_of_renamed h place
  | function h hr =>
    rw [equate_function rfl rfl, ok_bind_iff]
    exact ⟨equates_of_renamed h place, equate_of_renamed hr place⟩
termination_by sizeOf s

theorem equates_of_renamed {below : Bool} {ss ts : List Ty} (h : RenamedIn Eq below ss ts)
    (place : Culprit) :
    equates .generics place ss ts = .ok () := by
  cases h with
  | nil => rfl
  | cons h hs =>
    rw [equates, ok_bind_iff]
    exact ⟨equate_of_renamed h place, equates_of_renamed hs place⟩
termination_by sizeOf ss

end

mutual

/-- Types are put in only if there is one for each variable. -/
theorem variables_of_substitute {m : TypeTable} {t u : Ty} (h : substitute m t = .ok u) :
    ∃ vs, genericVariables t = .ok vs ∧ ∀ v ∈ vs, ∃ s, get? m v = some s := by
  cases t with
  | generic x =>
    rw [substitute] at h
    split at h
    · next s hs => exact ⟨[x], rfl, forall_mem_singleton.mpr ⟨s, hs⟩⟩
    · cases h
  | all ps t =>
    obtain ⟨u, hu, -⟩ := ok_of_bind h
    obtain ⟨vs, hvs, hm⟩ := variables_of_substitute hu
    refine ⟨_, of_bind_ok hvs rfl, fun v hv => ?_⟩
    obtain ⟨hv, hps⟩ := mem_filter.mp hv
    have hs := hm v hv
    rwa [get?_inner, if_neg (by simpa using hps)] at hs
  | tuple ts =>
    obtain ⟨us, hus, -⟩ := ok_of_bind h
    exact variables_of_substitutes hus
  | list t =>
    obtain ⟨u, hu, -⟩ := ok_of_bind h
    exact variables_of_substitute (t := t) hu
  | function ps r =>
    obtain ⟨us, hus, h⟩ := ok_of_bind h
    obtain ⟨u, hu, -⟩ := ok_of_bind h
    obtain ⟨vs, hvs, hm⟩ := variables_of_substitutes hus
    obtain ⟨vs', hvs', hm'⟩ := variables_of_substitute hu
    exact ⟨_, of_bind_ok hvs (of_bind_ok hvs' rfl), fun v hv =>
      (mem_union.mp hv).elim (hm v) (hm' v)⟩
  | int | bool => exact ⟨[], rfl, nofun⟩
  | _ => cases h

theorem variables_of_substitutes {m : TypeTable} {ts us : List Ty} (h : substitutes m ts = .ok us) :
    ∃ vs, genericVariablesOf ts = .ok vs ∧ ∀ v ∈ vs, ∃ s, get? m v = some s := by
  cases ts with
  | nil => exact ⟨[], rfl, nofun⟩
  | cons t ts =>
    obtain ⟨u, hu, h⟩ := ok_of_bind h
    obtain ⟨us, hus, -⟩ := ok_of_bind h
    obtain ⟨vs, hvs, hm⟩ := variables_of_substitute hu
    obtain ⟨vs', hvs', hm'⟩ := variables_of_substitutes hus
    exact ⟨_, of_bind_ok hvs (of_bind_ok hvs' rfl), fun v hv =>
      (mem_union.mp hv).elim (hm v) (hm' v)⟩

end

/-- A type is taken for equal to the same with other names for what is bound, if below each binder
there are only variables of this binder. Where there are others, or there is a `None`, types with
binders are not taken for equal, not even to themselves. -/
theorem equate_renamed (place : Culprit) :
    (∀ s t, Renamed Eq false s t → equate .generics place s t = .ok ()) ∧
      ∀ ps s a qs t b, equate .generics place (all ps s a) (all qs t b) = .ok () →
        ∃ vs, genericVariables t = .ok vs ∧ ∀ v ∈ vs, v ∈ qs := by
  refine ⟨fun s t h => equate_of_renamed h place, fun ps s a qs t b h => ?_⟩
  obtain ⟨u, hu, -⟩ := ok_of_bind h
  obtain ⟨vs, hvs, hm⟩ := variables_of_substitute hu
  refine ⟨vs, hvs, fun v hv => ?_⟩
  obtain ⟨s, hs⟩ := hm v hv
  refine forall_putAll (P := fun e => e.1 ∈ qs) (forall_mem_nil _) (fun e he => ?_) _
    (mem_of_get? hs)
  obtain ⟨p, hp, rfl⟩ := mem_map.mp he
  exact (of_mem_zip hp).1

/-- Two names are exchanged, around a binder that has one of them too. -/
theorem equate_renamed_exchanged :
    let t (a b : String) : Ty := function [void] (all [a, b]
      (function [generic b, all ["a"] (list (generic "a"))] (tuple [generic a, int])))
    Renamed Eq false (t "a" "b") (t "b" "a") ∧
      equate .generics (.term .null) (t "a" "b") (t "b" "a") = .ok () := by
  intro t
  have h : Renamed Eq false (t "a" "b") (t "b" "a") :=
    .function (.cons .void .nil) (.all (by decide) (.function (.cons (.generic (by decide))
      (.cons (.all (by decide) (.list (.generic (by decide)))) .nil))
      (.tuple (.cons (.generic (by decide)) (.cons .int .nil)))))
  exact ⟨h, (equate_renamed (.term .null)).1 _ _ h⟩

end CompilerKit.Ty
