import Mathlib.Data.List.Forall2
import CompilerKit.Proofs.Comparison

/-!
# Matching

What is deduced for the variables in the types of parameters makes these types equal to those of the
arguments.
-/

namespace CompilerKit.Ty

open Bindings List

/-- The types have the same shape, as far as the first one goes. It has no bound variables. Where it
has a variable, the second one has a type that compares equal to itself. -/
inductive Aligned (place : Culprit) : Ty → Ty → Prop where
  | int : Aligned place .int .int
  | bool : Aligned place .bool .bool
  | generic (x : String) {t} (h : equate .generics place t t = .ok ()) :
      Aligned place (.generic x) t
  | tuple (hlen : ps.length = ts.length) (h : ∀ p ∈ ps.zip ts, Aligned place p.1 p.2) :
      Aligned place (.tuple ps) (.tuple ts)
  | list (h : Aligned place p t) : Aligned place (.list p) (.list t)
  | function {ps ts r s} (hlen : ps.length = ts.length) (h : ∀ p ∈ ps.zip ts, Aligned place p.1 p.2)
      (hr : Aligned place r s) : Aligned place (.function ps r) (.function ts s)

/-- Everything in the first table is in the second one. -/
def Extends (m m' : TypeTable) : Prop := ∀ ⦃v s⦄, get? m v = some s → get? m' v = some s

/-- The table is extended so that substituting in `p` gives a type that `t` compares equal to, now
and later on. -/
def Solves (place : Culprit) (m m' : TypeTable) (p t : Ty) : Prop :=
  Extends m m' ∧ ∃ u, (∀ l, Extends m' l → substitute l p = .ok u) ∧
    equate .generics place t u = .ok ()

variable {place : Culprit} {m : TypeTable} {p t : Ty} {ps ts us : List Ty}

theorem Extends.refl (m : TypeTable) : Extends m m := fun _ _ h => h

theorem Extends.trans (h : Extends l m) (h' : Extends m m') : Extends l m' :=
  fun _ _ hs => h' (h hs)

theorem extends_put (hx : get? m x = none) : Extends m (put m x t) := by
  intro v s hs
  rw [get?_put, if_neg]
  · exact hs
  · rw [beq_iff_eq]
    rintro rfl
    cases hx.symm.trans hs

theorem matchAll_solves (hlen : ps.length = ts.length)
    (h : ∀ p ∈ ps.zip ts, ∀ m m', matchTypes place m p.1 p.2 = .ok m' → Solves place m m' p.1 p.2)
    (hm : matchAll place m ps ts = .ok m') :
    Extends m m' ∧ ∃ us, (∀ l, Extends m' l → substitutes l ps = .ok us) ∧
      Forall₂ (fun t u => equate .generics place t u = .ok ()) ts us := by
  induction ps generalizing ts m with
  | nil =>
    obtain rfl := length_eq_zero_iff.mp hlen.symm
    cases hm
    exact ⟨.refl _, [], fun _ _ => rfl, .nil⟩
  | cons p ps ih =>
    cases ts with
    | nil => cases hlen
    | cons t ts =>
      obtain ⟨m1, hm1, hm⟩ := ok_of_bind hm
      rw [zip_cons_cons, forall_mem_cons] at h
      obtain ⟨hext, u, hu, heq⟩ := h.1 m m1 hm1
      obtain ⟨hext', us, hus, heqs⟩ := ih (Nat.succ.inj hlen) h.2 hm
      refine ⟨hext.trans hext', u :: us, fun l hl => ?_, .cons heq heqs⟩
      rw [substitutes, hu l (hext'.trans hl), hus l hl]
      rfl

theorem equates_of_forall₂ (h : Forall₂ (fun t u => equate .generics place t u = .ok ()) ts us) :
    equates .generics place ts us = .ok () :=
  (equates_iff ..).mpr fun _ hp => (forall₂_iff_zip.mp h).2 hp

theorem matchTypes_solves (ha : Aligned place p t) (h : matchTypes place m p t = .ok m') :
    Solves place m m' p t := by
  induction ha generalizing m m' with
  | int =>
    cases h
    exact ⟨.refl m, .int, fun _ _ => rfl, rfl⟩
  | bool =>
    cases h
    exact ⟨.refl m, .bool, fun _ _ => rfl, rfl⟩
  | @generic x t ht =>
    rw [matchTypes] at h
    cases hx : get? m x with
    | some s =>
      rw [hx] at h
      obtain ⟨_, heq, h⟩ := ok_of_bind h
      cases h
      exact ⟨.refl m, s, fun l hl => by rw [substitute, hl hx], heq⟩
    | none =>
      rw [hx] at h
      cases h
      refine ⟨extends_put hx, t, fun l hl => ?_, ht⟩
      have hget : get? (put m x t) x = some t := by rw [get?_put, if_pos (beq_self_eq_true x)]
      rw [substitute, hl hget]
  | tuple hlen _ ih =>
    obtain ⟨hext, us, hus, heqs⟩ := matchAll_solves hlen (fun p hp _ _ => ih p hp) h
    exact ⟨hext, .tuple us, fun l hl => by rw [substitute, hus l hl]; rfl,
      equates_of_forall₂ heqs⟩
  | list _ ih =>
    obtain ⟨hext, u, hu, heq⟩ := ih h
    exact ⟨hext, .list u, fun l hl => by rw [substitute, hu l hl]; rfl, heq⟩
  | function hlen _ _ ih ihr =>
    obtain ⟨m1, hm1, h⟩ := ok_of_bind h
    obtain ⟨hext, us, hus, heqs⟩ := matchAll_solves hlen (fun p hp _ _ => ih p hp) hm1
    obtain ⟨hext', u, hu, heq⟩ := ihr h
    refine ⟨hext.trans hext', .function us u, fun l hl => ?_, ?_⟩
    · rw [substitute, hus l (hext'.trans hl), hu l hl]
      rfl
    · rw [equate_function rfl rfl, ok_bind_iff]
      exact ⟨equates_of_forall₂ heqs, heq⟩

/-- Where the types of parameters and arguments are aligned and matching deduces types for the
variables, substituting them in the parameters gives types that the arguments compare equal to. -/
theorem matchAll_sound (hlen : ps.length = ts.length) (ha : ∀ p ∈ ps.zip ts, Aligned place p.1 p.2)
    (h : matchAll place [] ps ts = .ok m) :
    ∃ us, substitutes m ps = .ok us ∧
      Forall₂ (fun t u => equate .generics place t u = .ok ()) ts us := by
  obtain ⟨-, us, hus, heqs⟩ := matchAll_solves hlen (fun p hp _ _ => matchTypes_solves (ha p hp)) h
  exact ⟨us, hus m (.refl m), heqs⟩

theorem matchAll_sound_repeated : ∃ us,
    substitutes [("a", .bool)] [.generic "a", .list (.generic "a")] = .ok us ∧
      Forall₂ (fun t u => equate .generics (.term .null) t u = .ok ()) [.bool, .list .bool] us := by
  refine matchAll_sound rfl ?_ rfl
  rw [zip_cons_cons, forall_mem_cons, zip_cons_cons, forall_mem_cons]
  exact ⟨.generic "a" rfl, .list (.generic "a" rfl), forall_mem_nil _⟩

end CompilerKit.Ty
