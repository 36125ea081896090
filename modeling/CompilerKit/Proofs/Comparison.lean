import CompilerKit.Typing.System
import CompilerKit.Proofs.Simulation

/-!
# Comparisons of types in different systems

The comparison does not depend on the order of the two types. The systems of the source languages
and of the lowered ones compare alike but for functions without a common parameter, whose results
the lowered ones do not look at.
-/

namespace CompilerKit.Ty

open List

section

variable {place : Culprit} {s t : Ty}

/-! ## The rules -/

theorem equate_function (hc : c.hasFunctions) (hper : resultPerParam c = false)
    (ps qs : List Ty) (r s : Ty) (a b : Bool) :
    equate c place (.function ps r a) (.function qs s b) = (do
      equates c place ps qs
      equate c place r s) := by
  rw [equate]
  simp [hc, hper, BEq.beq, equal]

theorem ok_bind_iff {x y : Except CheckError Unit} :
    (do x; y) = .ok () ↔ x = .ok () ∧ y = .ok () := by
  cases x <;> simp [bind, Except.bind]

theorem equate_function_perParam (hc : c.hasFunctions) (hper : resultPerParam c)
    (ps qs : List Ty) (r s : Ty) (a b : Bool) :
    equate c place (.function ps r a) (.function qs s b) = .ok () ↔
      equates c place ps qs = .ok () ∧ (ps = [] ∨ qs = [] ∨ equate c place r s = .ok ()) := by
  rw [equate]
  simp only [hc, hper, BEq.beq, equal, Bool.or_self, Bool.and_false, Bool.false_eq_true, if_false,
    if_true]
  cases ps with
  | nil => simp [equates]
  | cons p ps =>
    cases qs with
    | nil => simp [equates]
    | cons q qs =>
      simp only [equates, ok_bind_iff, reduceCtorEq, false_or]
      exact ⟨fun h => ⟨⟨h.1, h.2.2⟩, h.2.1⟩, fun h => ⟨h.1.1, h.2, h.1.2⟩⟩

/-! ## The order of the types -/

theorem equates_comm
    (h : ∀ p ∈ ps, ∀ q ∈ qs, equate c place p q = .ok () → equate c place q p = .ok ())
    (hps : equates c place ps qs = .ok ()) : equates c place qs ps = .ok () := by
  induction ps generalizing qs with
  | nil => cases qs <;> rfl
  | cons p ps ih =>
    cases qs with
    | nil => rfl
    | cons q qs =>
      rw [equates, ok_bind_iff] at hps ⊢
      simp only [forall_mem_cons] at h
      exact ⟨h.1.1 hps.1, ih (fun p hp q hq => (h.2 p hp).2 q hq) hps.2⟩

theorem eq_of_ite_beq (hs : Genuine s)
    (h : (if s == t then .ok () else .error e : Except CheckError Unit) = .ok ()) : s = t := by
  split at h
  · next heq => exact (equal_iff hs t).mp heq
  · cases h

theorem equate_comm (hc : c = .proxies ∨ c = .proxyBlocks) (hs : Genuine s) (ht : Genuine t)
    (h : equate c place s t = .ok ()) : equate c place t s = .ok () := by
  have hforgives : forgivesBottom c := by rcases hc with rfl | rfl <;> rfl
  induction hs generalizing t with
  | bottom => exact equate_bottom hforgives (.inr rfl) place
  | tuple hps ih | proxyOrTuple hps ih =>
    cases ht with
    | bottom => exact equate_bottom hforgives (.inl rfl) place
    | tuple hqs | proxyOrTuple hqs =>
      rcases hc with rfl | rfl <;> first
        | exact equates_comm (fun p hp q hq => ih p hp (hqs q hq)) h
        | cases h
    | _ => rcases hc with rfl | rfl <;> cases h
  | list hp ih | proxyOrList hp ih =>
    cases ht with
    | bottom => exact equate_bottom hforgives (.inl rfl) place
    | list hq | proxyOrList hq => rcases hc with rfl | rfl <;> first | exact ih hq h | cases h
    | _ => rcases hc with rfl | rfl <;> cases h
  | function hps hr ih ihr =>
    cases ht with
    | bottom => exact equate_bottom hforgives (.inl rfl) place
    | function hqs hs =>
      rcases hc with rfl | rfl
      · rw [equate_function rfl rfl, ok_bind_iff] at h ⊢
        exact ⟨equates_comm (fun p hp q hq => ih p hp (hqs q hq)) h.1, ihr hs h.2⟩
      · rw [equate_function_perParam rfl rfl] at h ⊢
        refine ⟨equates_comm (fun p hp q hq => ih p hp (hqs q hq)) h.1, ?_⟩
        rcases h.2 with h | h | h
        · exact .inr (.inl h)
        · exact .inl h
        · exact .inr (.inr (ihr hs h))
    | _ => rcases hc with rfl | rfl <;> cases h
  -- the rest is plain: the same type, the type of what never yields a value, or a refusal
  | _ =>
    cases ht <;> first
      | exact h
      | exact equate_bottom hforgives (.inl rfl) place
      | rcases hc with rfl | rfl <;> cases h
      | rcases hc with rfl | rfl <;>
          (cases eq_of_ite_beq (by constructor; try assumption) h; exact h)

/-- Whether two types are taken for equal does not depend on their order. -/
theorem equate_comm_iff (hs : Genuine s) (ht : Genuine t) (place : Culprit) :
    (equate .proxies place s t = .ok () ↔ equate .proxies place t s = .ok ()) ∧
      (equate .proxyBlocks place s t = .ok () ↔ equate .proxyBlocks place t s = .ok ()) :=
  ⟨⟨equate_comm (.inl rfl) hs ht, equate_comm (.inl rfl) ht hs⟩,
    ⟨equate_comm (.inr rfl) hs ht, equate_comm (.inr rfl) ht hs⟩⟩

theorem equate_comm_iff_pair :
    let s : Ty := .function [.proxyOrTuple [.int, .bottom], .bool] (.list .any)
    let t : Ty := .function [.proxyOrTuple [.int]] (.list .any)
    Genuine s ∧ Genuine t ∧ equate .proxies (.term .null) t s = .ok () ∧
      equate .proxyBlocks (.term .null) t s = .ok () := by
  have hs : Genuine (.function [.proxyOrTuple [.int, .bottom], .bool] (.list .any)) := .function (by
      simp only [forall_mem_cons, not_mem_nil, false_imp_iff, implies_true, and_true]
      exact ⟨.proxyOrTuple (by simp [Genuine.int, Genuine.bottom]), .bool⟩) (.list .any)
  have ht : Genuine (.function [.proxyOrTuple [.int]] (.list .any)) :=
    .function (by simpa using .proxyOrTuple (by simpa using .int)) (.list .any)
  have h := equate_comm_iff hs ht (.term .null)
  exact ⟨hs, ht, h.1.mp rfl, h.2.mp rfl⟩

/-! ## Source and lowered systems -/

mutual

/-- Wherever the comparison meets functions without a common parameter, it takes their results for
equal. -/
def BareResults (place : Culprit) : Ty → Ty → Prop
  | tuple ps _, tuple qs _ => BareResultsIn place ps qs
  | list p, list q => BareResults place p q
  | function ps r _, function qs s _ => BareResultsIn place ps qs ∧
    if ps.isEmpty || qs.isEmpty then equate .functions place r s = .ok () else BareResults place r s
  | _, _ => True

def BareResultsIn (place : Culprit) : List Ty → List Ty → Prop
  | p :: ps, q :: qs => BareResults place p q ∧ BareResultsIn place ps qs
  | _, _ => True

end

mutual

theorem equate_lowered (place : Culprit) (s t : Ty) :
    equate .functions place s t = .ok () ↔
      equate .functionBlocks place s t = .ok () ∧ BareResults place s t := by
  cases s with
  | tuple ps a =>
    cases t with
    | tuple qs b => exact equates_lowered place ps qs
    | _ => exact (and_iff_left trivial).symm
  | list p =>
    cases t with
    | list q => exact equate_lowered place p q
    | _ => exact (and_iff_left trivial).symm
  | function ps r a =>
    cases t with
    | function qs s b =>
      rw [equate_function rfl rfl, ok_bind_iff, equate_function_perParam rfl rfl,
        equates_lowered place ps qs, BareResults]
      have hr := equate_lowered place r s
      cases ps with
      | nil => simp [and_assoc]
      | cons p ps =>
        cases qs with
        | nil => simp [and_assoc]
        | cons q qs =>
          simp [hr]
          grind
    | _ => exact (and_iff_left trivial).symm
  | _ => exact (and_iff_left trivial).symm
termination_by structural s

theorem equates_lowered (place : Culprit) (ps qs : List Ty) :
    equates .functions place ps qs = .ok () ↔
      equates .functionBlocks place ps qs = .ok () ∧ BareResultsIn place ps qs := by
  cases ps with
  | nil => exact (and_iff_left trivial).symm
  | cons p ps =>
    cases qs with
    | nil => exact (and_iff_left trivial).symm
    | cons q qs =>
      rw [equates, equates, ok_bind_iff, ok_bind_iff, equate_lowered place p q,
        equates_lowered place ps qs, BareResultsIn, and_and_and_comm]
termination_by structural ps

end

/-- The source system takes types for equal if and only if the lowered one does and the results of
functions without a common parameter are equal. -/
theorem equate_functions_iff (place : Culprit) (s t : Ty) :
    equate .functions place s t = .ok () ↔
      equate .functionBlocks place s t = .ok () ∧ BareResults place s t :=
  equate_lowered place s t

end

end CompilerKit.Ty
