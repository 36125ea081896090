import Mathlib.Data.List.Forall2
import CompilerKit.Typing.Gradual
import CompilerKit.Proofs.Simulation

/-!
# The precision of types

A type is made less precise by putting the unknown type in the place of parts of it. Types that are
consistent stay consistent, and the joins of types become less precise with them, as long as no
parts are left out of a join.
-/

namespace CompilerKit.Ty

open List Bool Ty

/-- The types that hints can denote. -/
inductive Ordinary : Ty → Prop where
  | int : Ordinary .int
  | bool : Ordinary .bool
  | void : Ordinary .void
  | any : Ordinary .any
  | tuple (h : ∀ p ∈ ps, Ordinary p) : Ordinary (.tuple ps b)
  | list (h : Ordinary p) : Ordinary (.list p)
  | function (h : ∀ p ∈ ps, Ordinary p) (hr : Ordinary r) : Ordinary (.function ps r b)

mutual

/-- The second type is the first with the unknown type in the place of some of its parts. -/
inductive Vague : Ty → Ty → Prop where
  | int : Vague .int .int
  | bool : Vague .bool .bool
  | void : Vague .void .void
  | any (h : Ordinary s) : Vague s .any
  | tuple (h : Vagues ss ts) : Vague (.tuple ss b) (.tuple ts c)
  | list (h : Vague s t) : Vague (.list s) (.list t)
  | function (hs : Vagues ss ts) (h : Vague s t) : Vague (.function ss s b) (.function ts t c)

inductive Vagues : List Ty → List Ty → Prop where
  | nil : Vagues [] []
  | cons (h : Vague s t) (hs : Vagues ss ts) : Vagues (s :: ss) (t :: ts)

end

mutual

/-- The types are consistent and have equally many parts wherever neither is unknown. -/
def fits : Ty → Ty → Bool
  | any, _ => true
  | _, any => true
  | function ps r _, function qs s _ => fitAll ps qs && fits r s
  | tuple ps _, tuple qs _ => fitAll ps qs
  | list p, list q => fits p q
  | s, t => s == t

def fitAll : List Ty → List Ty → Bool
  | [], [] => true
  | p :: ps, q :: qs => fits p q && fitAll ps qs
  | _, _ => false

end

/-! ## Precision is an order -/

theorem Vagues.refl (h : ∀ s ∈ ss, Vague s s) : Vagues ss ss := by
  induction ss with
  | nil => exact .nil
  | cons s ss ih =>
    rw [forall_mem_cons] at h
    exact .cons h.1 (ih h.2)

theorem Ordinary.vague (h : Ordinary s) : Vague s s := by
  induction h with
  | int => exact .int
  | bool => exact .bool
  | void => exact .void
  | any => exact .any .any
  | tuple _ ih => exact .tuple (.refl ih)
  | list _ ih => exact .list ih
  | function _ _ ih ihr => exact .function (.refl ih) ihr

mutual

theorem Vague.ordinary {s t} (h : Vague s t) : Ordinary s ∧ Ordinary t := by
  cases h with
  | int => exact ⟨.int, .int⟩
  | bool => exact ⟨.bool, .bool⟩
  | void => exact ⟨.void, .void⟩
  | any h => exact ⟨h, .any⟩
  | tuple h => exact h.ordinary.imp .tuple .tuple
  | list h => exact h.ordinary.imp .list .list
  | function hs h =>
    exact ⟨.function hs.ordinary.1 h.ordinary.1, .function hs.ordinary.2 h.ordinary.2⟩

theorem Vagues.ordinary {ss ts} (h : Vagues ss ts) :
    (∀ s ∈ ss, Ordinary s) ∧ ∀ t ∈ ts, Ordinary t := by
  cases h with
  | nil => simp
  | cons h hs =>
    simp only [forall_mem_cons]
    exact ⟨⟨h.ordinary.1, hs.ordinary.1⟩, h.ordinary.2, hs.ordinary.2⟩

end

theorem Vague.left (h : Vague s t) : Ordinary s := h.ordinary.1

theorem Vague.right (h : Vague s t) : Ordinary t := h.ordinary.2

mutual

theorem Vague.trans {s t u} (h : Vague s t) (h' : Vague t u) : Vague s u := by
  cases h' with
  | any _ => exact .any h.left
  | int => exact h
  | bool => exact h
  | void => exact h
  | tuple hs' =>
    cases h with
    | tuple hs => exact .tuple (hs.trans hs')
  | list h' =>
    cases h with
    | list h => exact .list (h.trans h')
  | function hs' h' =>
    cases h with
    | function hs h => exact .function (hs.trans hs') (h.trans h')

theorem Vagues.trans {ss ts us} (h : Vagues ss ts) (h' : Vagues ts us) : Vagues ss us := by
  cases h with
  | nil => exact h'
  | cons h hs =>
    cases h' with
    | cons h' hs' => exact .cons (h.trans h') (hs.trans hs')

end

/-! ## Consistency -/

theorem consistent_any (s) : consistent s any := by
  cases s <;> simp [consistent]

mutual

/-- Types that are consistent stay so when they are made less precise. -/
theorem Vague.consistent {s s' t t'} (hs : Vague s s') (ht : Vague t t')
    (h : consistent s t) : consistent s' t' := by
  cases ht with
  | any _ => exact consistent_any s'
  | tuple hts =>
    cases hs with
    | tuple hss =>
      exact hss.consistents hts h
    | any _ => rfl
    | _ => exact absurd h false_ne_true
  | list ht =>
    cases hs with
    | list hs =>
      exact hs.consistent ht h
    | any _ => rfl
    | _ => exact absurd h false_ne_true
  | function hts ht =>
    cases hs with
    | function hss hs =>
      simp only [consistent, and_eq_true] at h ⊢
      exact ⟨hss.consistents hts h.1, hs.consistent ht h.2⟩
    | any _ => rfl
    | _ => exact absurd h false_ne_true
  | _ =>
    cases hs with
    | any _ => rfl
    | _ => exact h
termination_by structural s

theorem Vagues.consistents {ss ss' ts ts'} (hs : Vagues ss ss') (ht : Vagues ts ts')
    (h : consistents ss ts) : consistents ss' ts' := by
  cases hs with
  | nil => simp [consistents]
  | cons hs hss =>
    cases ht with
    | nil => simp [consistents]
    | cons ht hts =>
      simp only [consistents, and_eq_true] at h ⊢
      exact ⟨hs.consistent ht h.1, hss.consistents hts h.2⟩

end

/-! ## Joins -/

mutual

/-- A join is at least as precise as the types that it joins. -/
theorem join_vague {s t} (hs : Ordinary s) (ht : Ordinary t) (h : fits s t) :
    Vague (join s t) s ∧ Vague (join s t) t := by
  cases hs with
  | any => exact ⟨.any ht, ht.vague⟩
  | tuple hss =>
    cases ht with
    | any => exact ⟨Ordinary.vague (.tuple hss), .any (.tuple hss)⟩
    | tuple hts =>
      obtain ⟨hleft, hright⟩ := joins_vagues hss hts h
      exact ⟨.tuple hleft, .tuple hright⟩
    | _ => exact absurd h false_ne_true
  | list hs =>
    cases ht with
    | any => exact ⟨.list hs.vague, .any (.list hs)⟩
    | list ht =>
      obtain ⟨hleft, hright⟩ := join_vague hs ht h
      exact ⟨.list hleft, .list hright⟩
    | _ => exact absurd h false_ne_true
  | function hss hs =>
    cases ht with
    | any => exact ⟨Ordinary.vague (.function hss hs), .any (.function hss hs)⟩
    | function hts ht =>
      simp only [fits, and_eq_true] at h
      obtain ⟨hlefts, hrights⟩ := joins_vagues hss hts h.1
      obtain ⟨hleft, hright⟩ := join_vague hs ht h.2
      exact ⟨.function hlefts hleft, .function hrights hright⟩
    | _ => exact absurd h false_ne_true
  | _ =>
    cases ht <;> first | exact absurd h false_ne_true | constructor <;> constructor <;> constructor

theorem joins_vagues {ss ts} (hs : ∀ s ∈ ss, Ordinary s) (ht : ∀ t ∈ ts, Ordinary t)
    (h : fitAll ss ts) : Vagues (joins ss ts) ss ∧ Vagues (joins ss ts) ts := by
  cases ss with
  | nil =>
    cases ts with
    | nil => exact ⟨.nil, .nil⟩
    | cons t ts => exact absurd h false_ne_true
  | cons s ss =>
    cases ts with
    | nil => exact absurd h false_ne_true
    | cons t ts =>
      simp only [fitAll, and_eq_true] at h
      rw [forall_mem_cons] at hs ht
      obtain ⟨hleft, hright⟩ := join_vague hs.1 ht.1 h.1
      obtain ⟨hlefts, hrights⟩ := joins_vagues hs.2 ht.2 h.2
      exact ⟨.cons hleft hlefts, .cons hright hrights⟩

end

mutual

/-- Joins become less precise with the types that they join. -/
theorem Vague.join {s s' t t'} (hs : Vague s s') (ht : Vague t t') (h : fits s t) :
    Vague (join s t) (join s' t') := by
  obtain ⟨hleft, hright⟩ := join_vague hs.left ht.left h
  cases hs with
  | any _ => exact hright.trans ht
  | tuple hss =>
    cases ht with
    | any _ => exact hleft.trans (.tuple hss)
    | tuple hts => exact .tuple (hss.joins hts h)
    | _ => exact absurd h false_ne_true
  | list hs =>
    cases ht with
    | any _ => exact hleft.trans (.list hs)
    | list ht => exact .list (hs.join ht h)
    | _ => exact absurd h false_ne_true
  | function hss hs =>
    cases ht with
    | any _ => exact hleft.trans (.function hss hs)
    | function hts ht =>
      simp only [fits, and_eq_true] at h
      exact .function (hss.joins hts h.1) (hs.join ht h.2)
    | _ => exact absurd h false_ne_true
  | _ => cases ht <;> first | exact absurd h false_ne_true | exact hleft
termination_by structural s

theorem Vagues.joins {ss ss' ts ts'} (hs : Vagues ss ss') (ht : Vagues ts ts')
    (h : fitAll ss ts) : Vagues (joins ss ts) (joins ss' ts') := by
  cases hs with
  | nil => exact .nil
  | cons hs hss =>
    cases ht with
    | nil => exact .nil
    | cons ht hts =>
      simp only [fitAll, and_eq_true] at h
      exact .cons (hs.join ht h.1) (hss.joins hts h.2)

end

/-! ## Parts and written forms -/

theorem Vagues.length_eq {ss ts} (h : Vagues ss ts) : ts.length = ss.length := by
  cases h with
  | nil => rfl
  | cons _ hs => exact congrArg (· + 1) hs.length_eq

theorem Vagues.getElem? {ts : List Ty} (h : Vagues ss ts) {i : Nat} (hs : ss[i]? = some s) :
    ∃ t, ts[i]? = some t ∧ Vague s t := by
  induction i generalizing ss ts with
  | zero =>
    cases h with
    | nil => cases hs
    | cons h _ =>
      cases hs
      exact ⟨_, rfl, h⟩
  | succ i ih =>
    cases h with
    | nil => cases hs
    | cons _ h => exact ih h hs

/-- Types that hints can denote can be written. -/
theorem Ordinary.text_ok (h : Ordinary t) (ind) : ∃ s, t.toTerm.text ind = .ok s := by
  have hparts {ps : List Ty} (hps : ∀ p ∈ ps, ∃ s, p.toTerm.text ind = .ok s) :
      ∃ ss, Form.texts ind (Term.forms (toTerms ps)) = .ok ss := by
    induction ps with
    | nil => exact ⟨[], rfl⟩
    | cons p ps ih =>
      rw [forall_mem_cons] at hps
      obtain ⟨⟨s, hs⟩, hps⟩ := hps
      obtain ⟨ss, hss⟩ := ih hps
      exact ⟨s :: ss, of_bind_ok hs (of_bind_ok hss rfl)⟩
  have hitems {ps : List Ty} (hps : ∀ p ∈ ps, ∃ s, p.toTerm.text ind = .ok s) :
      ∃ s, (Piece.items "," (Term.list (toTerms ps)).form).write ind = .ok s := by
    obtain ⟨ss, hss⟩ := hparts hps
    exact ⟨_, of_bind_ok hss rfl⟩
  induction h with
  | @tuple ps b _ ih =>
    obtain ⟨s, hs⟩ := hitems ih
    refine ⟨"tuple[" ++ (s ++ "]"), ?_⟩
    cases b <;> exact of_bind_ok rfl (of_bind_ok (of_bind_ok hs rfl) rfl)
  | @list p _ ih =>
    obtain ⟨s, hs⟩ := ih
    exact ⟨"list[" ++ (s ++ "]"), of_bind_ok rfl (of_bind_ok (of_bind_ok hs rfl) rfl)⟩
  | @function ps r b _ _ ih ihr =>
    obtain ⟨s, hs⟩ := hitems ih
    obtain ⟨u, hu⟩ := ihr
    refine ⟨"Callable[[" ++ (s ++ ("], " ++ (u ++ "]"))), ?_⟩
    cases b <;> exact of_bind_ok rfl (of_bind_ok
      (of_bind_ok hs (of_bind_ok (of_bind_ok rfl (of_bind_ok (of_bind_ok hu rfl) rfl)) rfl)) rfl)
  | _ => exact ⟨_, rfl⟩

end CompilerKit.Ty

namespace CompilerKit

open Ty (Vague)

/-! ## Tables -/

/-- The second table has less precise types for the same variables. -/
def Blurred (env env' : TypeTable) : Prop :=
  List.Forall₂ (fun e e' => e'.1 = e.1 ∧ Vague e.2 e'.2) env env'

namespace Blurred

variable (h : Blurred env env')
include h

theorem get? (x) : Option.Rel Vague (Bindings.get? env x) (Bindings.get? env' x) := by
  induction h with
  | nil => exact .none
  | @cons e e' env env' he _ ih =>
    obtain ⟨y, t⟩ := e
    obtain ⟨y', t'⟩ := e'
    obtain ⟨rfl, ht⟩ : y' = y ∧ Vague t t' := he
    simp only [Bindings.get?, List.lookup_cons] at ih ⊢
    cases x == y' with
    | true => exact .some ht
    | false => exact ih

theorem put (x) (ht : Vague t t') : Blurred (Bindings.put env x t) (Bindings.put env' x t') := by
  induction h with
  | nil => exact .cons ⟨rfl, ht⟩ .nil
  | @cons e e' env env' he htail ih =>
    obtain ⟨y, u⟩ := e
    obtain ⟨y', u'⟩ := e'
    obtain ⟨rfl, hu⟩ : y' = y ∧ Vague u u' := he
    simp only [Bindings.put]
    split
    · exact .cons ⟨rfl, ht⟩ htail
    · exact .cons ⟨rfl, hu⟩ ih

theorem putAll (hmore : Blurred more more') :
    Blurred (Bindings.putAll env more) (Bindings.putAll env' more') := by
  induction hmore generalizing env env' with
  | nil => exact h
  | @cons e e' _ _ he _ ih =>
    obtain ⟨y, u⟩ := e
    obtain ⟨y', u'⟩ := e'
    obtain ⟨rfl, hu⟩ : y' = y ∧ Vague u u' := he
    exact ih (h.put y' hu)

end Blurred

end CompilerKit
