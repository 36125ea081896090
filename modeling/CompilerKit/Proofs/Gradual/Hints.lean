import CompilerKit.Proofs.Gradual.Precision
import CompilerKit.Proofs.Headers

/-!
# Hints that say less

A hint is a tree that denotes a type. It says less when the name of the unknown type takes the place
of the whole hint or of parts of it that denote types.
-/

namespace CompilerKit

open Term

open Ty (Ordinary Vague Vagues)

/-! ## The types of hints -/

theorem hintTypes_ordinary : HintTypes .gradual Ordinary where
  noGenerics := rfl
  noProxies := rfl
  int := .int
  bool := .bool
  void := .void
  any _ := .any
  tuple := .tuple
  list := .list
  function := .function

/-- Hints denote the types without parts that only the checker knows. -/
theorem resolve_ordinary {h : Term} {t : Ty} (ht : h.resolve .gradual = .ok t) : Ordinary t :=
  resolve_types hintTypes_ordinary ht

/-! ## Hints that say less -/

namespace Hint

/-- The tree is several expressions with commas between them. -/
def isSeveral : Term → Bool
  | .node .tuple (_ :: _) _ => true
  | _ => false

mutual

/-- The second hint is the first with the unknown type in the place of some of its parts. -/
inductive Blurs : Term → Term → Prop where
  | same (h) : Blurs h h
  | any (h m) : Blurs h (.node .name [.str "Any"] m)
  | anyType (h fs m) : Blurs h (.node (.record .anyType) fs m)
  | callable (hps : BlursItems ps ps') (hr : Blurs r r') (k fs gs hs i j m n) :
      Blurs
        (.node .subscript (.node .name [.str "Callable"] m :: .node .tuple (.list [.node k (ps ::
          fs) i, r] :: gs) j :: hs) n)
        (.node .subscript (.node .name [.str "Callable"] m :: .node .tuple (.list [.node k (ps' ::
          fs) i, r'] :: gs) j :: hs) n)
  | tuple (hts : BlursItems ts ts') (fs gs i m n) :
      Blurs (.node .subscript (.node .name [.str "tuple"] m :: .node .tuple (ts :: fs) i :: gs) n)
        (.node .subscript (.node .name [.str "tuple"] m :: .node .tuple (ts' :: fs) i :: gs) n)
  | single (ht : Blurs t t') (hone : isSeveral t = false) (fs m n) :
      Blurs (.node .subscript (.node .name [.str "tuple"] m :: t :: fs) n)
        (.node .subscript (.node .name [.str "tuple"] m :: t' :: fs) n)
  | list (ht : Blurs t t') (fs m n) :
      Blurs (.node .subscript (.node .name [.str "list"] m :: t :: fs) n)
        (.node .subscript (.node .name [.str "list"] m :: t' :: fs) n)
  | tupleType (hts : BlursItems ts ts') (m) :
      Blurs (.node (.record .tupleType) [ts] m) (.node (.record .tupleType) [ts'] m)
  | listType (ht : Blurs t t') (m) :
      Blurs (.node (.record .listType) [t] m) (.node (.record .listType) [t'] m)
  | functionType (hps : BlursItems ps ps') (hr : Blurs r r') (m) :
      Blurs (.node (.record .functionType) [ps, r] m) (.node (.record .functionType) [ps', r'] m)

/-- Sequences of hints. -/
inductive BlursItems : Term → Term → Prop where
  | same (h) : BlursItems h h
  | list (hts : BlursAll ts ts') : BlursItems (.list ts) (.list ts')
  | tuple (hts : BlursAll ts ts') : BlursItems (.tuple ts) (.tuple ts')

inductive BlursAll : List Term → List Term → Prop where
  | nil : BlursAll [] []
  | cons (ht : Blurs t t') (hts : BlursAll ts ts') : BlursAll (t :: ts) (t' :: ts')

end

theorem Blurs.isSeveral (h : Blurs t t') (ht : isSeveral t = false) : isSeveral t' = false := by
  cases h with
  | same => exact ht
  | _ => rfl

/-! ## The types of hints that say less -/

theorem resolve_single (ht : isSeveral t = false) (fs : List Term) (m n : Marks Term) :
    (node .subscript (.node .name [.str "tuple"] m :: t :: fs) n).resolve .gradual =
      (t.resolve .gradual >>= fun u => .ok (.tuple [u])) := by
  rw [resolve]
  rintro es f i rfl
  cases ht

theorem resolveParts_mono (hh : ∀ {ts : List Ty}, resolveItems .gradual h = .ok ts →
      ∃ ts', resolveItems .gradual h' = .ok ts' ∧ Vagues ts ts')
    (k : Kind) (hts : resolveParts .gradual (.node k (h :: fs) m) = .ok ts) :
    ∃ ts', resolveParts .gradual (.node k (h' :: fs) m) = .ok ts' ∧ Vagues ts ts' := by
  unfold resolveParts at hts ⊢
  split at hts <;> first | exact hh hts | cases hts

mutual

/-- A hint that says less denotes a less precise type. -/
theorem Blurs.resolve {h h' : Term} (hh : Blurs h h') {t : Ty} (ht : h.resolve .gradual = .ok t) :
    ∃ t', h'.resolve .gradual = .ok t' ∧ Vague t t' := by
  have hordinary := resolve_ordinary ht
  cases hh with
  | same => exact ⟨t, ht, hordinary.vague⟩
  | any | anyType => exact ⟨.any, rfl, .any hordinary⟩
  | callable hps hr k =>
    obtain ⟨us, hus, ht⟩ := ok_of_bind ht
    obtain ⟨r, hr', ht⟩ := ok_of_bind ht
    cases ht
    obtain ⟨us', hus', hvagues⟩ := resolveParts_mono hps.resolve k hus
    obtain ⟨r', hr', hvague⟩ := hr.resolve hr'
    exact ⟨.function us' r', of_bind_ok hus' (of_bind_ok hr' rfl), .function hvagues hvague⟩
  | tuple hts | tupleType hts =>
    obtain ⟨us, hus, ht⟩ := ok_of_bind ht
    cases ht
    obtain ⟨us', hus', hvague⟩ := hts.resolve hus
    exact ⟨.tuple us', of_bind_ok hus' rfl, .tuple hvague⟩
  | single hu hone =>
    rw [resolve_single hone] at ht
    obtain ⟨u, hu', ht⟩ := ok_of_bind ht
    cases ht
    obtain ⟨u', hu', hvague⟩ := hu.resolve hu'
    exact ⟨.tuple [u'], (resolve_single (hu.isSeveral hone) _ _ _).trans (of_bind_ok hu' rfl),
      .tuple (.cons hvague .nil)⟩
  | list hu | listType hu =>
    obtain ⟨u, hu', ht⟩ := ok_of_bind ht
    cases ht
    obtain ⟨u', hu', hvague⟩ := hu.resolve hu'
    exact ⟨.list u', of_bind_ok hu' rfl, .list hvague⟩
  | functionType hps hr =>
    obtain ⟨us, hus, ht⟩ := ok_of_bind ht
    obtain ⟨r, hr', ht⟩ := ok_of_bind ht
    cases ht
    obtain ⟨us', hus', hvagues⟩ := hps.resolve hus
    obtain ⟨r', hr', hvague⟩ := hr.resolve hr'
    exact ⟨.function us' r', of_bind_ok hus' (of_bind_ok hr' rfl), .function hvagues hvague⟩

theorem BlursItems.resolve {h h' : Term} (hh : BlursItems h h') {ts : List Ty}
    (hts : resolveItems .gradual h = .ok ts) :
    ∃ ts', resolveItems .gradual h' = .ok ts' ∧ Vagues ts ts' := by
  cases hh with
  | same =>
    exact ⟨ts, hts, .refl fun t ht => (resolveItems_types hintTypes_ordinary hts t ht).vague⟩
  | list hall => exact hall.resolve hts
  | tuple hall => exact hall.resolve hts

theorem BlursAll.resolve {hs hs' : List Term} (hh : BlursAll hs hs') {ts : List Ty}
    (hts : resolves .gradual hs = .ok ts) :
    ∃ ts', resolves .gradual hs' = .ok ts' ∧ Vagues ts ts' := by
  cases hh with
  | nil =>
    cases hts
    exact ⟨[], rfl, .nil⟩
  | cons hu hus =>
    obtain ⟨u, hu', hts⟩ := ok_of_bind hts
    obtain ⟨us, hus', hts⟩ := ok_of_bind hts
    cases hts
    obtain ⟨u', hu', hvague⟩ := hu.resolve hu'
    obtain ⟨us', hus', hvagues⟩ := hus.resolve hus'
    exact ⟨u' :: us', of_bind_ok hu' (of_bind_ok hus' rfl), .cons hvague hvagues⟩

end

end Hint

end CompilerKit
