import CompilerKit.Proofs.Simulation
import CompilerKit.Typing.Source

/-!
# Hints and headers

The types that hints denote, in the type systems without generic types and proxies, and the types
that the headers of functions declare.
-/

namespace CompilerKit

/-- A family of types that has everything that hints denote, in a type system without generic types
and proxies. -/
structure HintTypes (c : TypeSystem) (P : Ty → Prop) : Prop where
  noGenerics : (c == .generics) = false
  noProxies : c.hasProxies = false
  int : P .int
  bool : P .bool
  void : P .void
  any (h : c.keepsAny) : P .any
  tuple {ts : List Ty} (hts : ∀ t ∈ ts, P t) : P (.tuple ts)
  list {t : Ty} (ht : P t) : P (.list t)
  function {ps : List Ty} {r : Ty} (hps : ∀ p ∈ ps, P p) (hr : P r) : P (.function ps r)

section Hints

variable {c : TypeSystem} {P : Ty → Prop}

theorem foreignHints_types (hts : foreignHints h = .ok ts) : ∀ t ∈ ts, P t := by
  unfold foreignHints at hts
  split at hts
  · cases hts
  · cases hts
    simp
  · cases hts

theorem keepsAny_of_namesAny (h : c.namesAny) : c.keepsAny := by
  rw [TypeSystem.keepsAny, h, Bool.true_or]

theorem keepsAny_of_gradual (h : (c == .gradual)) : c.keepsAny :=
  keepsAny_of_namesAny (by rw [TypeSystem.namesAny, h, Bool.or_true])

theorem resolveName_types (hP : HintTypes c P) (ht : resolveName c x = .ok t) : P t := by
  unfold resolveName at ht
  rw [hP.noGenerics] at ht
  split at ht
  · cases ht
    exact hP.int
  · split at ht
    · cases ht
      exact hP.bool
    · split at ht
      · contradiction
      · split at ht
        · next hany =>
          cases ht
          exact hP.any (keepsAny_of_namesAny (Bool.and_eq_true _ _ ▸ hany).1)
        · cases ht

mutual

theorem resolve_types (hP : HintTypes c P) {h : Term} {t} (ht : h.resolve c = .ok t) : P t := by
  unfold Term.resolve at ht
  split at ht
  · split at ht
    · next hgradual =>
      cases ht
      exact hP.any (keepsAny_of_gradual hgradual)
    · cases ht
  · exact resolveName_types hP ht
  · rw [hP.noGenerics] at ht
    cases ht
  · cases ht
    exact hP.void
  · cases ht
    exact hP.int
  · cases ht
    exact hP.bool
  · cases ht
    exact hP.void
  · split at ht
    case h_3 => cases ht
    all_goals
      obtain ⟨ps, hps, ht⟩ := ok_of_bind ht
      obtain ⟨r, hr, ht⟩ := ok_of_bind ht
      cases ht
      exact hP.function (resolveParts_types hP hps) (resolve_types hP hr)
  · obtain ⟨ts, hts, ht⟩ := ok_of_bind ht
    cases ht
    exact hP.tuple (resolveItems_types hP hts)
  · obtain ⟨u, hu, ht⟩ := ok_of_bind ht
    cases ht
    exact hP.tuple (by simpa using resolve_types hP hu)
  · obtain ⟨u, hu, ht⟩ := ok_of_bind ht
    cases ht
    exact hP.list (resolve_types hP hu)
  · rw [hP.noGenerics] at ht
    split at ht <;> cases ht
  · split at ht
    · cases ht
      exact hP.int
    · cases ht
      exact hP.bool
    · cases ht
      exact hP.void
    · split at ht
      · next hany =>
        cases ht
        exact hP.any hany
      · cases ht
    · obtain ⟨ts, hts, ht⟩ := ok_of_bind ht
      cases ht
      exact hP.tuple (resolveItems_types hP hts)
    · obtain ⟨u, hu, ht⟩ := ok_of_bind ht
      cases ht
      exact hP.list (resolve_types hP hu)
    · obtain ⟨ps, hps, ht⟩ := ok_of_bind ht
      obtain ⟨r, hr, ht⟩ := ok_of_bind ht
      cases ht
      exact hP.function (resolveItems_types hP hps) (resolve_types hP hr)
    · rw [hP.noProxies] at ht; cases ht
    · rw [hP.noProxies] at ht; cases ht
    · cases ht
  · cases ht
termination_by sizeOf h

theorem resolveParts_types (hP : HintTypes c P) {h : Term} {ts}
    (hts : Term.resolveParts c h = .ok ts) : ∀ t ∈ ts, P t := by
  unfold Term.resolveParts at hts
  split at hts
  · split at hts <;> first | exact resolveItems_types hP hts | cases hts
  · cases hts
termination_by sizeOf h

theorem resolveItems_types (hP : HintTypes c P) {h : Term} {ts}
    (hts : Term.resolveItems c h = .ok ts) : ∀ t ∈ ts, P t := by
  unfold Term.resolveItems at hts
  split at hts
  · exact resolves_types hP hts
  · exact resolves_types hP hts
  · exact foreignHints_types hts
termination_by sizeOf h

theorem resolves_types (hP : HintTypes c P) {hs : List Term} {ts}
    (hts : Term.resolves c hs = .ok ts) : ∀ t ∈ ts, P t := by
  cases hs with
  | nil =>
    cases hts
    simp
  | cons h hs =>
    obtain ⟨u, hu, hts⟩ := ok_of_bind hts
    obtain ⟨us, hus, hts⟩ := ok_of_bind hts
    cases hts
    exact List.forall_mem_cons.mpr ⟨resolve_types hP hu, resolves_types hP hus⟩
termination_by sizeOf hs

end

end Hints

/-! ## Headers -/

/-- Parameters as they are written. -/
def written (table : TypeTable) : List (Term × Ty) := table.map fun p => (.str p.1, p.2)

theorem scope_written (table) : Check.scope (written table) = .ok table := by
  induction table with
  | nil => rfl
  | cons p table ih =>
    change (do
      let rest ← Check.scope (written table)
      .ok ((p.1, p.2) :: rest)) = _
    rw [ih]
    rfl

/-- A header is resolved if it has hints, and taken as it is otherwise. -/
theorem resolveHeader_ok (h : resolveHeader c ps result = .ok (params, t, ps')) :
    resolveParams c ps = .ok params ∧
      ((ps.areDeclared ∧ result.resolve c = .ok t ∧
        ps' = .ofItems (params.map fun p => .tuple [p.1, p.2.toTerm])) ∨
      (ps.areDeclared = false ∧ t = result ∧ ps' = ps)) := by
  obtain ⟨ds, hds, h⟩ := ok_of_bind h
  cases hdeclared : ps.areDeclared with
  | false =>
    rw [hdeclared] at h
    cases h
    exact ⟨hds, .inr ⟨rfl, rfl, rfl⟩⟩
  | true =>
    rw [hdeclared] at h
    obtain ⟨r, hr, h⟩ := ok_of_bind h
    cases h
    exact ⟨hds, .inl ⟨rfl, hr, rfl⟩⟩

theorem declare_fundef (hfunctions : (c == .functions) = false)
    (hgenerics : (c == .generics) = false) (env f ps b ds r k n ss) :
    declare c env (.fundef f ps b ds r k n :: ss) = (resolveHeader c ps r >>= fun h =>
      declare c (Bindings.put env f (.function (h.1.map (·.2)) h.2.1)) ss) := by
  rw [declare, resolveHeader, hfunctions, hgenerics]
  cases resolveParams c ps with
  | error e => rfl
  | ok ds =>
    cases hdeclared : ps.areDeclared with
    | false => rfl
    | true => cases r.resolve c <;> rfl

end CompilerKit
