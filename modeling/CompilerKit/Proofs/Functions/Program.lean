import CompilerKit.Proofs.Functions.Accepted
import CompilerKit.Proofs.Headers

/-!
# Accepted programs and their functions

A program is checked under the types that its functions are declared with. The body of a function is
checked under the types of the variables that the main program has assigned to before it, together
with the types of the parameters.
-/

namespace CompilerKit.Functions

open Check List Bindings Option Ty Except Term
open Loops (Grows grows_put)

/-! ## Types as they are written -/

theorem ofTerms_toTerms (h : ∀ t ∈ ts, ofTerm t.toTerm = t) : ofTerms (toTerms ts) = ts := by
  induction ts with
  | nil => rfl
  | cons t ts ih =>
    rw [forall_mem_cons] at h
    rw [toTerms, ofTerms, h.1, ih h.2]

theorem ofTerm_toTerm (ht : IsValueType t) : ofTerm t.toTerm = t := by
  induction ht with
  | int | bool | void => rfl
  | @tuple ts _ ih =>
    change tuple (ofTerms (toTerms ts)) false = _
    rw [ofTerms_toTerms ih]
  | @list t _ ih =>
    change list (ofTerm t.toTerm) = _
    rw [ih]
  | @function ps r _ _ ihps ihr =>
    change function (ofTerms (toTerms ps)) (ofTerm r.toTerm) false = _
    rw [ofTerms_toTerms ihps, ihr]

theorem resolves_toTerms (h : ∀ t ∈ ts, t.resolve c = .ok t) :
    resolves c (toTerms ts) = .ok ts := by
  induction ts with
  | nil => rfl
  | cons t ts ih =>
    rw [forall_mem_cons] at h
    exact of_bind_ok h.1 (of_bind_ok (ih h.2) rfl)

theorem resolve_self (c) (ht : IsValueType t) : t.resolve c = .ok t := by
  induction ht with
  | int | bool | void => rfl
  | tuple _ ih => exact of_bind_ok (resolves_toTerms ih) rfl
  | list _ ih => exact of_bind_ok ih rfl
  | function _ _ ihps ihr => exact of_bind_ok (resolves_toTerms ihps) (of_bind_ok ihr rfl)

/-! ## Headers -/

theorem ofPairs_eq_written (hparams : ∀ p ∈ params, IsValueType p.2)
    (h : TypeTable.ofPairs? (params.map fun p => .tuple [p.1, p.2.toTerm]) = some table) :
    params = written table := by
  induction params generalizing table with
  | nil =>
    cases h
    rfl
  | cons p params ih =>
    rw [forall_mem_cons] at hparams
    obtain ⟨k, t⟩ := p
    cases k with
    | scalar a =>
      cases a with
      | str x =>
        obtain ⟨rest, hrest, rfl⟩ := map_eq_some_iff.mp h
        rw [ih hparams.2 hrest, ofTerm_toTerm hparams.1]
        rfl
      | _ => cases h
    | _ => cases h

theorem paramTable_ofItems (hparams : ∀ p ∈ params, IsValueType p.2)
    (h : paramTable? (.ofItems (params.map fun p => .tuple [p.1, p.2.toTerm])) = some table) :
    params = written table := by
  cases params with
  | nil =>
    cases h
    rfl
  | cons p params =>
    -- a pair is no name, so the items are taken for a table
    have hnames : names? ((p :: params).map fun p => .tuple [p.1, p.2.toTerm]) = none := rfl
    rw [Params.ofItems, hnames] at h
    cases hps : TypeTable.ofPairs? ((p :: params).map fun p => .tuple [p.1, p.2.toTerm]) <;>
      rw [hps] at h <;> cases h
    exact ofPairs_eq_written hparams hps

theorem pairs_of_paramTable (h : paramTable? ps = some table) :
    resolveParams .functions ps = .ok (written table) := by
  cases ps with
  | typed qs =>
    cases h
    rfl
  | names xs =>
    cases xs with
    | nil =>
      cases h
      rfl
    | cons x xs => cases h
  | _ => cases h

theorem nodup_of_hasRepeats (h : hasRepeats ((written table).map (·.1)) = false) :
    (table.map Prod.fst).Nodup := by
  induction table with
  | nil => exact nodup_nil
  | cons p table ih =>
    change (((written table).map (·.1)).contains (.str p.1) ||
      hasRepeats ((written table).map (·.1))) = false at h
    rw [Bool.or_eq_false_iff] at h
    rw [map_cons, nodup_cons]
    refine ⟨fun hmem => ?_, ih h.2⟩
    have hcontains : ((written table).map (·.1)).contains (.str p.1) := by
      obtain ⟨q, hq, hqp⟩ := mem_map.mp hmem
      rw [contains_iff_exists_mem_beq]
      refine ⟨.str q.1, mem_map.mpr ⟨_, mem_map_of_mem hq, rfl⟩, ?_⟩
      rw [hqp]
      exact beq_self_eq_true p.1
    rw [h.1] at hcontains
    cases hcontains

/-- The function is declared with the type of its header. -/
def DeclaredIn (Γ : TypeTable) : Stmt → Prop
  | .fundef f ps _ _ result _ _ => ∃ params r, resolveParams .functions ps = .ok params ∧
    result.resolve .functions = .ok r ∧
    get? Γ f = some (.function (params.map (·.2)) r)
  | _ => True

theorem DeclaredIn.mono (h : DeclaredIn Γ s) (hgrows : Grows Γ Δ) : DeclaredIn Δ s := by
  cases s with
  | fundef f ps body ds result k n =>
    obtain ⟨params, r, hparams, hr, hf⟩ := h
    exact ⟨params, r, hparams, hr, hgrows f _ hf⟩
  | _ => trivial

/-- What the header of a function says: it has been declared with its type, its parameters are
different, and they are what its body is checked with. -/
theorem Header.declared (hS : Family S) (h : Header ps result params table t ps')
    (hΓ : Known S Γ) (hf : DeclaredIn Γ (.fundef f ps body ds result k n))
    (hps : paramTable? ps' = some xts) (ht : S t) :
    get? Γ f = some (.function (xts.map Prod.snd) t) ∧ table = xts ∧
      (xts.map Prod.fst).Nodup := by
  obtain ⟨params', r, hparams', hr, hf⟩ := hf
  obtain ⟨hparams, hresult⟩ := resolveHeader_ok h.resolved
  obtain rfl : params = params' := ok.inj (hparams.symm.trans hparams')
  have hvalue : ∀ p ∈ params, IsValueType p.2 := by
    obtain ⟨hps, -⟩ := hΓ.signature hS hf
    exact fun p hp => hS.value (hps p.2 (mem_map_of_mem hp))
  have hwritten : params = written xts := by
    rcases hresult with ⟨-, -, rfl⟩ | ⟨-, -, rfl⟩
    · exact paramTable_ofItems hvalue hps
    · exact ok.inj (hparams.symm.trans (pairs_of_paramTable hps))
  have hsame : r = t := by
    rcases hresult with ⟨-, ht, -⟩ | ⟨-, rfl, -⟩
    · exact ok.inj (hr.symm.trans ht)
    · exact ok.inj (hr.symm.trans (resolve_self _ (hS.value ht)))
  subst hwritten hsame
  refine ⟨?_, ?_, nodup_of_hasRepeats h.distinct⟩
  · rw [hf, written, List.map_map]
    rfl
  · exact ok.inj (h.named.symm.trans (scope_written xts))

/-- The name of the function that a statement defines. -/
def definedName? : Stmt → Option String
  | .fundef f _ _ _ _ _ _ => some f
  | _ => none

theorem declare_types (h : declare .functions Γ ss = .ok Δ) :
    Grows Γ Δ ∧ (∀ s ∈ ss, DeclaredIn Δ s) ∧ ∀ x t, get? Δ x = some t →
      (∃ u, get? Γ x = some u) ∨ x ∈ ss.filterMap definedName? := by
  induction ss generalizing Γ with
  | nil =>
    cases h
    exact ⟨.refl _, fun s hs => (not_mem_nil hs).elim, fun x t ht => .inl ⟨t, ht⟩⟩
  | cons s ss ih =>
    cases s with
    | fundef f ps body ds result k n =>
      obtain ⟨params, hparams, h⟩ := ok_of_bind h
      change (if has Γ f then _ else _) = _ at h
      split at h
      · cases h
      · next hf =>
        obtain ⟨r, hr, h⟩ := ok_of_bind h
        obtain ⟨hgrows, hall, hkeys⟩ := ih h
        have hnone : get? Γ f = none := by simpa [has] using hf
        have hdecl : get? Δ f = some (.function (params.map (·.2)) r) := by
          apply hgrows
          rw [get?_put, if_pos (beq_self_eq_true f)]
        refine ⟨(grows_put hnone _).trans hgrows, ?_, fun x t ht => ?_⟩
        · exact forall_mem_cons.mpr ⟨⟨params, r, hparams, hr, hdecl⟩, hall⟩
        · rcases hkeys x t ht with ⟨u, hu⟩ | hx
          · rw [get?_put] at hu
            split at hu
            · next hxf => exact .inr (by simp [definedName?, beq_iff_eq.mp hxf])
            · exact .inl ⟨u, hu⟩
          · exact .inr (mem_cons_of_mem _ hx)
    | _ =>
      obtain ⟨hgrows, hall, hkeys⟩ := ih h
      exact ⟨hgrows, forall_mem_cons.mpr ⟨trivial, hall⟩, hkeys⟩

/-! ## Functions -/

/-- The table under which the body of a function is typed. The function begins with the variables of
the main program, and so the two tables agree. -/
structure Enters (table Δ : TypeTable) (d : Def) : Prop where
  params : ∀ x t, (x, t) ∈ d.params → get? Δ x = some t
  agree : ∀ x s t, get? Δ x = some s → get? table x = some t → s = t
  known : ∀ x t, get? Δ x = some t → (∃ s, get? table x = some s) ∨ x ∈ d.names ∨
    x ∈ assigned (stmtsParts d.body)

/-- A function whose body returns what it declares, under the table of the main program. -/
structure TypedDef (table : TypeTable) (d : Def) : Prop where
  distinct : d.names.Nodup
  body : ∃ Δ, Enters table Δ d ∧ TypedStmts Δ (.body d.result) d.body

/-- A program with its functions, under the table of the main program. -/
structure TypedProgram (table : TypeTable) (ss : List Stmt) : Prop where
  main : TypedStmts table (.main (defs ss)) ss
  functions : ∀ d ∈ defs ss, TypedDef table d
  known : ∀ x t, get? table x = some t →
    x ∈ assigned (stmtsParts ss) ∨ x ∈ ss.filterMap definedName?

theorem Known.putAll {params : TypeTable} (h : Known S Γ) (hdistinct : (params.map Prod.fst).Nodup)
    (hparams : ∀ t ∈ params.map Prod.snd, S t) : Known S (putAll Γ params) := by
  intro x t hx
  rw [get?_putAll Γ hdistinct, or_eq_some_iff] at hx
  rcases hx with hx | ⟨-, hx⟩
  · exact .inl (hparams t (mem_map_of_mem (mem_of_get? hx)))
  · exact h x t hx

/-- A function that shares no name with the main program agrees with it. -/
theorem BodyTable.agrees (hS : Family S) (hΔ : BodyTable table d Δ) (htable : Known S table)
    (hdistinct : d.names.Nodup) (hparams : ∀ t ∈ d.params.map Prod.snd, S t)
    (hfine : AllFine S (stmtsParts d.body))
    (hnew : ∀ x ∈ d.names ++ assigned (stmtsParts d.body), has table x = false) {x s}
    (hs : get? Δ x = some s) (ht : get? table x = some t) : s = t := by
  obtain ⟨Γ, ss, r, hΓ, hss⟩ := hΔ
  have hknown : Known S Γ := fun y u hy => htable y u (hΓ y u hy)
  obtain ⟨-, hleads⟩ := checkStmts_typed hS ss _ _ _ hss (hknown.putAll hdistinct hparams) hfine
  have hold : x ∉ d.names ++ assigned (stmtsParts d.body) := by
    intro hx
    have hhas := hnew x hx
    rw [has, ht] at hhas
    cases hhas
  rw [mem_append, not_or] at hold
  rcases hleads.names x s hs with ⟨u, hu⟩ | hx
  · obtain rfl : u = s := some.inj ((hleads.grows x u hu).symm.trans hs)
    rw [get?_putAll Γ hdistinct, or_eq_some_iff] at hu
    rcases hu with hu | ⟨-, hu⟩
    · exact (hold.1 (mem_map_of_mem (mem_of_get? hu))).elim
    · exact some.inj ((hΓ x u hu).symm.trans ht)
  · exact (hold.2 hx).elim

theorem typedDef_of_checked (hS : Family S) {r place} (hΓ : Known S Γ)
    (hparams : ∀ t ∈ d.params.map Prod.snd, S t) (hd : RegularDef S table d)
    (hdistinct : d.names.Nodup) (htable : Grows Γ table)
    (hss : (checkStmts .functions none ss).run (putAll Γ d.params) = .ok ((d.body, r), Δ))
    (hequate : equate .functions place d.result r = .ok ()) : TypedDef table d := by
  have hget := get?_putAll Γ hdistinct
  have hΓ' := hΓ.putAll hdistinct hparams
  obtain ⟨hr, hleads⟩ := checkStmts_typed hS ss _ _ _ hss hΓ' hd.fine
  obtain rfl := hS.tells hd.result hr hequate
  have hΔ : BodyTable table d Δ := ⟨Γ, ss, _, htable, hss⟩
  refine ⟨hdistinct, Δ, ⟨fun x t hx => ?_, hd.agrees Δ hΔ, fun x t ht => ?_⟩, ?_⟩
  · apply hleads.grows
    rw [hget, get?_of_mem hdistinct hx]
    rfl
  · rcases hleads.names x t ht with ⟨u, hu⟩ | hx
    · rw [hget, or_eq_some_iff] at hu
      rcases hu with hu | ⟨-, hu⟩
      · exact .inr (.inl (mem_map_of_mem (mem_of_get? hu)))
      · exact .inl ⟨u, htable x u hu⟩
    · exact .inr (.inr hx)
  · exact (hleads.holds Δ (.refl Δ)).body (hd.returns Δ hΔ) hd.loops

/-! ## Programs -/

/-- What the checker says of the statements of a program. The table that it ends with is the one
that the functions are typed under. -/
structure MainOutcome (S : Usage) (ss ss' : List Stmt) (Γ Δ : TypeTable) : Prop where
  leads : Leads S (stmtsParts ss') Γ Δ fun Θ =>
    ∀ ds, defs ss' ⊆ ds → TypedStmts Θ (.main ds) ss'
  functions : ∀ d ∈ defs ss', TypedDef Δ d
  names : ss'.filterMap definedName? = ss.filterMap definedName?

theorem exists_def
    (h : Def.ofStmt? (.fundef f ps body ds t k n) = none →
      AllFine S (stmtParts (.fundef f ps body ds t k n))) :
    ∃ params ss, paramTable? ps = some params ∧ body = .stmts ss := by
  cases body with
  | stmts ss =>
    cases hps : paramTable? ps with
    | some params => exact ⟨params, ss, rfl, rfl⟩
    | none =>
      have hnone : Def.ofStmt? (.fundef f ps (.stmts ss) ds t k n) = none := by
        rw [Def.ofStmt?, hps]
        rfl
      cases (allFine_cons.mp (h hnone)).1.plain
  | _ => cases (allFine_cons.mp (h rfl)).1.plain

section

variable (hS : Family S)
include hS

/-- The statements of a program that the type system sees through are checked as a program. -/
def ChecksMain (S : Usage) (ss : List Stmt) (Δ : TypeTable) : Prop :=
  ∀ Γ q, (checkStmts .functions none ss).run Γ = .ok (q, Δ) → Known S Γ →
    (∀ s ∈ ss, DeclaredIn Γ s) →
    (∀ s ∈ q.1, Def.ofStmt? s = none → AllFine S (stmtParts s)) →
    (∀ d ∈ defs q.1, RegularDef S Δ d) → MainOutcome S ss q.1 Γ Δ

omit hS in
theorem of_isSimple (h : isSimple s) (ss) :
    definedName? s = none ∧ Def.ofStmt? s = none ∧ defs (s :: ss) = defs ss := by
  cases s with
  | ret | fundef => cases h
  | _ => exact ⟨rfl, rfl, rfl⟩

omit hS in
theorem checksMain_cons (hsimple : isSimple s) (hs : ChecksStmt S s)
    (hss : ChecksMain S ss Δ) : ChecksMain S (s :: ss) Δ := by
  intro Γ q h hΓ hdecl hstmts hdefs
  obtain ⟨s', q', Γ', hq, hsimple', -, hrun, hleads⟩ := hs ss Γ Δ q h
  obtain ⟨hname', hdef, hdefs'⟩ := of_isSimple hsimple' q'.1
  rw [hq, hdefs'] at hdefs
  rw [hq, forall_mem_cons] at hstmts
  have hleads := hleads hΓ (hstmts.1 hdef)
  have hdecl' : ∀ s ∈ ss, DeclaredIn Γ' s := fun s hs =>
    (hdecl s (mem_cons_of_mem _ hs)).mono hleads.grows
  have hrest := hss Γ' q' hrun hleads.known hdecl' hstmts.2 hdefs
  rw [hq]
  refine ⟨?_, ?_, ?_⟩
  · rw [hdefs']
    refine (hleads.trans hrest.leads).imp (.refl _) ?_
    rintro Θ ⟨hts, hmain⟩ ds hds
    exact .cons (hts none fun t ht => by cases ht) trivial (hmain ds hds)
  · rw [hdefs']
    exact hrest.functions
  · rw [filterMap_cons_none hname', filterMap_cons_none (of_isSimple hsimple ss).1]
    exact hrest.names

/-- What follows where the main program returns is not looked at. -/
theorem checksMain_ret (e n ss Δ) : ChecksMain S (.ret e n :: ss) Δ := by
  intro Γ q h hΓ _ hstmts _
  obtain ⟨p, Δ1, hp, h1⟩ := checked e h
  cases h1
  have hfine := allFine_cons.mp (hstmts (.ret p.1 n) mem_cons_self rfl)
  obtain ⟨-, hleads⟩ := (checkExpr_typed hS e _ _ _ hp).typed hΓ hfine.2
  refine ⟨hleads.imp ?_ fun Θ hte ds _ => ?_, fun d hd => ?_, rfl⟩
  · change _ ⊆ assigned (exprParts p.1 ++ stmtsParts ss)
    exact filterMap_subset _ (subset_append_left _ _)
  · exact .ret n ss hte fun t ht => by cases ht
  · cases hd

theorem checksMain_fundef (hss : ChecksMain S ss Δ) :
    ChecksMain S (.fundef f ps body ds result k n :: ss) Δ := by
  intro Γ q h hΓ hdecl hstmts hdefs
  rw [forall_mem_cons] at hdecl
  obtain ⟨params, t, ps', table, body', q', hheader, hq, hrun, hbody⟩ := checkStmts_fundef_ok h
  rw [hq, forall_mem_cons] at hstmts
  obtain ⟨xts, bs, hps, rfl⟩ := exists_def hstmts.1
  have hdef : Def.ofStmt? (.fundef f ps' (.stmts bs) ds t k n) = some ⟨f, xts, bs, t⟩ := by
    rw [Def.ofStmt?, hps]
    rfl
  have hdefs' : defs (.fundef f ps' (.stmts bs) ds t k n :: q'.1) =
      ⟨f, xts, bs, t⟩ :: defs q'.1 := by
    change (Def.ofStmt? _).toList ++ defs q'.1 = _
    rw [hdef]
    rfl
  rw [hq, hdefs', forall_mem_cons] at hdefs
  obtain ⟨hf, rfl, hdistinct⟩ := hheader.declared hS hΓ hdecl.1 hps hdefs.1.result
  have hrest := hss Γ q' hrun hΓ hdecl.2 hstmts.2 hdefs.2
  obtain ⟨ss', r, Θ, place, hbs, hequate⟩ := hbody bs rfl
  obtain ⟨hparams, -⟩ := hΓ.signature hS hf
  have htyped : TypedDef Δ ⟨f, table, bs, t⟩ :=
    typedDef_of_checked hS hΓ hparams hdefs.1 hdistinct hrest.leads.grows hbs hequate
  have hname : Leads S [] Γ Γ fun Θ => get? Θ f = some (Def.type ⟨f, table, bs, t⟩) :=
    .stay hΓ fun Θ hΘ => hΘ f _ hf
  rw [hq]
  refine ⟨?_, ?_, ?_⟩
  · rw [hdefs']
    refine (hname.trans hrest.leads).imp (.refl _) ?_
    rintro Θ ⟨hx, hmain⟩ ds hds
    rw [cons_subset] at hds
    exact .define hdef hds.1 hx (hmain ds hds.2)
  · rw [hdefs', forall_mem_cons]
    exact ⟨htyped, hrest.functions⟩
  · exact congrArg (f :: ·) hrest.names

theorem checkStmts_main (ss Δ) : ChecksMain S ss Δ := by
  induction ss with
  | nil =>
    intro Γ q h hΓ _ _ _
    cases h
    exact ⟨.stay hΓ fun Θ _ ds _ => .nil trivial, fun d hd => (not_mem_nil hd).elim, rfl⟩
  | cons s ss ih =>
    have hs := checkStmt_typed hS s
    cases s with
    | fundef f ps body ds result k n => exact checksMain_fundef hS ih
    | ret e n => exact checksMain_ret hS e n ss Δ
    | _ => exact checksMain_cons rfl (hs.resolve_left (by rintro ⟨⟩)) ih

/-- A checked program that the type system sees through is typed, with its functions. -/
theorem checkModule_typed (h : checkModule .functions (.module ss n) = .ok (.module ss' n))
    (hss : Regular S ss ss') : TypedProgram (mainTable ss) ss' := by
  obtain ⟨env, hdecl, h⟩ := ok_of_bind h
  obtain ⟨⟨q, Δ⟩, hrun, h⟩ := ok_of_bind h
  change (checkStmts .functions none ss).run env = _ at hrun
  cases h
  have henv : declaredTable ss = env := by rw [declaredTable, hdecl]
  have htable : mainTable ss = Δ := by rw [mainTable, henv, hrun]
  obtain ⟨-, hall, hkeys⟩ := declare_types hdecl
  have htypes := hss.types
  rw [henv] at htypes
  have hregular := hss.defs
  rw [htable] at hregular ⊢
  have hmain := checkStmts_main hS ss Δ env q hrun htypes hall hss.stmts hregular
  refine ⟨hmain.leads.holds Δ (.refl Δ) _ (fun _ hd => hd), hmain.functions, fun x t ht => ?_⟩
  rcases hmain.leads.names x t ht with ⟨u, hu⟩ | hx
  · rcases hkeys x u hu with ⟨v, hv⟩ | hx
    · cases hv
    · rw [hmain.names]
      exact .inr hx
  · exact .inl hx

end

end CompilerKit.Functions
