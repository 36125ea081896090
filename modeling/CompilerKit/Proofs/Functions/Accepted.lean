import CompilerKit.Proofs.Functions.Typing

/-!
# Accepted programs of the language of functions

The checker goes through statements one after the other. The table that it ends with types all of
them, and the body of a function has the type of its last statement.

* `checksStmts_cons`: a statement and the rest are typed by the table that the rest ends with.
* `checkExpr_typed`, `checkStmts_typed`: all forms together, by recursion on the program.
-/

namespace CompilerKit.Functions

open Check List Bindings
open Loops (Grows grows_put)

variable {α : Type}
/-! ## Definitions -/

theorem inScope_run (h : (inScope more m).run Γ = .ok (a, Δ)) :
    Δ = Γ ∧ ∃ Θ, m.run (putAll Γ more) = .ok (a, Θ) := by
  obtain ⟨_, Δ1, hget, h1⟩ := bind_ok h
  cases hget
  obtain ⟨_, Δ2, hset, h2⟩ := bind_ok h1
  cases hset
  obtain ⟨b, Δ3, hm, h3⟩ := bind_ok h2
  obtain ⟨_, Δ4, hset, h4⟩ := bind_ok h3
  cases hset
  cases h4
  exact ⟨rfl, _, hm⟩

theorem ofExcept_run (h : (ofExcept x).run Γ = .ok (a, Δ)) : x = .ok a ∧ Δ = Γ := by
  cases x with
  | error e => cases h
  | ok b => cases h; exact ⟨rfl, rfl⟩

theorem foreignBody_run (h : (foreignBody rule body).run Γ = .ok (u, Δ)) : Δ = Γ := by
  unfold foreignBody at h
  split at h
  case h_8 =>
    split at h
    · cases h
    · cases h
  case h_6 | h_7 => cases h
  all_goals
    cases h
    rfl

/-- The header of a function: the parameters are different names. -/
structure Header (ps : Params) (result : Ty) (params : List (Term × Ty)) (table : TypeTable)
    (t : Ty) (ps' : Params) : Prop where
  resolved : resolveHeader .functions ps result = .ok (params, t, ps')
  named : scope params = .ok table
  distinct : hasRepeats (params.map (·.1)) = false

theorem header_ok {message : Heap → Printed}
    {rule : List (Term × Ty) × Ty × Params → TypeTable → Check α}
    (h : (liftM (resolveHeader .functions ps result) >>=
      fun header : List (Term × Ty) × Ty × Params => ofExcept (scope header.1) >>= fun table =>
        if (none : Option Ty).isNone && hasRepeats (header.1.map (·.1)) then tell message
        else rule header table).run Γ = .ok r) :
    ∃ params t ps' table, Header ps result params table t ps' ∧
      (rule (params, t, ps') table).run Γ = .ok r := by
  obtain ⟨⟨params, t, ps'⟩, hresolved, h1⟩ := bind_lift_ok h
  obtain ⟨table, Δ2, htable, h2⟩ := bind_ok h1
  obtain ⟨hnamed, rfl⟩ := ofExcept_run htable
  split at h2
  · cases h2
  · next hrepeats => exact ⟨params, t, ps', table, ⟨hresolved, hnamed, by simpa using hrepeats⟩, h2⟩

/-- The body of a function, checked under the table of its parameters, has the type that is
declared. -/
def BodyChecked (Γ table : TypeTable) (t : Ty) (body : Body) : Prop :=
  ∀ ss', body = .stmts ss' → ∃ ss r Δ place,
    (checkStmts .functions none ss).run (putAll Γ table) = .ok ((ss', r), Δ) ∧
    Ty.equate .functions place t r = .ok ()

theorem checkStmts_fundef_ok
    (h : (checkStmts .functions none
      (.fundef f ps body ds result k n :: rest)).run Γ = .ok (q, Δ)) :
    ∃ params t ps' table body' q', Header ps result params table t ps' ∧
      q.1 = .fundef f ps' body' ds t k n :: q'.1 ∧
      (checkStmts .functions none rest).run Γ = .ok (q', Δ) ∧ BodyChecked Γ table t body' := by
  cases body with
  | stmts ss =>
    obtain ⟨params, t, ps', table, hheader, h1⟩ := header_ok h
    obtain ⟨⟨ss', r⟩, Δ1, hss, h2⟩ := bind_ok h1
    obtain ⟨rfl, Θ, hss⟩ := inScope_run hss
    obtain ⟨_, Δ2, hpure, h3⟩ := bind_ok h2
    cases hpure
    obtain ⟨_, hequate, h4⟩ := bind_lift_ok h3
    obtain ⟨q', Δ4, hq, h5⟩ := bind_ok h4
    cases h5
    refine ⟨params, t, ps', table, _, q', hheader, rfl, hq, fun ss hbody => ?_⟩
    cases hbody
    exact ⟨_, r, Θ, _, hss, hequate⟩
  | _ =>
    obtain ⟨params, t, ps', table, hheader, h1⟩ := header_ok h
    obtain ⟨_, Δ1, hforeign, h2⟩ := bind_ok h1
    obtain rfl := foreignBody_run hforeign
    obtain ⟨_, Δ2, hpure, h3⟩ := bind_ok h2
    cases hpure
    obtain ⟨_, -, h4⟩ := bind_lift_ok h3
    obtain ⟨q', Δ4, hq, h5⟩ := bind_ok h4
    cases h5
    refine ⟨params, t, ps', table, _, q', hheader, rfl, hq, fun ss hbody => ?_⟩
    cases hbody

/-! ## Single statements -/

def isConditional : Stmt → Bool
  | .ite _ _ _ _ => true
  | _ => false

/-- The statement is run and goes on: it neither returns nor defines a function. -/
def isSimple : Stmt → Bool
  | .ret _ _ | .fundef _ _ _ _ _ _ _ => false
  | _ => true

section

/-- The checker goes on with the statements that follow a statement under a table that types it. A
conditional is the only one of these statements that may have a type. -/
def GoesOn (S : Usage) (s : Stmt) (rest : List Stmt) (Γ Δ : TypeTable)
    (q : List Stmt × Ty) : Prop :=
  ∃ s' q' Γ', q.1 = s' :: q'.1 ∧ isSimple s' = true ∧ (isConditional s = false → q.2 = q'.2) ∧
    (checkStmts .functions none rest).run Γ' = .ok (q', Δ) ∧
    (Known S Γ → AllFine S (stmtParts s') → Leads S (stmtParts s') Γ Γ' fun Θ =>
      ∀ o, Returns Θ o (stmtParts s') → TypedStmt Θ o s')

theorem GoesOn.next {s'} (h : (do
      let q ← checkStmts .functions none rest
      pure (s' :: q.1, q.2)).run Γ' = .ok (q, Δ)) (hs : isSimple s' = true)
    (hleads : Known S Γ → AllFine S (stmtParts s') → Leads S (stmtParts s') Γ Γ' fun Θ =>
      ∀ o, Returns Θ o (stmtParts s') → TypedStmt Θ o s') : GoesOn S s rest Γ Δ q := by
  obtain ⟨q', Δ1, hq, h⟩ := bind_ok h
  cases h
  exact ⟨s', q', Γ', rfl, hs, fun _ => rfl, hq, hleads⟩

/-- What the checker says of a statement. -/
def ChecksStmt (S : Usage) (s : Stmt) : Prop :=
  ∀ rest Γ Δ q, (checkStmts .functions none (s :: rest)).run Γ = .ok (q, Δ) → GoesOn S s rest Γ Δ q

theorem checksStmt_collect (a n) : ChecksStmt S (.collect a n) := by
  intro rest Γ Δ q h
  exact .next h rfl fun hΓ _ => .stay hΓ fun Θ _ _ _ => .collect a n

/-- A function that is defined among other statements is not looked at. -/
theorem checksStmts_fundef (f ps body ds t k n rest) :
    ChecksStmts S (.fundef f ps body ds t k n :: rest) := by
  intro Γ Δ q h _ hfine
  obtain ⟨_, t', ps', _, body', q', -, hq, -⟩ := checkStmts_fundef_ok h
  rw [hq] at hfine
  cases (allFine_cons.mp (allFine_append.mp hfine).1).1.plain

theorem checksStmts_ret (n rest) (he : Checks S e) : ChecksStmts S (.ret e n :: rest) := by
  intro Γ Δ q h hΓ hfine
  obtain ⟨p, Δ1, hp, h1⟩ := he.next h
  cases h1
  obtain ⟨ht, hleads⟩ := hp.typed hΓ (allFine_cons.mp (allFine_append.mp hfine).1).2
  refine ⟨ht, hleads.imp ?_ fun Θ hte => ⟨fun o ho => ?_, fun _ _ => ?_⟩⟩
  · change _ ⊆ assigned (exprParts p.1 ++ stmtsParts rest)
    exact filterMap_subset _ (subset_append_left _ _)
  · exact .ret n rest hte fun t ht => ho t ht p.1 mem_cons_self p.2 hte
  · exact .ret n rest hte fun t ht => Option.some.inj ht

theorem TypedAs.cons (hs : ∀ o, Returns Γ o (stmtParts s) → TypedStmt Γ o s)
    (hss : TypedAs Γ ss t) : TypedAs Γ (s :: ss) t := by
  have hleft : stmtParts s ⊆ stmtsParts (s :: ss) := subset_append_left _ _
  have hright : stmtsParts ss ⊆ stmtsParts (s :: ss) := subset_append_right _ _
  refine ⟨fun o ho => ?_, fun ho hloops => ?_⟩
  · exact .cons (hs o (ho.of_subset hleft)) trivial (hss.block o (ho.of_subset hright))
  · refine .cons (hs _ (ho.of_subset hleft)) ?_ (hss.body (ho.of_subset hright) ?_)
    · exact hloops.imp_right fun h q hq => h q (hleft hq)
    · exact hloops.imp_right fun h q hq => h q (hright hq)

theorem checksStmts_cons (hcond : isConditional s = false) (hs : ChecksStmt S s)
    (hrest : ChecksStmts S rest) : ChecksStmts S (s :: rest) := by
  intro Γ Δ q h hΓ hfine
  obtain ⟨s', q', Γ', hq, -, htype, hrun, hleads⟩ := hs rest Γ Δ q h
  have ht := htype hcond
  obtain ⟨ss, t⟩ := q
  dsimp only at hq ht
  subst hq ht
  obtain ⟨hf1, hf2⟩ := allFine_append.mp hfine
  have hleads := hleads hΓ hf1
  obtain ⟨hS1, hleads1⟩ := hrest _ _ _ hrun hleads.known hf2
  exact ⟨hS1, (hleads.trans hleads1).imp (.refl _) fun Θ ⟨hts, hss⟩ => .cons hts hss⟩

theorem Checks.refused (h : ∀ Γ r, (checkExpr .functions none e).run Γ ≠ .ok r) : Checks S e :=
  fun Γ Δ p hp => (h Γ (p, Δ) hp).elim

theorem ChecksStmt.refused
    (h : ∀ rest Γ r, (checkStmts .functions none (s :: rest)).run Γ ≠ .ok r) : ChecksStmt S s :=
  fun rest Γ Δ q hq => (h rest Γ (q, Δ) hq).elim

variable (hS : Family S)
include hS

theorem checksStmt_expr (n) (he : Checks S e)
    (hargs : ∀ f args m, e = .call f args m → ∀ a ∈ args, Checks S a) :
    ChecksStmt S (.expr e n) := by
  intro rest Γ Δ q h
  rcases checkStmts_expression (c := .functions) (by simp) none e n rest with
    ⟨k, a, m, rfl⟩ | hwhole
  · obtain ⟨e', Δ1, he', h1⟩ := bind_ok h
    have ha := hargs _ _ _ rfl a mem_cons_self
    obtain ⟨p, Δ2, hp, h2⟩ := ha.next he'
    obtain ⟨_, hequate, h3⟩ := bind_lift_ok h2
    cases h3
    refine .next h1 rfl fun hΓ hfine => ?_
    obtain ⟨-, hf⟩ := allFine_append.mp (allFine_cons.mp (allFine_cons.mp hfine).2).2
    have hleads := hp.operand hS hS.int hequate hΓ (allFine_append.mp hf).1
    refine hleads.imp ?_ fun Θ hta o _ => .print k m n hta
    change _ ⊆ assigned (exprsParts [p.1])
    rw [exprsParts_singleton]
    exact fun _ hx => hx
  · rw [hwhole] at h
    obtain ⟨p, Δ1, hp, h1⟩ := he.next h
    refine .next h1 rfl fun hΓ hfine => ?_
    obtain ⟨-, hleads⟩ := hp.typed hΓ (allFine_cons.mp hfine).2
    exact hleads.imp (.refl _) fun Θ hte o _ => .expr n hte

theorem checksStmt_assign (x m n) (he : Checks S e) : ChecksStmt S (.assign [.name x m] e n) := by
  intro rest Γ Δ q h
  obtain ⟨p, Δ1, hp, h1⟩ := he.next h
  obtain ⟨found, Δ2, hfind, h2⟩ := bind_ok h1
  cases hfind
  split at h2
  · next t ht =>
    obtain ⟨_, hequate, h3⟩ := bind_lift_ok h2
    rw [pure_bind] at h3
    refine .next h3 rfl fun hΓ hfine => ?_
    obtain ⟨hf1, hf2⟩ := allFine_rest hfine
    obtain ⟨hpt, hleads⟩ := hp.typed hΓ hf2
    have htt := hleads.known.type_of_fine ht (allFine_cons.mp hf1).1 rfl
    obtain rfl := hS.tells htt hpt hequate
    have hname : Leads S [] Δ1 Δ1 fun Θ => get? Θ x = some p.2 :=
      .stay hleads.known fun Θ hΘ => hΘ x p.2 ht
    refine (hleads.trans hname).imp ?_ fun _ h o _ => .assign m n h.2 h.1
    rw [append_nil]
    exact fun _ hx => mem_cons_of_mem _ hx
  · next hnone =>
    obtain ⟨_, Δ3, hbind, h3⟩ := bind_ok h2
    cases hbind
    rw [pure_bind] at h3
    refine .next h3 rfl fun hΓ hfine => ?_
    obtain ⟨hpt, hleads⟩ := hp.typed hΓ (allFine_rest hfine).2
    have hname : Leads S [.stmt (.assign [.name x m] p.1 n)] Δ1 (put Δ1 x p.2) fun Θ =>
        get? Θ x = some p.2 := by
      refine ⟨hleads.known.put x hpt, grows_put hnone p.2, fun y u hy => ?_, fun Θ hΘ => ?_⟩
      · rw [get?_put] at hy
        split at hy
        · next hyx => exact .inr (mem_singleton.mpr (beq_iff_eq.mp hyx))
        · exact .inl ⟨u, hy⟩
      · apply hΘ x p.2
        rw [get?_put, if_pos (beq_self_eq_true x)]
    refine (hleads.trans hname).imp ?_ fun _ h o _ => .assign m n h.2 h.1
    intro y hy
    rw [assigned, filterMap_append, mem_append] at hy
    rcases hy with hy | hy
    · exact mem_cons_of_mem _ hy
    · rw [mem_singleton.mp hy]
      exact mem_cons_self

theorem checksStmt_store (m n) (hb : Checks S b) (hi : Checks S i) (he : Checks S e) :
    ChecksStmt S (.assign [.subscript b i .store m] e n) := by
  intro rest Γ Δ q h
  obtain ⟨⟨b', s⟩, Δ1, hp1, h1⟩ := hb.next h
  obtain ⟨⟨e', u⟩, Δ2, hp2, h2⟩ := he.next h1
  obtain ⟨⟨i', t⟩, Δ3, hp3, h3⟩ := hi.next h2
  obtain ⟨_, hequate, h4⟩ := bind_lift_ok h3
  have hparts (hΓ : Known S Γ)
      (hfine : AllFine S (stmtParts (.assign [.subscript (b'.withType s) i' .store m] e' n))) :
      S s ∧ S u ∧ Leads S (stmtParts (.assign [.subscript (b'.withType s) i' .store m] e' n)) Γ Δ3
        fun Θ => Typed Θ (b'.withType s) s ∧ Typed Θ e' u ∧ Typed Θ i' .int := by
    obtain ⟨htarget, hf3⟩ := allFine_rest hfine
    obtain ⟨hf1, hf2⟩ := allFine_append.mp (allFine_cons.mp (allFine_append.mp htarget).1).2
    obtain ⟨hs, hleads⟩ := hp1.withType hΓ hf1
    obtain ⟨hu, hvalue⟩ := hp2.typed hleads.known hf3
    have hindex := hp3.operand hS hS.int hequate hvalue.known hf2
    refine ⟨hs, hu, (hleads.trans (hvalue.trans hindex)).imp ?_ fun Θ htyped => htyped⟩
    intro x hx
    change x ∈ assigned ((exprParts (b'.withType s) ++ exprParts i') ++ [] ++ exprParts e')
    simp only [assigned, filterMap_append, mem_append] at hx ⊢
    grind
  cases s with
  | tuple ts f =>
    cases i' with
    | const k l =>
      cases k with
      | int k id =>
        dsimp only at h4
        split at h4
        · obtain ⟨v, Δ5, hk, h5⟩ := bind_ok h4
          obtain ⟨hpart, rfl⟩ := typeAt_run hk
          obtain ⟨_, hequate', h6⟩ := bind_lift_ok h5
          refine .next h6 rfl fun hΓ hfine => ?_
          obtain ⟨hs, hu, hleads⟩ := hparts hΓ hfine
          obtain rfl := hS.tells (hS.part hs v hpart.mem) hu hequate'
          refine hleads.imp (.refl _) ?_
          rintro Θ ⟨htb, hte, -⟩ o -
          exact .storePart id l m n htb hpart hte
        · cases h4
      | _ => cases h4
    | _ => cases h4
  | list v =>
    obtain ⟨_, hequate', h5⟩ := bind_lift_ok h4
    refine .next h5 rfl fun hΓ hfine => ?_
    obtain ⟨hs, hu, hleads⟩ := hparts hΓ hfine
    obtain rfl := hS.tells (hS.item hs) hu hequate'
    refine hleads.imp (.refl _) ?_
    rintro Θ ⟨htb, hte, hti⟩ o -
    exact .storeItem m n htb hti hte
  | bottom =>
    refine .next h4 rfl fun hΓ hfine => ?_
    cases hS.value (hparts hΓ hfine).1
  | _ => cases h4

theorem checksStmt_loop {body} (n) (htest : Checks S test) (hbody : ChecksStmts S body) :
    ChecksStmt S (.loop test body [] n) := by
  intro rest Γ Δ q h
  obtain ⟨p, Δ1, hp, h1⟩ := htest.next h
  obtain ⟨_, hequate, h2⟩ := bind_lift_ok h1
  obtain ⟨bs, Δ3, hbs, h3⟩ := bind_ok h2
  refine .next h3 rfl fun hΓ hfine => ?_
  obtain ⟨hroot, hrest⟩ := allFine_cons.mp hfine
  obtain ⟨hf1, hf2⟩ := allFine_append.mp hrest
  have hleads := hp.test hS hequate hΓ hf1
  obtain ⟨-, hleads1⟩ := hbody _ _ _ hbs hleads.known hf2
  refine (hleads.trans hleads1).imp (.refl _) ?_
  rintro Θ ⟨ht, hb⟩ o ho
  exact .loop hroot.plain ht (hb.block o (ho.of_subset (body_subset _ _ _)))

/-! ## Conditionals -/

/-- The branches of a conditional, which are of one type. -/
structure Branches (S : Usage) (Γ Δ : TypeTable) (test : Expr) (yes no : List Stmt) (n : Note)
    (t : Ty) : Prop where
  type : S t
  leads : Leads S (stmtParts (.ite test yes no n)) Γ Δ fun Θ =>
    (∀ o, Returns Θ o (stmtParts (.ite test yes no n)) → TypedStmt Θ o (.ite test yes no n)) ∧
    TypedAs Θ [.ite test yes no n] t

/-- What the checker says of a conditional: only the last one of some statements has their type. -/
theorem checkStmts_ite_ok (htest : Checks S test) (hyes : ChecksStmts S yes)
    (hno : ChecksStmts S no)
    (h : (checkStmts .functions none (.ite test yes no n :: rest)).run Γ = .ok (q, Δ)) :
    ∃ test' yes' no' t q' Γ', q.1 = .ite test' yes' no' n :: q'.1 ∧
      q.2 = (if rest.isEmpty then t else q'.2) ∧
      (checkStmts .functions none rest).run Γ' = .ok (q', Δ) ∧
      (Known S Γ → AllFine S (stmtParts (.ite test' yes' no' n)) →
        Branches S Γ Γ' test' yes' no' n t) := by
  rw [Loops.checkStmts_ite (.inr rfl)] at h
  obtain ⟨p, Δ1, hp, h1⟩ := htest.next h
  obtain ⟨_, hequate, h2⟩ := bind_lift_ok h1
  obtain ⟨ys, Δ3, hys, h3⟩ := bind_ok h2
  obtain ⟨ns, Δ4, hns, h4⟩ := bind_ok h3
  obtain ⟨_, hequate', h5⟩ := bind_lift_ok h4
  have hbranches (hΓ : Known S Γ) (hfine : AllFine S (stmtParts (.ite p.1 ys.1 ns.1 n))) :
      Branches S Γ Δ4 p.1 ys.1 ns.1 n ys.2 := by
    obtain ⟨hroot, hrest⟩ := allFine_cons.mp hfine
    obtain ⟨hf12, hf3⟩ := allFine_append.mp hrest
    obtain ⟨hf1, hf2⟩ := allFine_append.mp hf12
    have hleads := hp.test hS hequate hΓ hf1
    obtain ⟨ht, hleads1⟩ := hyes _ _ _ hys hleads.known hf2
    obtain ⟨ht', hleads2⟩ := hno _ _ _ hns hleads1.known hf3
    have hsame := hS.tells ht ht' hequate'
    have hy := yes_subset p.1 ys.1 ns.1 n
    have hn := no_subset p.1 ys.1 ns.1 n
    refine ⟨ht, ((hleads.trans hleads1).trans hleads2).imp (.refl _) ?_⟩
    rintro Θ ⟨⟨htt, hyes⟩, hno⟩
    rw [← hsame] at hno
    have hite (o : Option Ty) (ho : Returns Θ o (stmtParts (.ite p.1 ys.1 ns.1 n))) :
        TypedStmt Θ o (.ite p.1 ys.1 ns.1 n) :=
      .ite hroot.plain htt (hyes.block o (ho.of_subset hy)) (hno.block o (ho.of_subset hn))
    refine ⟨hite, fun o ho => ?_, fun ho hloops => ?_⟩
    · exact .cons (hite o (ho.of_subset (subset_append_left _ _))) trivial (.nil trivial)
    · change Returns Θ _ (stmtParts _ ++ []) at ho
      change _ ∨ ∀ q ∈ stmtParts _ ++ [], _ at hloops
      rw [append_nil] at ho hloops
      refine .last hroot.plain htt (hyes.body (ho.of_subset hy) ?_) (hno.body (ho.of_subset hn) ?_)
      · exact hloops.imp_right fun h q hq => h q (hy hq)
      · exact hloops.imp_right fun h q hq => h q (hn hq)
  cases rest with
  | nil =>
    cases h5
    exact ⟨p.1, ys.1, ns.1, ys.2, ([], .void), _, rfl, rfl, rfl, hbranches⟩
  | cons s rest =>
    obtain ⟨q', Δ6, hq, h6⟩ := bind_ok h5
    cases h6
    exact ⟨p.1, ys.1, ns.1, ys.2, q', _, rfl, rfl, hq, hbranches⟩

theorem checksStmt_ite (n) (htest : Checks S test) (hyes : ChecksStmts S yes)
    (hno : ChecksStmts S no) : ChecksStmt S (.ite test yes no n) := by
  intro rest Γ Δ q h
  obtain ⟨test', yes', no', t, q', Γ', hq, -, hrest, hbranches⟩ :=
    checkStmts_ite_ok hS htest hyes hno h
  refine ⟨_, q', Γ', hq, rfl, fun hcond => ?_, hrest, fun hΓ hfine => ?_⟩
  · cases hcond
  · exact (hbranches hΓ hfine).leads.imp (.refl _) fun Θ htyped => htyped.1

/-! ## Statements one after the other -/

theorem checksStmts_nil : ChecksStmts S [] := by
  intro Γ Δ q h hΓ _
  cases h
  exact ⟨hS.void, .stay hΓ fun Θ _ => ⟨fun o _ => .nil trivial, fun _ _ => .nil rfl⟩⟩

theorem checksStmts_ite (n) (htest : Checks S test) (hyes : ChecksStmts S yes)
    (hno : ChecksStmts S no) (hrest : ChecksStmts S rest) :
    ChecksStmts S (.ite test yes no n :: rest) := by
  intro Γ Δ q h hΓ hfine
  obtain ⟨test', yes', no', t, q', Γ', hq, ht, hrun, hbranches⟩ :=
    checkStmts_ite_ok hS htest hyes hno h
  obtain ⟨ss, u⟩ := q
  subst hq
  obtain ⟨hf1, hf2⟩ := allFine_append.mp hfine
  obtain ⟨hS1, hleads⟩ := hbranches hΓ hf1
  obtain ⟨hS2, hleads1⟩ := hrest _ _ _ hrun hleads.known hf2
  have hboth := hleads.trans hleads1
  cases rest with
  | nil =>
    cases hrun
    subst ht
    exact ⟨hS1, hboth.imp (.refl _) fun Θ ⟨⟨_, hlast⟩, _⟩ => hlast⟩
  | cons s rest =>
    subst ht
    exact ⟨hS2, hboth.imp (.refl _) fun Θ ⟨⟨hite, _⟩, hss⟩ => .cons hite hss⟩

/-! ## Whole expressions and statements -/

end

mutual

theorem checkExpr_typed {S} (hS : Family S) (e) : Checks S e := by
  cases e with
  | name x n => exact checks_name x n
  | const c n => exact checks_const hS c n
  | arith a op b n => exact checks_arith hS op n (checkExpr_typed hS a) (checkExpr_typed hS b)
  | logic op es n =>
    rcases es with _ | ⟨a, _ | ⟨b, more⟩⟩
    · exact .refused nofun
    · exact .refused nofun
    · exact checks_logic hS op more n (checkExpr_typed hS a) (checkExpr_typed hS b)
  | unary op a n =>
    cases op with
    | neg => exact checks_neg hS n (checkExpr_typed hS a)
    | not => exact checks_not hS n (checkExpr_typed hS a)
    | _ => exact .refused nofun
  | call f args n =>
    exact checks_call hS n (checkExpr_typed hS f) (fun a ha => checkExpr_typed hS a)
      (checkExprs_typed hS args)
  | cond test yes no n =>
    exact checks_cond hS n (checkExpr_typed hS test) (checkExpr_typed hS yes)
      (checkExpr_typed hS no)
  | compare a ops rs n =>
    rcases ops with _ | ⟨op, _ | ⟨op', ops⟩⟩
    · exact .refused nofun
    · rcases rs with _ | ⟨b, _ | ⟨b', rs⟩⟩
      · exact .refused nofun
      · exact checks_compare hS op n (checkExpr_typed hS a) (checkExpr_typed hS b)
      · exact .refused nofun
    · exact .refused nofun
  | tuple es access n =>
    cases access with
    | load => exact checks_tuple n (checkExprs_typed hS es)
    | _ => exact .refused nofun
  | list es access n =>
    cases access with
    | load => exact checks_list hS n (checkExprs_typed hS es)
    | _ => exact .refused nofun
  | subscript b i access n =>
    cases access with
    | load => exact checks_subscript hS n (checkExpr_typed hS b) (checkExpr_typed hS i)
    | _ => exact .refused nofun
  | block ss r n => exact checks_block n (checkStmts_typed hS ss) (checkExpr_typed hS r)
  | global x n => exact checks_global hS x n
  | funRef x a n => exact checks_funRef x a n
  | allocate l t n =>
    cases t with
    | tuple ts b =>
      intro Γ Δ p h
      cases h
      exact .plain rfl rfl rfl fun _ hfine => by cases (allFine_cons.mp hfine).1.plain
    | _ => exact .refused nofun
  | allocateArray l t n =>
    intro Γ Δ p h
    cases h
    exact .plain rfl rfl rfl fun _ hfine => by cases (allFine_cons.mp hfine).1.plain
  | other t => exact .refused fun Γ r => Vars.refuseTree_error
  | _ => exact .refused nofun
termination_by sizeOf e

theorem checkExprs_typed {S} (hS : Family S) (es) : ChecksAll S es := by
  cases es with
  | nil =>
    intro Γ Δ p h hΓ _
    cases h
    exact ⟨fun t ht => (not_mem_nil ht).elim, .stay hΓ fun Θ _ => .nil⟩
  | cons e es =>
    intro Γ Δ p h hΓ hfine
    obtain ⟨p1, Δ1, hp1, h1⟩ := (checkExpr_typed hS e).next h
    obtain ⟨p2, Δ2, hp2, h2⟩ := bind_ok h1
    cases h2
    obtain ⟨hf1, hf2⟩ := allFine_append.mp hfine
    obtain ⟨ht, hleads⟩ := hp1.typed hΓ hf1
    obtain ⟨hts, hleads1⟩ := checkExprs_typed hS es _ _ _ hp2 hleads.known hf2
    refine ⟨forall_mem_cons.mpr ⟨ht, hts⟩, (hleads.trans hleads1).imp (.refl _) ?_⟩
    rintro Θ ⟨hte, htes⟩
    exact .cons hte htes
termination_by sizeOf es

theorem checkStmt_typed {S} (hS : Family S) (s) : isSimple s = false ∨ ChecksStmt S s := by
  cases s with
  | expr e n =>
    have he := checkExpr_typed hS e
    cases e with
    | call f args m =>
      have hargs : ∀ a ∈ args, Checks S a := fun a ha =>
        have := sizeOf_lt_of_mem ha
        checkExpr_typed hS a
      exact .inr (checksStmt_expr hS n he fun g as k hcall => by cases hcall; exact hargs)
    | _ => exact .inr (checksStmt_expr hS n he fun f args m hcall => by cases hcall)
  | assign ts e n =>
    rcases ts with _ | ⟨t, _ | ⟨t', ts⟩⟩
    · exact .inr (.refused nofun)
    · cases t with
      | name x m => exact .inr (checksStmt_assign hS x m n (checkExpr_typed hS e))
      | subscript b i access m =>
        cases access with
        | store =>
          exact .inr (checksStmt_store hS m n (checkExpr_typed hS b) (checkExpr_typed hS i)
            (checkExpr_typed hS e))
        | _ => exact .inr (.refused nofun)
      | _ => exact .inr (.refused nofun)
    · cases t with
      | subscript b i access m =>
        exact .inr (.refused fun rest Γ r h => by cases access <;> cases h)
      | _ => exact .inr (.refused nofun)
  | ite test yes no n =>
    exact .inr (checksStmt_ite hS n (checkExpr_typed hS test) (checkStmts_typed hS yes)
      (checkStmts_typed hS no))
  | loop test body no n =>
    cases no with
    | nil => exact .inr (checksStmt_loop hS n (checkExpr_typed hS test) (checkStmts_typed hS body))
    | cons s no => exact .inr (.refused nofun)
  | collect a n => exact .inr (checksStmt_collect a n)
  | annAssign t hint e k n => exact .inr (.refused fun rest Γ r h => by cases t <;> cases h)
  | ret e n | fundef f ps body ds t k n => exact .inl rfl
  | _ => exact .inr (.refused nofun)
termination_by sizeOf s

theorem checkStmts_typed {S} (hS : Family S) (ss) : ChecksStmts S ss := by
  cases ss with
  | nil => exact checksStmts_nil hS
  | cons s rest =>
    have hs := checkStmt_typed hS s
    cases s with
    | ret e n => exact checksStmts_ret n rest (checkExpr_typed hS e)
    | ite test yes no n =>
      exact checksStmts_ite hS n (checkExpr_typed hS test) (checkStmts_typed hS yes)
        (checkStmts_typed hS no) (checkStmts_typed hS rest)
    | fundef f ps body ds t k n => exact checksStmts_fundef f ps body ds t k n rest
    | _ => exact checksStmts_cons rfl (hs.resolve_left (by rintro ⟨⟩)) (checkStmts_typed hS rest)
termination_by sizeOf ss

end

end CompilerKit.Functions
