import CompilerKit.Proofs.Functions.Regular

/-!
# Checked programs of the language of functions

What the checker accepts is typed under the table that it ends with, since a variable keeps the type
that it has been given first.
-/

namespace CompilerKit.Functions

open Check List Bindings
open Loops (Grows grows_put)

theorem Typed.withType (h : Typed Γ e t) (s) : Typed Γ (e.withType s) t := by
  cases h <;> constructor <;> assumption

/-! ## Parts -/

theorem yes_subset (test yes no n) : stmtsParts yes ⊆ stmtParts (.ite test yes no n) := by
  intro p hp
  simp [stmtParts, hp]

theorem no_subset (test yes no n) : stmtsParts no ⊆ stmtParts (.ite test yes no n) := by
  intro p hp
  simp [stmtParts, hp]

theorem body_subset (test body n) : stmtsParts body ⊆ stmtParts (.loop test body [] n) := by
  intro p hp
  simp [stmtParts, hp]

theorem Returns.of_subset (h : Returns Γ o qs) (hps : ps ⊆ qs) : Returns Γ o ps :=
  fun t ht e he => h t ht e (filterMap_subset _ hps he)

theorem AllFine.of_lists (hplain : ps.all Part.isPlain)
    (hrecorded : ∀ t ∈ ps.filterMap Part.recorded?, S t)
    (hmentioned : ∀ x ∈ ps.filterMap Part.mentioned?, x ∉ S.called) : AllFine S ps := fun p hp =>
  ⟨all_eq_true.mp hplain p hp,
    fun t ht => hrecorded t (mem_filterMap.mpr ⟨p, hp, ht⟩),
    fun x hx => hmentioned x (mem_filterMap.mpr ⟨p, hp, hx⟩)⟩

/-! ## Tables -/

theorem Known.of_mem (h : ∀ p ∈ Γ, S p.2 ∨ p.1 ∈ S.called ∧ Signature S p.2) : Known S Γ :=
  fun x t hx => h (x, t) (mem_of_get? hx)

theorem Known.put (h : Known S Γ) (x) (ht : S t) : Known S (put Γ x t) := by
  intro y u hy
  rw [get?_put] at hy
  split at hy
  · cases hy
    exact .inl ht
  · exact h y u hy

theorem Known.type_of_fine (h : Known S Γ) {x} (hx : get? Γ x = some t) {p : Part} (hp : p.Fine S)
    (hmentioned : p.mentioned? = some x) : S t := by
  rcases h x t hx with ht | ⟨hcalled, -⟩
  · exact ht
  · exact (hp.mentioned x hmentioned hcalled).elim

/-- The checker has come from the first table to the second one through parts of the program that
assign to all variables that are new, and `P` holds from then on. -/
structure Leads (S : Usage) (ps : List Part) (Γ Δ : TypeTable) (P : TypeTable → Prop) : Prop where
  known : Known S Δ
  grows : Grows Γ Δ
  names : ∀ x t, get? Δ x = some t → (∃ s, get? Γ x = some s) ∨ x ∈ assigned ps
  holds : ∀ Θ, Grows Δ Θ → P Θ

namespace Leads

variable {P Q : TypeTable → Prop}

theorem stay (hΓ : Known S Γ) (h : ∀ Θ, Grows Γ Θ → P Θ) : Leads S ps Γ Γ P :=
  ⟨hΓ, .refl Γ, fun _ t ht => .inl ⟨t, ht⟩, h⟩

theorem imp (h : Leads S ps Γ Δ P) (hps : assigned ps ⊆ assigned qs) (hPQ : ∀ Θ, P Θ → Q Θ) :
    Leads S qs Γ Δ Q where
  known := h.known
  grows := h.grows
  names x t ht := (h.names x t ht).imp_right fun hx => hps hx
  holds Θ hΘ := hPQ Θ (h.holds Θ hΘ)

theorem trans (h : Leads S ps Γ Δ P) (h' : Leads S qs Δ Θ Q) :
    Leads S (ps ++ qs) Γ Θ fun Θ => P Θ ∧ Q Θ where
  known := h'.known
  grows := h.grows.trans h'.grows
  names x t ht := by
    rw [assigned, filterMap_append, mem_append]
    rcases h'.names x t ht with ⟨s, hs⟩ | hx
    · rcases h.names x s hs with hΓ | hx
      · exact .inl hΓ
      · exact .inr (.inl hx)
    · exact .inr (.inr hx)
  holds Ξ hΞ := ⟨h.holds Ξ (h'.grows.trans hΞ), h'.holds Ξ hΞ⟩

end Leads

theorem equal_all {α : Type} {c : TypeSystem} {f g : α → Ty} {place : α → Culprit} {xs : List α}
    {u : Unit} (h : (xs.forM fun x => equal c (f x) (g x) (place x)).run Γ = .ok (u, Δ)) :
    (∀ x ∈ xs, ∃ place, Ty.equate c place (f x) (g x) = .ok ()) ∧ Δ = Γ := by
  induction xs with
  | nil =>
    cases h
    exact ⟨fun x hx => (not_mem_nil hx).elim, rfl⟩
  | cons x xs ih =>
    obtain ⟨_, hequate, h1⟩ := bind_lift_ok h
    obtain ⟨hrest, hΔ⟩ := ih h1
    exact ⟨forall_mem_cons.mpr ⟨⟨_, hequate⟩, hrest⟩, hΔ⟩

/-! ## Positions -/

theorem HasPart.mem (h : HasPart ts k t) : t ∈ ts := by
  obtain ⟨p, -, hp⟩ := h
  exact mem_of_getElem? hp

theorem typeAt_run (h : (typeAt ts k).run Γ = .ok (t, Δ)) : HasPart ts k t ∧ Δ = Γ := by
  unfold typeAt at h
  by_cases hpos : 0 ≤ k
  · simp only [if_pos hpos] at h
    split at h
    · next u hu =>
      cases h
      have hlt := (List.getElem?_eq_some_iff.mp hu).1
      refine ⟨⟨k.toNat, ?_, hu⟩, rfl⟩
      rw [Value.position, if_pos hpos, if_pos (by omega)]
    · cases h
  · simp only [if_neg hpos] at h
    split at h
    · next hsum =>
      split at h
      · next u hu =>
        cases h
        refine ⟨⟨(k + ts.length).toNat, ?_, hu⟩, rfl⟩
        rw [Value.position, if_neg hpos, if_pos hsum]
      · cases h
    · cases h

theorem lenType_run (ht : IsValueType t) (h : (lenType .functions t).run Γ = .ok (u, Δ)) :
    IsAggregate t ∧ u = .int ∧ Δ = Γ := by
  cases ht with
  | tuple => cases h; exact ⟨.tuple _ _, rfl, rfl⟩
  | list => cases h; exact ⟨.list _, rfl, rfl⟩
  | _ => cases h

theorem exists_int_of_typed (h : Typed Γ (.const c n) .int) : ∃ k id, c = .int k id := by
  cases h with
  | const n hc =>
    cases c with
    | int k id => exact ⟨k, id, rfl⟩
    | _ => cases hc

theorem TypedExprs.length_eq (h : TypedExprs Γ es ts) : ts.length = es.length := by
  induction es generalizing ts with
  | nil => cases h; rfl
  | cons e es ih =>
    cases h with
    | cons _ hes => rw [length_cons, length_cons, ih hes]

/-! ## Expressions -/

section

/-- What the checker says of an expression that it has made `p` of. -/
structure Outcome (S : Usage) (e : Expr) (Γ Δ : TypeTable) (p : Expr × Ty) : Prop where
  named : name? p.1 = name? e
  mentioned : mentioned? p.1 = mentioned? e
  /-- What is recorded in a tuple or a list is its type. -/
  recorded : ∀ t, (Part.expr p.1).recorded? = some t → t = p.2
  typed : Known S Γ → AllFine S (exprParts p.1) →
    S p.2 ∧ Leads S (exprParts p.1) Γ Δ fun Θ => Typed Θ p.1 p.2

/-- What the checker makes of the expression is typed. -/
def Checks (S : Usage) (e : Expr) : Prop :=
  ∀ Γ Δ p, (checkExpr .functions none e).run Γ = .ok (p, Δ) → Outcome S e Γ Δ p

theorem Checks.next (he : Checks S e) {f : Expr × Ty → Check α}
    (h : (checkExpr .functions none e >>= f).run Γ = .ok r) :
    ∃ p Δ, Outcome S e Γ Δ p ∧ (f p).run Δ = .ok r := by
  obtain ⟨p, Δ, hp, h⟩ := bind_ok h
  exact ⟨p, Δ, he Γ Δ p hp, h⟩

def ChecksAll (S : Usage) (es : List Expr) : Prop :=
  ∀ Γ Δ p, (checkExprs .functions es).run Γ = .ok (p, Δ) → Known S Γ → AllFine S (exprsParts p.1) →
    (∀ t ∈ p.2, S t) ∧ Leads S (exprsParts p.1) Γ Δ fun Θ => TypedExprs Θ p.1 p.2

theorem Outcome.plain (hname : name? p.1 = name? e) (hmentioned : mentioned? p.1 = mentioned? e)
    (hp : (Part.expr p.1).recorded? = none)
    (h : Known S Γ → AllFine S (exprParts p.1) → S p.2 ∧
      Leads S (exprParts p.1) Γ Δ fun Θ => Typed Θ p.1 p.2) :
    Outcome S e Γ Δ p := by
  refine ⟨hname, hmentioned, fun t ht => ?_, h⟩
  rw [hp] at ht
  cases ht

/-- The statements are typed as a block if all that they return is of one type, and as the body of a
function if this is the type that the checker has found for them. -/
structure TypedAs (Γ : TypeTable) (ss : List Stmt) (t : Ty) : Prop where
  block : ∀ o, Returns Γ o (stmtsParts ss) → TypedStmts Γ (.block o) ss
  body : Returns Γ (some t) (stmtsParts ss) →
    (t = .void ∨ ∀ p ∈ stmtsParts ss, p.isLoop = false) → TypedStmts Γ (.body t) ss

/-- What the checker makes of the statements is typed. -/
def ChecksStmts (S : Usage) (ss : List Stmt) : Prop :=
  ∀ Γ Δ q, (checkStmts .functions none ss).run Γ = .ok (q, Δ) → Known S Γ →
    AllFine S (stmtsParts q.1) →
    S q.2 ∧ Leads S (stmtsParts q.1) Γ Δ fun Θ => TypedAs Θ q.1 q.2

theorem exprsParts_singleton (e) : exprsParts [e] = exprParts e := append_nil _

theorem assigned_call (x m n args) :
    assigned (exprParts (.call (.name x m) args n)) = assigned (exprsParts args) := rfl

theorem exprParts_withType (e t) :
    exprParts (e.withType t) = .expr (e.withType t) :: (exprParts e).tail := by
  cases e <;> rfl

theorem Outcome.withType (h : Outcome S e Γ Δ p) (hΓ : Known S Γ)
    (hfine : AllFine S (exprParts (p.1.withType p.2))) :
    S p.2 ∧ Leads S (exprParts (p.1.withType p.2)) Γ Δ fun Θ => Typed Θ (p.1.withType p.2) p.2 := by
  obtain ⟨a, t⟩ := p
  rw [exprParts_withType, allFine_cons] at hfine
  have hroot : (Part.expr a).Fine S := by
    refine ⟨?_, fun u hu => ?_, fun x hx => ?_⟩
    · have hplain := hfine.1.plain
      cases a <;> exact hplain
    · obtain rfl := h.recorded u hu
      refine hfine.1.recorded u ?_
      cases a with
      | tuple es m n | list es m n => rfl
      | _ => cases hu
    · refine hfine.1.mentioned x ?_
      cases a <;> exact hx
  have hparts : exprParts a = .expr a :: (exprParts a).tail := by cases a <;> rfl
  have hall : AllFine S (exprParts a) := by
    rw [hparts, allFine_cons]
    exact ⟨hroot, hfine.2⟩
  obtain ⟨ht, hleads⟩ := h.typed hΓ hall
  have hassigned : assigned (exprParts a) = assigned (exprParts a).tail := by
    rw [hparts]
    rfl
  refine ⟨ht, hleads.imp ?_ fun Θ htyped => htyped.withType t⟩
  rw [exprParts_withType, hassigned]
  exact fun _ hx => hx

theorem checks_name (x n) : Checks S (.name x n) := by
  intro Γ Δ p h
  obtain ⟨t, ht, h1⟩ := Vars.lookup_ok x h
  cases h1
  refine .plain rfl rfl rfl fun hΓ hfine => ⟨?_, ?_⟩
  · exact hΓ.type_of_fine ht (allFine_cons.mp hfine).1 rfl
  · exact .stay hΓ fun Θ hΘ => .name n (hΘ x t ht)

theorem checks_funRef (x a n) : Checks S (.funRef x a n) := by
  intro Γ Δ p h
  obtain ⟨t, ht, h1⟩ := Vars.lookup_ok x h
  cases h1
  refine .plain rfl rfl rfl fun hΓ hfine => ⟨?_, ?_⟩
  · exact hΓ.type_of_fine ht (allFine_cons.mp hfine).1 rfl
  · exact .stay hΓ fun Θ hΘ => .funRef a n (hΘ x t ht)

theorem checks_block {ss r} (n) (hss : ChecksStmts S ss) (hr : Checks S r) :
    Checks S (.block ss r n) := by
  intro Γ Δ p h
  obtain ⟨q, Δ1, hq, h1⟩ := bind_ok h
  obtain ⟨p1, Δ2, hp, h2⟩ := hr.next h1
  cases h2
  refine .plain rfl rfl rfl fun hΓ hfine => ?_
  obtain ⟨hf1, hf2⟩ := allFine_rest hfine
  obtain ⟨-, hleads⟩ := hss _ _ _ hq hΓ hf1
  obtain ⟨ht, hleads1⟩ := hp.typed hleads.known hf2
  refine ⟨ht, (hleads.trans hleads1).imp (.refl _) ?_⟩
  rintro Θ ⟨hts, htr⟩
  exact .block n (hts.block none fun t ht => by cases ht) htr

theorem checks_tuple (n) (hes : ChecksAll S es) : Checks S (.tuple es .load n) := by
  intro Γ Δ p h
  obtain ⟨q, Δ1, hq, h1⟩ := bind_ok h
  cases h1
  refine ⟨rfl, rfl, fun t ht => (Option.some.inj ht).symm, fun hΓ hfine => ?_⟩
  obtain ⟨hroot, hrest⟩ := allFine_cons.mp hfine
  obtain ⟨-, hleads⟩ := hes _ _ _ hq hΓ hrest
  exact ⟨hroot.recorded _ rfl, hleads.imp (.refl _) fun Θ htyped => .tuple _ htyped⟩

variable (hS : Family S)
include hS

theorem Outcome.operand (h : Outcome S a Γ Δ p) (ht : S t)
    (heq : Ty.equate .functions place p.2 t = .ok ()) (hΓ : Known S Γ)
    (hfine : AllFine S (exprParts p.1)) : Leads S (exprParts p.1) Γ Δ fun Θ => Typed Θ p.1 t := by
  obtain ⟨hpt, hleads⟩ := h.typed hΓ hfine
  obtain rfl := hS.tells hpt ht heq
  exact hleads

theorem Outcome.test (h : Outcome S a Γ Δ p)
    (heq : Ty.equate .functions place .bool p.2 = .ok ()) (hΓ : Known S Γ)
    (hfine : AllFine S (exprParts p.1)) :
    Leads S (exprParts p.1) Γ Δ fun Θ => Typed Θ p.1 .bool := by
  obtain ⟨hpt, hleads⟩ := h.typed hΓ hfine
  rwa [hS.tells hS.bool hpt heq]

theorem Outcome.operands (hp : Outcome S a Γ Δ p) (hb : Checks S b) {t : Ty} (ht : S t)
    {f : Expr × Ty → Check (Expr × Ty)}
    {r : (Expr × Ty) × TypeTable}
    (h : (do
      equal .functions p.2 t place
      let q ← checkExpr .functions none b
      equal .functions q.2 t (.expr q.1)
      f q).run Δ = .ok r) :
    ∃ q Δ', (f q).run Δ' = .ok r ∧ (Known S Γ → AllFine S (exprParts p.1) →
      AllFine S (exprParts q.1) → Leads S (exprParts p.1 ++ exprParts q.1) Γ Δ'
        fun Θ => Typed Θ p.1 t ∧ Typed Θ q.1 t) := by
  obtain ⟨_, hequate1, h1⟩ := bind_lift_ok h
  obtain ⟨q, Δ2, hq, h2⟩ := hb.next h1
  obtain ⟨_, hequate2, h3⟩ := bind_lift_ok h2
  refine ⟨q, _, h3, fun hΓ hfine1 hfine2 => ?_⟩
  have hleads := hp.operand hS ht hequate1 hΓ hfine1
  exact hleads.trans (hq.operand hS ht hequate2 hleads.known hfine2)

theorem checks_const (c n) : Checks S (.const c n) := by
  intro Γ Δ p h
  have htyped {t : Ty} (hc : constantType? .functions c = some t) (ht : S t)
      (hp : p = (.const c n, t)) (hΔ : Δ = Γ) : Outcome S (.const c n) Γ Δ p := by
    subst hp hΔ
    exact .plain rfl rfl rfl fun hΓ _ => ⟨ht, .stay hΓ fun Θ _ => .const n hc⟩
  cases c with
  | int i id => cases h; exact htyped rfl hS.int rfl rfl
  | bool b => cases h; exact htyped rfl hS.bool rfl rfl
  | none => cases h; exact htyped rfl hS.void rfl rfl
  | _ => cases h

theorem checks_neg (n) (ha : Checks S a) : Checks S (.unary .neg a n) := by
  intro Γ Δ p h
  obtain ⟨p1, Δ1, hp, h1⟩ := ha.next h
  obtain ⟨_, hequate, h2⟩ := bind_lift_ok h1
  cases h2
  refine .plain rfl rfl rfl fun hΓ hfine => ⟨hS.int, ?_⟩
  have hleads := hp.operand hS hS.int hequate hΓ (allFine_cons.mp hfine).2
  exact hleads.imp (.refl _) fun Θ hta => .neg n hta

theorem checks_not (n) (ha : Checks S a) : Checks S (.unary .not a n) := by
  intro Γ Δ p h
  obtain ⟨p1, Δ1, hp, h1⟩ := ha.next h
  obtain ⟨_, hequate, h2⟩ := bind_lift_ok h1
  cases h2
  refine .plain rfl rfl rfl fun hΓ hfine => ⟨hS.bool, ?_⟩
  have hleads := hp.operand hS hS.bool hequate hΓ (allFine_cons.mp hfine).2
  exact hleads.imp (.refl _) fun Θ hta => .not n hta

theorem checks_arith (op n) (ha : Checks S a) (hb : Checks S b) : Checks S (.arith a op b n) := by
  intro Γ Δ p h
  change (if isArithmetic .functions op = true then checkExpr .functions none a >>= _
    else refuse _).run Γ = _ at h
  split at h
  · next hop =>
    obtain ⟨p1, Δ1, hp, h1⟩ := ha.next h
    obtain ⟨p2, Δ2, h2, hleads⟩ := hp.operands hS hb hS.int h1
    cases h2
    refine .plain rfl rfl rfl fun hΓ hfine => ⟨hS.int, ?_⟩
    obtain ⟨hf1, hf2⟩ := allFine_rest hfine
    exact (hleads hΓ hf1 hf2).imp (.refl _) fun Θ ⟨hta, htb⟩ => .arith n hop hta htb
  · cases h

theorem checks_logic (op more n) (ha : Checks S a) (hb : Checks S b) :
    Checks S (.logic op (a :: b :: more) n) := by
  intro Γ Δ p h
  obtain ⟨p1, Δ1, hp, h1⟩ := ha.next h
  obtain ⟨p2, Δ2, h2, hleads⟩ := hp.operands hS hb hS.bool h1
  cases h2
  refine .plain rfl rfl rfl fun hΓ hfine => ⟨hS.bool, ?_⟩
  obtain ⟨hf1, hrest⟩ := allFine_rest hfine
  obtain ⟨hf2, -⟩ := allFine_append.mp hrest
  refine (hleads hΓ hf1 hf2).imp ?_ fun Θ ⟨hta, htb⟩ => .logic op more n hta htb
  change _ ⊆ assigned (exprParts p1.1 ++ (exprParts p2.1 ++ exprsParts more))
  rw [← append_assoc]
  exact filterMap_subset _ (subset_append_left _ _)

theorem checks_cond (n) (htest : Checks S test) (hyes : Checks S yes)
    (hno : Checks S no) : Checks S (.cond test yes no n) := by
  intro Γ Δ p h
  obtain ⟨p1, Δ1, hp1, h1⟩ := htest.next h
  obtain ⟨_, hequate1, h2⟩ := bind_lift_ok h1
  obtain ⟨p2, Δ3, hp2, h3⟩ := hyes.next h2
  obtain ⟨p3, Δ4, hp3, h4⟩ := hno.next h3
  obtain ⟨_, hequate2, h5⟩ := bind_lift_ok h4
  cases h5
  refine .plain rfl rfl rfl fun hΓ hfine => ?_
  obtain ⟨hf12, hf3⟩ := allFine_rest hfine
  obtain ⟨hf1, hf2⟩ := allFine_append.mp hf12
  have hleads := hp1.test hS hequate1 hΓ hf1
  obtain ⟨ht, hleads1⟩ := hp2.typed hleads.known hf2
  obtain ⟨ht', hleads2⟩ := hp3.typed hleads1.known hf3
  have hsame := hS.tells ht ht' hequate2
  refine ⟨ht, ((hleads.trans hleads1).trans hleads2).imp (.refl _) ?_⟩
  rintro Θ ⟨⟨hta, hty⟩, htn⟩
  exact .cond n hta hty (hsame ▸ htn)

theorem checks_compare (op n) (ha : Checks S a) (hb : Checks S b) :
    Checks S (.compare a [op] [b] n) := by
  intro Γ Δ p h
  obtain ⟨p1, Δ1, hp1, h1⟩ := ha.next h
  dsimp only at h1
  split at h1
  · next hany =>
    obtain ⟨p2, Δ2, hp2, h2⟩ := hb.next h1
    obtain ⟨_, hequate, h3⟩ := bind_lift_ok h2
    cases h3
    refine .plain rfl rfl rfl fun hΓ hfine => ⟨hS.bool, ?_⟩
    obtain ⟨hroot, hrest⟩ := allFine_cons.mp hfine
    obtain ⟨hf1, hf2⟩ := allFine_append.mp hrest
    rw [exprsParts_singleton] at hf2
    obtain ⟨ht, hleft⟩ := hp1.typed hΓ hf1
    obtain ⟨ht', hright⟩ := hp2.typed hleft.known hf2
    have hsame := hS.tells ht ht' hequate
    have hop : isComparison op := by simpa [Part.isPlain] using hroot.plain
    refine (hleft.trans hright).imp ?_ fun Θ ⟨hta, htb⟩ =>
      .compare n hop (.inl hany) hta (hsame ▸ htb)
    rw [← exprsParts_singleton p2.1]
    exact fun _ hx => hx
  · obtain ⟨p2, Δ2, h2, hleads⟩ := hp1.operands hS hb hS.int h1
    cases h2
    refine .plain rfl rfl rfl fun hΓ hfine => ⟨hS.bool, ?_⟩
    obtain ⟨hroot, hrest⟩ := allFine_cons.mp hfine
    obtain ⟨hf1, hf2⟩ := allFine_append.mp hrest
    rw [exprsParts_singleton] at hf2
    have hop : isComparison op := by simpa [Part.isPlain] using hroot.plain
    refine (hleads hΓ hf1 hf2).imp ?_ fun Θ ⟨hta, htb⟩ => .compare n hop (.inr rfl) hta htb
    rw [← exprsParts_singleton p2.1]
    exact fun _ hx => hx

theorem checks_list (n) (hes : ChecksAll S es) : Checks S (.list es .load n) := by
  intro Γ Δ p h
  obtain ⟨⟨es', ts⟩, Δ1, hq, h1⟩ := bind_ok h
  cases ts with
  | nil => cases h1
  | cons t ts =>
    obtain ⟨_, Δ2, heq, h2⟩ := bind_ok h1
    obtain ⟨hequate, rfl⟩ := equal_all heq
    cases h2
    refine ⟨rfl, rfl, fun u hu => (Option.some.inj hu).symm, fun hΓ hfine => ?_⟩
    obtain ⟨hroot, hrest⟩ := allFine_cons.mp hfine
    obtain ⟨hts, hleads⟩ := hes _ _ _ hq hΓ hrest
    refine ⟨hroot.recorded _ rfl, hleads.imp (.refl _) fun Θ htyped => ?_⟩
    refine .list _ htyped fun u hu => ?_
    have hlength : (t :: ts).length = es'.length := htyped.length_eq
    have hu := mem_cons_of_mem t hu
    rw [← map_fst_zip (Nat.le_of_eq hlength), mem_map] at hu
    obtain ⟨⟨u, e⟩, hmem, rfl⟩ := hu
    obtain ⟨place, hplace⟩ := hequate _ hmem
    exact (hS.tells (hts t mem_cons_self) (hts u (of_mem_zip hmem).1) hplace).symm

theorem checks_global (x n) : Checks S (.global x n) := by
  intro Γ Δ p h
  cases h
  exact .plain rfl rfl rfl fun hΓ _ => ⟨hS.int, .stay hΓ fun Θ _ => .global x n⟩

theorem checks_subscript (n) (hb : Checks S b) (hi : Checks S i) :
    Checks S (.subscript b i .load n) := by
  intro Γ Δ p h
  obtain ⟨⟨b', s⟩, Δ1, hp1, h1⟩ := hb.next h
  obtain ⟨⟨i', u⟩, Δ2, hp2, h2⟩ := hi.next h1
  obtain ⟨_, hequate, h3⟩ := bind_lift_ok h2
  cases s with
  | tuple ts f =>
    cases i' with
    | const k m =>
      obtain ⟨t, Δ4, hk, h4⟩ := bind_ok h3
      cases h4
      refine .plain rfl rfl rfl fun hΓ hfine => ?_
      obtain ⟨hf1, hf2⟩ := allFine_rest hfine
      obtain ⟨hs, hleads⟩ := hp1.withType hΓ hf1
      have hindex := hp2.operand hS hS.int hequate hleads.known hf2
      obtain ⟨j, id, rfl⟩ := exists_int_of_typed (hindex.holds _ (.refl _))
      obtain ⟨hpart, rfl⟩ := typeAt_run hk
      refine ⟨hS.part hs t hpart.mem, (hleads.trans hindex).imp (.refl _) ?_⟩
      rintro Θ ⟨htb, -⟩
      exact .part id m n htb hpart
    | _ => cases h3
  | list t =>
    cases h3
    refine .plain rfl rfl rfl fun hΓ hfine => ?_
    obtain ⟨hf1, hf2⟩ := allFine_rest hfine
    obtain ⟨hs, hleads⟩ := hp1.withType hΓ hf1
    have hindex := hp2.operand hS hS.int hequate hleads.known hf2
    refine ⟨hS.item hs, (hleads.trans hindex).imp (.refl _) ?_⟩
    rintro Θ ⟨htb, hti⟩
    exact .item n htb hti
  | _ => cases h3

/-! ## Calls -/

theorem checks_input (m n) : Checks S (.call (.name "input_int" m) [] n) := by
  intro Γ Δ p h
  cases h
  exact .plain rfl rfl rfl fun hΓ _ => ⟨hS.int, .stay hΓ fun Θ _ => .input m n⟩

theorem checks_len (m n) (ha : Checks S a) : Checks S (.call (.name "len" m) [a] n) := by
  intro Γ Δ p h
  obtain ⟨p1, Δ1, hp, h1⟩ := ha.next h
  obtain ⟨u, Δ2, hu, h2⟩ := bind_ok h1
  cases h2
  refine .plain rfl rfl rfl fun hΓ hfine => ?_
  obtain ⟨-, hf⟩ := allFine_rest hfine
  obtain ⟨hs, hleads⟩ := hp.withType hΓ (allFine_append.mp hf).1
  obtain ⟨haggregate, rfl, rfl⟩ := lenType_run (hS.value hs) hu
  refine ⟨hS.int, hleads.imp ?_ fun Θ hta => .len m n hta haggregate⟩
  rw [assigned_call, exprsParts_singleton]
  exact fun _ hx => hx

theorem checks_arrayLen (m n) (ha : Checks S a) : Checks S (.call (.name "array_len" m) [a] n) := by
  intro Γ Δ p h
  obtain ⟨⟨a', s⟩, Δ1, hp, h1⟩ := ha.next h
  cases s with
  | list t =>
    cases h1
    refine .plain rfl rfl rfl fun hΓ hfine => ?_
    obtain ⟨-, hf⟩ := allFine_rest hfine
    obtain ⟨-, hleads⟩ := hp.withType hΓ (allFine_append.mp hf).1
    refine ⟨hS.int, hleads.imp ?_ fun Θ hta => .arrayLen m n hta⟩
    rw [assigned_call, exprsParts_singleton]
    exact fun _ hx => hx
  | bottom =>
    cases h1
    refine .plain rfl rfl rfl fun hΓ hfine => ?_
    obtain ⟨-, hf⟩ := allFine_rest hfine
    obtain ⟨hs, -⟩ := hp.withType hΓ (allFine_append.mp hf).1
    cases hS.value hs
  | _ => cases h1

theorem checks_arrayLoad (m n) (ha : Checks S a) (hi : Checks S i) :
    Checks S (.call (.name "array_load" m) [a, i] n) := by
  intro Γ Δ p h
  obtain ⟨⟨a', s⟩, Δ1, hp1, h1⟩ := ha.next h
  obtain ⟨⟨i', u⟩, Δ2, hp2, h2⟩ := hi.next h1
  obtain ⟨_, hequate, h3⟩ := bind_lift_ok h2
  cases s with
  | list t =>
    cases h3
    refine .plain rfl rfl rfl fun hΓ hfine => ?_
    obtain ⟨-, hf⟩ := allFine_rest hfine
    obtain ⟨hf1, hf2⟩ := allFine_append.mp hf
    obtain ⟨hs, hleads⟩ := hp1.typed hΓ hf1
    have hindex := hp2.operand hS hS.int hequate hleads.known (allFine_append.mp hf2).1
    refine ⟨hS.item hs, (hleads.trans hindex).imp ?_ ?_⟩
    · rw [assigned_call]
      simp [exprsParts]
    · rintro Θ ⟨hta, hti⟩
      exact .arrayLoad m n hta hti
  | _ => cases h3

theorem checks_arrayStore (m n) (ha : Checks S a) (hi : Checks S i) (hv : Checks S v) :
    Checks S (.call (.name "array_store" m) [a, i, v] n) := by
  intro Γ Δ p h
  obtain ⟨⟨a', s⟩, Δ1, hp1, h1⟩ := ha.next h
  obtain ⟨⟨v', u⟩, Δ2, hp2, h2⟩ := hv.next h1
  obtain ⟨⟨i', t⟩, Δ3, hp3, h3⟩ := hi.next h2
  obtain ⟨_, hequate, h4⟩ := bind_lift_ok h3
  -- a list that nothing is known of is no value of the language
  have hparts (hΓ : Known S Γ) (hfine : AllFine S (exprsParts [a', i', v'])) :
      S s ∧ S u ∧ Leads S (exprsParts [a', i', v']) Γ Δ3 fun Θ =>
        Typed Θ a' s ∧ Typed Θ v' u ∧ Typed Θ i' .int := by
    obtain ⟨hf1, hf2⟩ := allFine_append.mp hfine
    obtain ⟨hf2, hf3⟩ := allFine_append.mp hf2
    obtain ⟨hs, hleads⟩ := hp1.typed hΓ hf1
    obtain ⟨hu, hvalue⟩ := hp2.typed hleads.known (allFine_append.mp hf3).1
    have hindex := hp3.operand hS hS.int hequate hvalue.known hf2
    refine ⟨hs, hu, (hleads.trans (hvalue.trans hindex)).imp ?_ fun Θ htyped => htyped⟩
    intro x hx
    simp only [assigned, exprsParts, filterMap_append, mem_append] at hx ⊢
    grind
  cases s with
  | list t =>
    obtain ⟨_, hequate', h5⟩ := bind_lift_ok h4
    cases h5
    refine .plain rfl rfl rfl fun hΓ hfine => ⟨hS.void, ?_⟩
    obtain ⟨-, hf⟩ := allFine_rest hfine
    obtain ⟨hs, hu, hleads⟩ := hparts hΓ hf
    obtain rfl := hS.tells (hS.item hs) hu hequate'
    refine hleads.imp (.refl _) ?_
    rintro Θ ⟨hta, htv, hti⟩
    exact .arrayStore m n hta hti htv
  | bottom =>
    cases h4
    refine .plain rfl rfl rfl fun hΓ hfine => ?_
    obtain ⟨-, hf⟩ := allFine_rest hfine
    cases hS.value (hparts hΓ hf).1
  | _ => cases h4

/-- The calls that there are rules for. -/
inductive CallForm : Expr → List Expr → Prop where
  | input (m) : CallForm (.name "input_int" m) []
  | len (m) (a : Expr) : CallForm (.name "len" m) [a]
  | arrayLen (m) (a : Expr) : CallForm (.name "array_len" m) [a]
  | arrayLoad (m) (a i : Expr) : CallForm (.name "array_load" m) [a, i]
  | arrayStore (m) (a i v : Expr) : CallForm (.name "array_store" m) [a, i, v]
  | arity (m) (a : Expr) : CallForm (.name "arity" m) [a]
  | function (hf : IsCallee f) (args : List Expr) : CallForm f args

omit hS in
theorem callForm_of_ok {c} (hc : c = .functions ∨ c = .lambdas) {want r}
    (h : (checkExpr c want (.call f args n)).run Γ = .ok r) : CallForm f args := by
  by_cases hf : IsCallee f
  · exact .function hf args
  · obtain ⟨g, m, rfl, hg⟩ : ∃ g m, f = .name g m ∧ g ∈ builtins := by
      cases f with
      | name g m => exact ⟨g, m, rfl, by simpa [IsCallee, name?] using hf⟩
      | _ => exact absurd (fun x hx => by cases hx) hf
    -- every name is tried with every number of arguments; one of its rules looks at the second
    simp only [builtins, mem_cons, not_mem_nil, or_false] at hg
    rcases hc with rfl | rfl <;>
    rcases hg with rfl | rfl | rfl | rfl | rfl | rfl | rfl | rfl | rfl | rfl | rfl | rfl | rfl |
      rfl | rfl | rfl | rfl | rfl | rfl | rfl | rfl | rfl | rfl <;>
    rcases args with _ | ⟨a, _ | ⟨i, _ | ⟨v, _ | ⟨w, args⟩⟩⟩⟩ <;>
    first
      | cases h
      | cases i <;> cases h
      | constructor

/-- The rule for calls of functions. -/
def callRule (f : Expr) (args : List Expr) (n : Note) : Check (Expr × Ty) := do
  let (g, t) ← checkExpr .functions none f
  let (args, ts) ← checkExprs .functions args
  match t with
  | .function ps r _ =>
    (ts.zip ps).forM fun (t, p) => equal .functions p t (.expr (.call g args n))
    pure (.call g args n, r)
  | t => refuse (.unusable "type_check_exp: in call, unexpected " t)

omit hS in
/-- A call of a function, by what the checker says of the function and of the arguments. -/
theorem calls_ok (hf : IsCallee f)
    (h : (checkExpr .functions none (.call f args n)).run Γ = .ok (p, Δ)) :
    ∃ q Δ1 as ps b, (checkExpr .functions none f).run Γ = .ok (q, Δ1) ∧
      (checkExprs .functions args).run Δ1 = .ok (as, Δ) ∧ q.2 = .function ps p.2 b ∧
      p.1 = .call q.1 as.1 n ∧
      ∀ t ∈ as.2.zip ps, ∃ place, Ty.equate .functions place t.2 t.1 = .ok () := by
  have hrule : checkExpr .functions none (.call f args n) = callRule f args n := by
    unfold callRule
    delta checkExpr checkExprs
    conv => lhs; whnf
    split
    case h_23 g m _ _ _ _ _ _ _ _ _ _ _ _ _ _ _ _ _ _ _ _ _ _ =>
      rw [hf g rfl]
      rfl
    case h_24 => rfl
    all_goals cases hf _ rfl
  rw [hrule] at h
  obtain ⟨q, Δ1, hq, h1⟩ := bind_ok h
  obtain ⟨as, Δ2, has, h2⟩ := bind_ok h1
  dsimp only at h2
  split at h2
  · next ps r b hfun =>
    obtain ⟨_, Δ3, heq, h3⟩ := bind_ok h2
    obtain ⟨hequate, rfl⟩ := equal_all (f := fun t : Ty × Ty => t.2) (g := fun t => t.1) heq
    cases h3
    exact ⟨q, Δ1, as, ps, b, hq, has, hfun, rfl, hequate⟩
  · cases h2

theorem Family.signature {b} (h : S (.function ps r b)) :
    Signature S (.function ps r b) := .function (hS.param h) (hS.result h)

theorem Known.signature (hΓ : Known S Γ) {f b} (hf : get? Γ f = some (.function ps r b)) :
    Signature S (.function ps r b) := by
  rcases hΓ f _ hf with ht | ⟨-, ht⟩
  · exact hS.signature ht
  · exact ht

/-- What is called may be a function that is only called. -/
theorem Checks.callee (hf : Checks S f) {q b}
    (hq : (checkExpr .functions none f).run Γ = .ok (q, Δ)) (htype : q.2 = .function ps r b)
    (hΓ : Known S Γ) {parts}
    (hparts : parts = match mentioned? q.1 with | some _ => [] | none => exprParts q.1)
    (hfine : AllFine S parts) :
    Signature S (.function ps r b) ∧
      Leads S parts Γ Δ fun Θ => Typed Θ q.1 (.function ps r b) := by
  have houtcome := hf _ _ _ hq
  cases hmentioned : mentioned? q.1 with
  | none =>
    rw [hmentioned] at hparts
    subst hparts
    obtain ⟨ht, hleads⟩ := houtcome.typed hΓ hfine
    rw [htype] at ht hleads
    exact ⟨hS.signature ht, hleads⟩
  | some x =>
    rw [houtcome.mentioned] at hmentioned
    cases f with
    | name y n =>
      obtain ⟨t, hy, h1⟩ := Vars.lookup_ok y hq
      cases h1
      cases htype
      exact ⟨hΓ.signature hS hy, .stay hΓ fun Θ hΘ => .name n (hΘ y _ hy)⟩
    | funRef y a n =>
      obtain ⟨t, hy, h1⟩ := Vars.lookup_ok y hq
      cases h1
      cases htype
      exact ⟨hΓ.signature hS hy, .stay hΓ fun Θ hΘ => .funRef a n (hΘ y _ hy)⟩
    | _ => cases hmentioned

theorem checks_call (n) (hf : Checks S f) (hargs : ∀ a ∈ args, Checks S a)
    (hall : ChecksAll S args) : Checks S (.call f args n) := by
  intro Γ Δ p h
  cases callForm_of_ok (.inl rfl) h with
  | input m => exact checks_input hS m n Γ Δ p h
  | len m a => exact checks_len hS m n (hargs a (by simp)) Γ Δ p h
  | arrayLen m a => exact checks_arrayLen hS m n (hargs a (by simp)) Γ Δ p h
  | arrayLoad m a i =>
    exact checks_arrayLoad hS m n (hargs a (by simp)) (hargs i (by simp)) Γ Δ p h
  | arrayStore m a i v =>
    exact checks_arrayStore hS m n (hargs a (by simp)) (hargs i (by simp)) (hargs v (by simp)) Γ Δ
      p h
  | arity => cases h
  | function hcallee =>
    obtain ⟨q, Δ1, as, ps, b, hq, has, htype, hcall, hequate⟩ := calls_ok hcallee h
    obtain ⟨e, r⟩ := p
    subst hcall
    refine .plain rfl rfl rfl fun hΓ hfine => ?_
    obtain ⟨hf1, hf2⟩ := allFine_rest hfine
    obtain ⟨hsignature, hleads⟩ := hf.callee hS hq htype hΓ rfl hf1
    obtain ⟨hts, hleads1⟩ := hall _ _ _ has hleads.known hf2
    obtain ⟨hps, hr⟩ := hsignature
    have hcallee' : IsCallee q.1 := fun x hx => hcallee x ((hf _ _ _ hq).named ▸ hx)
    refine ⟨hr, (hleads.trans hleads1).imp (.refl _) ?_⟩
    rintro Θ ⟨htf, hta⟩
    refine .call n htf hcallee' hta fun t hmem => ?_
    obtain ⟨place, hplace⟩ := hequate t hmem
    have hmem' := of_mem_zip hmem
    exact (hS.tells (hps _ hmem'.2) (hts _ hmem'.1) hplace).symm

end

end CompilerKit.Functions
