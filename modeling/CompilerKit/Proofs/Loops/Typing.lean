import CompilerKit.Proofs.Loops.Machine
import CompilerKit.Proofs.Vars.Typed

/-!
# Checked programs of the language of loops

The type system of the language has two types. Its tables only grow: once a variable has a type, it
keeps it. So a program that is checked has its types in the last table.
-/

namespace CompilerKit.Loops

open Check Bindings

variable {Γ Δ : TypeTable} {place : Culprit} {a b e : Expr}

/-! ## Types -/

/-- The types of the language. -/
inductive Kind where
  | int
  | bool

/-- The type as the checker has it. -/
def Kind.ty : Kind → Ty
  | int => .int
  | bool => .bool

variable {j k : Kind}

theorem Kind.ty_injective (h : j.ty = k.ty) : j = k := by
  cases j <;> cases k
  · rfl
  · cases h
  · cases h
  · rfl

/-- The value is of the type. -/
inductive OfKind : Kind → Value → Prop where
  | int (i id) : OfKind .int (.int i id)
  | bool (b : Bool) : OfKind .bool (.bool b)

/-- The operands that a comparison takes. -/
def Compares (op : CmpOp) (k : Kind) : Prop := comparesAny .loops op = true ∨ k = .int

mutual

/-- Expressions under a table of types. -/
inductive Typed (Γ : TypeTable) : Expr → Kind → Prop where
  | name {k : Kind} (n) (hx : get? Γ x = some k.ty) : Typed Γ (.name x n) k
  | int (i id n) : Typed Γ (.const (.int i id) n) .int
  | bool (b : Bool) (n) : Typed Γ (.const (.bool b) n) .bool
  | input (m n) : Typed Γ (.call (.name "input_int" m) [] n) .int
  | neg {a : Expr} (n) (ha : Typed Γ a .int) : Typed Γ (.unary .neg a n) .int
  | not {a : Expr} (n) (ha : Typed Γ a .bool) : Typed Γ (.unary .not a n) .bool
  | arith {a b op} (n) (hop : hasArith .loops op) (ha : Typed Γ a .int) (hb : Typed Γ b .int) :
      Typed Γ (.arith a op b n) .int
  | logic {a b : Expr} (op more n) (ha : Typed Γ a .bool) (hb : Typed Γ b .bool) :
      Typed Γ (.logic op (a :: b :: more) n) .bool
  | cond {k : Kind} (n) (htest : Typed Γ test .bool) (hyes : Typed Γ yes k) (hno : Typed Γ no k) :
      Typed Γ (.cond test yes no n) k
  | compare {a b op k} (n) (hop : isComparison op) (hk : Compares op k) (ha : Typed Γ a k)
      (hb : Typed Γ b k) : Typed Γ (.compare a [op] [b] n) .bool
  | block {k : Kind} (n) (hss : ∀ s ∈ ss, TypedStmt Γ s) (hr : Typed Γ r k) :
      Typed Γ (.block ss r n) k

/-- Statements under a table of types. -/
inductive TypedStmt (Γ : TypeTable) : Stmt → Prop where
  | print {e : Expr} (m n k : Note) (he : Typed Γ e .int) :
      TypedStmt Γ (.expr (.call (.name "print" m) [e] n) k)
  | expr {e : Expr} {k : Kind} (n) (he : Typed Γ e k) : TypedStmt Γ (.expr e n)
  | assign {e x k} (m n) (hx : get? Γ x = some k.ty) (he : Typed Γ e k) :
      TypedStmt Γ (.assign [.name x m] e n)
  | ite (n) (htest : Typed Γ test .bool) (hyes : ∀ s ∈ yes, TypedStmt Γ s)
      (hno : ∀ s ∈ no, TypedStmt Γ s) : TypedStmt Γ (.ite test yes no n)
  | loop (n) (htest : Typed Γ test .bool) (hbody : ∀ s ∈ body, TypedStmt Γ s) :
      TypedStmt Γ (.loop test body [] n)

end

/-! ## Tables -/

/-- All types of the table are of the language. -/
def Plain (Γ : TypeTable) : Prop := ∀ x t, get? Γ x = some t → ∃ k : Kind, t = k.ty

/-- The second table has what the first one has. -/
def Grows (Γ Δ : TypeTable) : Prop := ∀ x t, get? Γ x = some t → get? Δ x = some t

theorem Grows.refl (Γ) : Grows Γ Γ := fun _ _ h => h

theorem Grows.trans (h : Grows Γ Δ) (h' : Grows Δ Θ) : Grows Γ Θ := fun x t hx => h' x t (h x t hx)

theorem Plain.put (hΓ : Plain Γ) (x) (k : Kind) : Plain (put Γ x k.ty) := by
  intro y t hy
  rw [get?_put] at hy
  split at hy
  · exact ⟨k, (Option.some.inj hy).symm⟩
  · exact hΓ y t hy

theorem grows_put (hx : get? Γ x = none) (t) : Grows Γ (put Γ x t) := by
  intro y u hy
  rw [get?_put]
  split
  · next hyx =>
    rw [beq_iff_eq.mp hyx, hx] at hy
    cases hy
  · exact hy

/-- The checker has come from the first table to the second one, and `P` holds from then on. -/
structure Leads (Γ Δ : TypeTable) (P : TypeTable → Prop) : Prop where
  plain : Plain Δ
  grows : Grows Γ Δ
  holds : ∀ Θ, Grows Δ Θ → P Θ

namespace Leads

variable {Θ : TypeTable} {P Q : TypeTable → Prop}

theorem stay (hΓ : Plain Γ) (h : ∀ Θ, Grows Γ Θ → P Θ) : Leads Γ Γ P := ⟨hΓ, .refl Γ, h⟩

theorem imp (h : Leads Γ Δ P) (hPQ : ∀ Θ, P Θ → Q Θ) : Leads Γ Δ Q :=
  ⟨h.plain, h.grows, fun Θ hΘ => hPQ Θ (h.holds Θ hΘ)⟩

theorem trans (h : Leads Γ Δ P) (h' : Leads Δ Θ Q) : Leads Γ Θ fun Θ => P Θ ∧ Q Θ where
  plain := h'.plain
  grows := h.grows.trans h'.grows
  holds Ξ hΞ := ⟨h.holds Ξ (h'.grows.trans hΞ), h'.holds Ξ hΞ⟩

end Leads

/-! ## Expressions -/

theorem equal_kinds {f : Unit → Check α}
    (h : (equal .loops j.ty k.ty place >>= f).run Γ = .ok r) : j = k ∧ (f ()).run Γ = .ok r := by
  obtain ⟨_, hequate, h⟩ := bind_lift_ok h
  refine ⟨?_, h⟩
  cases j <;> cases k
  · rfl
  · cases hequate
  · cases hequate
  · rfl

/-- What the checker says of an expression. -/
def Checks (e : Expr) : Prop :=
  ∀ Γ Δ p, Plain Γ → (checkExpr .loops none e).run Γ = .ok (p, Δ) →
    ∃ k : Kind, p.2 = k.ty ∧ Leads Γ Δ fun Θ => Typed Θ e k

theorem Checks.next {f : Expr × Ty → Check α} (he : Checks e) (hΓ : Plain Γ)
    (h : (checkExpr .loops none e >>= f).run Γ = .ok r) :
    ∃ e' k Δ, (Leads Γ Δ fun Θ => Typed Θ e k) ∧ (f (e', k.ty)).run Δ = .ok r := by
  obtain ⟨⟨e', t⟩, Δ, hp, h⟩ := bind_ok h
  obtain ⟨k, rfl, hleads⟩ := he Γ Δ _ hΓ hp
  exact ⟨e', k, Δ, hleads, h⟩

theorem checks_name (x n) : Checks (.name x n) := by
  intro Γ Δ p hΓ h
  obtain ⟨t, ht, h1⟩ := Vars.lookup_ok x h
  obtain ⟨k, rfl⟩ := hΓ x t ht
  cases h1
  exact ⟨k, rfl, .stay hΓ fun Θ hΘ => .name n (hΘ x k.ty ht)⟩

theorem checks_input (m n) : Checks (.call (.name "input_int" m) [] n) := by
  intro Γ Δ p hΓ h
  -- the rule for calls is opened alone, as for the language of variables
  cases h
  exact ⟨.int, rfl, .stay hΓ fun Θ _ => .input m n⟩

theorem checks_neg (n) (ha : Checks a) : Checks (.unary .neg a n) := by
  intro Γ Δ p hΓ h
  obtain ⟨_, _, _, hleads, h1⟩ := ha.next hΓ h
  obtain ⟨rfl, h2⟩ := equal_kinds (k := .int) h1
  cases h2
  exact ⟨.int, rfl, hleads.imp fun Θ hta => .neg n hta⟩

theorem checks_not (n) (ha : Checks a) : Checks (.unary .not a n) := by
  intro Γ Δ p hΓ h
  obtain ⟨_, _, _, hleads, h1⟩ := ha.next hΓ h
  obtain ⟨rfl, h2⟩ := equal_kinds (k := .bool) h1
  cases h2
  exact ⟨.bool, rfl, hleads.imp fun Θ hta => .not n hta⟩

theorem isArithmetic_loops (op) : isArithmetic .loops op = hasArith .loops op := by
  cases op <;> rfl

theorem checks_arith {op} (n) (hop : hasArith .loops op) (ha : Checks a) (hb : Checks b) :
    Checks (.arith a op b n) := by
  intro Γ Δ p hΓ h
  change (if isArithmetic .loops op = true then checkExpr .loops none a >>= _
    else refuse _).run Γ = _ at h
  rw [isArithmetic_loops, if_pos hop] at h
  obtain ⟨_, _, _, hleft, h1⟩ := ha.next hΓ h
  obtain ⟨rfl, h2⟩ := equal_kinds (k := .int) h1
  obtain ⟨_, _, _, hright, h3⟩ := hb.next hleft.plain h2
  obtain ⟨rfl, h4⟩ := equal_kinds (k := .int) h3
  cases h4
  exact ⟨.int, rfl, (hleft.trans hright).imp fun Θ ⟨hta, htb⟩ => .arith n hop hta htb⟩

theorem checks_logic (op more n) (ha : Checks a) (hb : Checks b) :
    Checks (.logic op (a :: b :: more) n) := by
  intro Γ Δ p hΓ h
  obtain ⟨_, _, _, hleft, h1⟩ := ha.next hΓ h
  obtain ⟨rfl, h2⟩ := equal_kinds (k := .bool) h1
  obtain ⟨_, _, _, hright, h3⟩ := hb.next hleft.plain h2
  obtain ⟨rfl, h4⟩ := equal_kinds (k := .bool) h3
  cases h4
  exact ⟨.bool, rfl, (hleft.trans hright).imp fun Θ ⟨hta, htb⟩ => .logic op more n hta htb⟩

variable {test : Expr}

theorem checks_cond (n) (htest : Checks test) (hyes : Checks yes) (hno : Checks no) :
    Checks (.cond test yes no n) := by
  intro Γ Δ p hΓ h
  obtain ⟨_, _, _, hleads, h1⟩ := htest.next hΓ h
  obtain ⟨rfl, h2⟩ := equal_kinds (j := .bool) h1
  obtain ⟨_, k, _, hleads1, h3⟩ := hyes.next hleads.plain h2
  obtain ⟨_, _, _, hleads2, h4⟩ := hno.next hleads1.plain h3
  obtain ⟨rfl, h5⟩ := equal_kinds h4
  cases h5
  refine ⟨k, rfl, ((hleads.trans hleads1).trans hleads2).imp ?_⟩
  rintro Θ ⟨⟨ht, hy⟩, hn⟩
  exact .cond n ht hy hn

theorem checks_compare {op} (n) (hop : isComparison op) (ha : Checks a) (hb : Checks b) :
    Checks (.compare a [op] [b] n) := by
  intro Γ Δ p hΓ h
  obtain ⟨_, _, _, hleft, h1⟩ := ha.next hΓ h
  dsimp only at h1
  split at h1
  · next hany =>
    obtain ⟨_, _, _, hright, h2⟩ := hb.next hleft.plain h1
    obtain ⟨rfl, h3⟩ := equal_kinds h2
    cases h3
    exact ⟨.bool, rfl, (hleft.trans hright).imp fun Θ ⟨hta, htb⟩ =>
      .compare n hop (.inl hany) hta htb⟩
  · obtain ⟨rfl, h2⟩ := equal_kinds (k := .int) h1
    obtain ⟨_, _, _, hright, h3⟩ := hb.next hleft.plain h2
    obtain ⟨rfl, h4⟩ := equal_kinds (k := .int) h3
    cases h4
    exact ⟨.bool, rfl, (hleft.trans hright).imp fun Θ ⟨hta, htb⟩ =>
      .compare n hop (.inr rfl) hta htb⟩

/-! ## Statements -/

/-- What the checker says of a statement: it goes on with the statements that follow under a table
that types this one. -/
def ChecksStmt (s : Stmt) : Prop :=
  ∀ rest Γ r Δ, Plain Γ → (checkStmts .loops none (s :: rest)).run Γ = .ok (r, Δ) →
    ∃ Γ' r', (Leads Γ Γ' fun Θ => TypedStmt Θ s) ∧
      (checkStmts .loops none rest).run Γ' = .ok (r', Δ)

theorem checkStmts_leads (hss : ∀ s ∈ ss, ChecksStmt s) (hΓ : Plain Γ)
    (h : (checkStmts .loops none ss).run Γ = .ok (r, Δ)) :
    Leads Γ Δ fun Θ => ∀ s ∈ ss, TypedStmt Θ s := by
  induction ss generalizing Γ r with
  | nil =>
    cases h
    exact .stay hΓ fun Θ _ s hs => absurd hs List.not_mem_nil
  | cons s rest ih =>
    rw [List.forall_mem_cons] at hss
    obtain ⟨Γ', r', hleads, h'⟩ := hss.1 rest Γ r Δ hΓ h
    have hrest := ih hss.2 hleads.plain h'
    exact (hleads.trans hrest).imp fun Θ htyped => List.forall_mem_cons.mpr htyped

theorem checks_block {r} (n) (hss : ∀ s ∈ ss, ChecksStmt s) (hr : Checks r) :
    Checks (.block ss r n) := by
  intro Γ Δ p hΓ h
  obtain ⟨q, Δ1, hq, h1⟩ := bind_ok h
  have hleads := checkStmts_leads hss hΓ hq
  obtain ⟨_, k, _, hleads1, h2⟩ := hr.next hleads.plain h1
  cases h2
  exact ⟨k, rfl, (hleads.trans hleads1).imp fun Θ ⟨hts, htr⟩ => .block n hts htr⟩

theorem checksStmt_print (m n k) (he : Checks e) :
    ChecksStmt (.expr (.call (.name "print" m) [e] n) k) := by
  intro rest Γ r Δ hΓ h
  obtain ⟨a, Δ1, ha, h1⟩ := bind_ok h
  obtain ⟨_, _, _, hleads, h2⟩ := he.next hΓ ha
  obtain ⟨rfl, h3⟩ := equal_kinds (k := .int) h2
  cases h3
  obtain ⟨r', Δ4, hr, h4⟩ := bind_ok h1
  cases h4
  exact ⟨_, r', hleads.imp fun Θ hte => .print m n k hte, hr⟩

theorem checksStmt_expr (n) (hlang : IsExpr e) (he : Checks e) : ChecksStmt (.expr e n) := by
  intro rest Γ r Δ hΓ h
  have hwhole := (checkStmts_expression (c := .loops) (by simp) none e n rest).resolve_left <| by
    rintro ⟨k, a, m, rfl⟩
    generalize "print" = f at hlang
    cases hlang
  rw [hwhole] at h
  obtain ⟨_, _, _, hleads, h1⟩ := he.next hΓ h
  obtain ⟨r', Δ2, hr, h2⟩ := bind_ok h1
  cases h2
  exact ⟨_, r', hleads.imp fun Θ hte => .expr n hte, hr⟩

theorem checksStmt_assign (x m n) (he : Checks e) : ChecksStmt (.assign [.name x m] e n) := by
  intro rest Γ r Δ hΓ h
  obtain ⟨_, k, Δ1, hleads, h1⟩ := he.next hΓ h
  obtain ⟨found, Δ2, hfind, h2⟩ := bind_ok h1
  cases hfind
  split at h2
  · next t ht =>
    obtain ⟨j, rfl⟩ := hleads.plain x t ht
    obtain ⟨rfl, h3⟩ := equal_kinds h2
    rw [pure_bind] at h3
    obtain ⟨r', Δ4, hr, h4⟩ := bind_ok h3
    cases h4
    have hname : Leads Δ1 Δ1 fun Θ => get? Θ x = some j.ty :=
      .stay hleads.plain fun Θ hΘ => hΘ x j.ty ht
    exact ⟨_, r', (hleads.trans hname).imp fun _ h => .assign m n h.2 h.1, hr⟩
  · next hnone =>
    obtain ⟨_, Δ3, hbind, h3⟩ := bind_ok h2
    cases hbind
    rw [pure_bind] at h3
    obtain ⟨r', Δ4, hr, h4⟩ := bind_ok h3
    cases h4
    have hname : Leads Δ1 (put Δ1 x k.ty) fun Θ => get? Θ x = some k.ty := by
      refine ⟨hleads.plain.put x k, grows_put hnone k.ty, fun Θ hΘ => hΘ x k.ty ?_⟩
      rw [get?_put, if_pos (beq_self_eq_true x)]
    exact ⟨_, r', (hleads.trans hname).imp fun _ h => .assign m n h.2 h.1, hr⟩

theorem checkStmts_ite (hc : c = .loops ∨ c = .functions) (test yes no rest n) :
    checkStmts c none (.ite test yes no n :: rest) = (do
      let p ← checkExpr c none test
      equal c .bool p.2 (.expr p.1)
      let ys ← checkStmts c none yes
      let ns ← checkStmts c none no
      equal c ys.2 ns.2 (.stmt (.ite p.1 ys.1 ns.1 n))
      if rest.isEmpty then pure ([.ite p.1 ys.1 ns.1 n], ys.2)
      else do
        let q ← checkStmts c none rest
        pure (.ite p.1 ys.1 ns.1 n :: q.1, q.2)) := by
  rcases hc with rfl | rfl <;> cases rest <;> rfl

theorem checksStmt_ite (n) (htest : Checks test) (hyes : ∀ s ∈ yes, ChecksStmt s)
    (hno : ∀ s ∈ no, ChecksStmt s) : ChecksStmt (.ite test yes no n) := by
  intro rest Γ r Δ hΓ h
  rw [checkStmts_ite (.inl rfl)] at h
  obtain ⟨_, _, _, hleads, h1⟩ := htest.next hΓ h
  obtain ⟨rfl, h2⟩ := equal_kinds (j := .bool) h1
  obtain ⟨ys, Δ3, hys, h3⟩ := bind_ok h2
  have hleads1 := checkStmts_leads hyes hleads.plain hys
  obtain ⟨ns, Δ4, hns, h4⟩ := bind_ok h3
  have hleads2 := checkStmts_leads hno hleads1.plain hns
  obtain ⟨_, -, h5⟩ := bind_lift_ok h4
  have hall : Leads Γ Δ4 fun Θ => TypedStmt Θ (.ite test yes no n) := by
    refine ((hleads.trans hleads1).trans hleads2).imp ?_
    rintro Θ ⟨⟨ht, hy⟩, hn⟩
    exact .ite n ht hy hn
  cases rest with
  | nil =>
    cases h5
    exact ⟨_, _, hall, rfl⟩
  | cons s rest =>
    obtain ⟨r', Δ6, hr, h6⟩ := bind_ok h5
    cases h6
    exact ⟨_, r', hall, hr⟩

theorem checksStmt_loop (n) (htest : Checks test) (hbody : ∀ s ∈ body, ChecksStmt s) :
    ChecksStmt (.loop test body [] n) := by
  intro rest Γ r Δ hΓ h
  obtain ⟨_, _, _, hleads, h1⟩ := htest.next hΓ h
  obtain ⟨rfl, h2⟩ := equal_kinds (j := .bool) h1
  obtain ⟨ss, Δ3, hss, h3⟩ := bind_ok h2
  have hleads1 := checkStmts_leads hbody hleads.plain hss
  obtain ⟨r', Δ4, hr, h4⟩ := bind_ok h3
  cases h4
  exact ⟨_, r', (hleads.trans hleads1).imp fun Θ ⟨ht, hb⟩ => .loop n ht hb, hr⟩

/-! ## Programs -/

mutual

theorem checkExpr_typed {e} (he : IsExpr e) : Checks e := by
  cases he with
  | name x n => exact checks_name x n
  | int i id n =>
    intro Γ Δ p hΓ h
    cases h
    exact ⟨.int, rfl, .stay hΓ fun Θ _ => .int i id n⟩
  | bool b n =>
    intro Γ Δ p hΓ h
    cases h
    exact ⟨.bool, rfl, .stay hΓ fun Θ _ => .bool b n⟩
  | input m n => exact checks_input m n
  | neg n ha => exact checks_neg n (checkExpr_typed ha)
  | not n ha => exact checks_not n (checkExpr_typed ha)
  | arith n hop ha hb => exact checks_arith n hop (checkExpr_typed ha) (checkExpr_typed hb)
  | logic op more n ha hb =>
    exact checks_logic op more n (checkExpr_typed ha) (checkExpr_typed hb)
  | cond n htest hyes hno =>
    exact checks_cond n (checkExpr_typed htest) (checkExpr_typed hyes) (checkExpr_typed hno)
  | compare n hop ha hb => exact checks_compare n hop (checkExpr_typed ha) (checkExpr_typed hb)
  | block hn hss hr =>
    exact checks_block _ (fun s hs => checkStmt_typed (hss s hs)) (checkExpr_typed hr)
termination_by sizeOf e

theorem checkStmt_typed {s} (hs : IsStmt s) : ChecksStmt s := by
  cases hs with
  | print m n k he => exact checksStmt_print m n k (checkExpr_typed he)
  | expr n he => exact checksStmt_expr n he (checkExpr_typed he)
  | assign x m n he => exact checksStmt_assign x m n (checkExpr_typed he)
  | ite hn htest hyes hno =>
    exact checksStmt_ite _ (checkExpr_typed htest) (fun s hs => checkStmt_typed (hyes s hs))
      fun s hs => checkStmt_typed (hno s hs)
  | loop hn htest hbody =>
    exact checksStmt_loop _ (checkExpr_typed htest) fun s hs => checkStmt_typed (hbody s hs)
termination_by sizeOf s

end

theorem checkStmts_typed (hss : ∀ s ∈ ss, IsStmt s)
    (h : (checkStmts .loops none ss).run [] = .ok (r, Γ)) : ∀ s ∈ ss, TypedStmt Γ s := by
  have hplain : Plain [] := fun x t ht => by cases ht
  have hleads := checkStmts_leads (fun s hs => checkStmt_typed (hss s hs)) hplain h
  exact hleads.holds Γ (.refl Γ)

theorem checkModule_ok (h : checkModule .loops (.module ss note) = .ok q) :
    ∃ r Γ, (checkStmts .loops none ss).run [] = .ok (r, Γ) := by
  obtain ⟨r, hr, -⟩ := ok_of_bind (show (checkStmts .loops none ss).run [] >>= _ = _ from h)
  exact ⟨r.1, r.2, hr⟩

end CompilerKit.Loops
