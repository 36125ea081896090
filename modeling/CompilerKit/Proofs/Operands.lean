import CompilerKit.Proofs.Vars.Typed

/-!
# Operands of logical operators

A logical operator takes its operands from the left and stops at the first that settles it. Runs and
the checker come to the first two of them only.
-/

namespace CompilerKit.LogicOp

/-- The truth value that settles the operator whatever follows. -/
def settler : LogicOp → Bool
  | .and => false
  | .or => true

/-- The operands up to the one that settles the operator, or all of them, are evaluated from the
left; the last of these is the value of the whole. -/
inductive Takes (n i : Nat) (op : LogicOp) : List Expr → Store → Bool → Store → Prop where
  | last {e σ τ c} (h : (evalExpr .conditionals n i e).run σ = .ok (.bool c) τ) :
      Takes n i op [e] σ c τ
  | settled (e' es) (h : (evalExpr .conditionals n i e).run σ = .ok (.bool op.settler) τ) :
      Takes n i op (e :: e' :: es) σ op.settler τ
  | next {e e' es σ τ υ c} (h : (evalExpr .conditionals n i e).run σ = .ok (.bool !op.settler) τ)
      (hes : Takes n i op (e' :: es) τ c υ) : Takes n i op (e :: e' :: es) σ c υ

variable {n i : Nat} {op : LogicOp} {a b : Expr} {σ τ : Store} {c : Bool}

/-! ## Runs -/

theorem run_settled (b : Expr)
    (ha : (evalExpr .conditionals n i a).run σ = .ok (.bool op.settler) τ) :
    (evalLogic .conditionals (n + 1) i op a b).run σ = .ok (.bool op.settler) τ := by
  unfold evalLogic
  rw [EStateM.run_bind, ha]
  cases op <;> rfl

theorem run_next (b : Expr)
    (ha : (evalExpr .conditionals n i a).run σ = .ok (.bool !op.settler) τ) :
    (evalLogic .conditionals (n + 1) i op a b).run σ = (evalExpr .conditionals n i b).run τ := by
  unfold evalLogic
  rw [EStateM.run_bind, ha]
  cases op <;> rfl

theorem run_evalLogic_iff : (evalLogic .conditionals (n + 1) i op a b).run σ = .ok (.bool c) τ ↔
    Takes n i op [a, b] σ c τ := by
  constructor
  · intro h
    obtain ⟨v, υ, ha, h'⟩ := next_ok h
    cases v with
    | bool x =>
      obtain rfl | hx := Decidable.em (x = op.settler)
      · rw [run_settled b ha] at h
        cases h
        exact .settled b [] ha
      · obtain rfl := Bool.eq_not.mpr hx
        rw [run_next b ha] at h
        exact .next ha (.last h)
    | _ => cases op <;> cases h'
  · intro h
    cases h with
    | settled _ _ ha => exact run_settled b ha
    | next ha hb =>
      cases hb with
      | last hb => rw [run_next b ha, hb]

/-- Where all operands come to truth values, so do the first two, and what is left out are the ones
behind them. -/
theorem Takes.first_two (h : Takes n i op (a :: b :: rest) σ c τ) :
    ∃ c' τ', Takes n i op [a, b] σ c' τ' ∧ (c' = op.settler ∨ rest = [] → c' = c ∧ τ' = τ) ∧
      (c' ≠ op.settler → rest ≠ [] → Takes n i op rest τ' c τ) := by
  cases h with
  | settled _ _ ha => exact ⟨_, _, .settled b [] ha, fun _ => ⟨rfl, rfl⟩, fun h => absurd rfl h⟩
  | next ha hb =>
    cases hb with
    | last hb => exact ⟨_, _, .next ha (.last hb), fun _ => ⟨rfl, rfl⟩, fun _ h => absurd rfl h⟩
    | settled _ _ hb =>
      exact ⟨_, _, .next ha (.last hb), fun _ => ⟨rfl, rfl⟩, fun h => absurd rfl h⟩
    | next hb hrest =>
      refine ⟨_, _, .next ha (.last hb), fun h => ?_, fun _ _ => hrest⟩
      rcases h with h | h
      · cases op <;> cases h
      · cases h

/-! ## Types -/

theorem equal_bool_ok
    (h : (equal .conditionals t .bool place).run Γ = .ok (u, Δ)) : t = .bool ∧ Δ = Γ := by
  obtain ⟨heq, rfl⟩ := lift_ok h
  cases t with
  | bool => exact ⟨rfl, rfl⟩
  | _ => cases heq

/-- A logical operator has the value that its first two operands give it. It is that of the whole
chain of operands if one of the two settles the operator, or if there are no more; the operands
behind them are neither run nor checked. -/
theorem logic_takes_two (n i : Nat) (op : LogicOp) (a b : Expr) (rest : List Expr) (m : Note) :
    (∀ σ c τ, (evalExpr .conditionals (n + 2) i (.logic op (a :: b :: rest) m)).run σ =
      .ok (.bool c) τ ↔ Takes n i op [a, b] σ c τ) ∧
    (∀ σ c τ, Takes n i op (a :: b :: rest) σ c τ →
      ∃ c' τ', (evalExpr .conditionals (n + 2) i (.logic op (a :: b :: rest) m)).run σ =
          .ok (.bool c') τ' ∧ (c' = op.settler ∨ rest = [] → c' = c ∧ τ' = τ) ∧
        (c' ≠ op.settler → rest ≠ [] → Takes n i op rest τ' c τ)) ∧
    ∀ Γ p Δ, (checkExpr .conditionals none (.logic op (a :: b :: rest) m)).run Γ = .ok (p, Δ) ↔
      ∃ a' b' Θ, (checkExpr .conditionals none a).run Γ = .ok ((a', .bool), Θ) ∧
        (checkExpr .conditionals none b).run Θ = .ok ((b', .bool), Δ) ∧
        p = (.logic op (a' :: b' :: rest) m, .bool) := by
  refine ⟨fun σ c τ => run_evalLogic_iff, fun σ c τ h => ?_, fun Γ p Δ => ⟨fun h => ?_, ?_⟩⟩
  · obtain ⟨c', τ', htwo, hsame, hrest⟩ := h.first_two
    exact ⟨c', τ', run_evalLogic_iff.mpr htwo, hsame, hrest⟩
  · obtain ⟨⟨a', s⟩, Θ, ha, h₁⟩ := checked a h
    obtain ⟨_, _, hs, h₂⟩ := bind_ok h₁
    obtain ⟨rfl, rfl⟩ := equal_bool_ok hs
    obtain ⟨⟨b', t⟩, Δ', hb, h₃⟩ := checked b h₂
    obtain ⟨_, _, ht, h₄⟩ := bind_ok h₃
    obtain ⟨rfl, rfl⟩ := equal_bool_ok ht
    cases h₄
    exact ⟨a', b', _, ha, hb, rfl⟩
  · rintro ⟨a', b', Θ, ha, hb, rfl⟩
    exact of_bind_ok ha (of_bind_ok hb rfl)

/-- `True and True and False`. -/
theorem logic_takes_two_unread :
    let e (b : Bool) : Expr := .const (.bool b) {}
    Takes 1 0 .and [e true, e true, e false] {} false {} ∧
      (evalExpr .conditionals 3 0 (.logic .and [e true, e true, e false] {})).run {} =
        .ok (.bool true) {} := by
  intro e
  refine ⟨.next rfl (.next rfl (.last rfl)), ?_⟩
  exact ((logic_takes_two 1 0 .and (e true) (e true) [e false] {}).1 {} true {}).mpr
    (.next rfl (.last rfl))

end CompilerKit.LogicOp
