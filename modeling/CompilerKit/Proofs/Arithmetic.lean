import CompilerKit.Proofs.Simulation
import CompilerKit.Proofs.Vars.Meaning
import CompilerKit.Proofs.Words

/-!
# Arithmetic in different languages

Sums, differences, products and negations of words. The languages agree on them modulo the number of
words, but not on what is wrapped into a word: source languages wrap every result, the languages of
blocks do not wrap products, and the language of tagged values wraps nothing.
-/

namespace CompilerKit.Arithmetic

open Run Word Option

def word? (i : Int) : Option Int := if inRange i then some i else none

def meaning? : ArithOp → Option (Int → Int → Int)
  | .add => some (· + ·)
  | .sub => some (· - ·)
  | .mult => some (· * ·)
  | _ => none

/-- What a language makes of the exact result of an operation. -/
def keep (l : Language) (op : ArithOp) (n : Int) : Int :=
  if l.isDynamic || l.isBlocks && op == .mult then n else wrap n

/-- The number that an expression of words and variables is worth in a language. -/
def worth (l : Language) (ρ : String → Option Int) : Expr → Option Int
  | .name x _ => (ρ x).bind word?
  | .const (.int i _) _ => word? i
  | .unary .neg a _ => (worth l ρ a).map fun x => keep l .sub (-x)
  | .arith a op b _ => (meaning? op).bind fun f => (worth l ρ a).bind fun x =>
    (worth l ρ b).map fun y => keep l op (f x y)
  | _ => none

/-! ## Evaluation -/

/-- A number as a value of a language. -/
inductive Stands : Language → Value → Int → Prop where
  | plain {l} (hl : l.isDynamic = false) (i id) : Stands l (.int i id) i
  | tagged (i j k) : Stands .dynamic (.tagged (.int i j) (sharedText "int") k) i

/-- The environment number `i` of the store holds the numbers, as values of the language. -/
def Holds (l : Language) (ρ : String → Option Int) (i : Nat) (σ : Store) : Prop :=
  ∀ x n, ρ x = some n → ∃ v, Vars.read i σ x = some v ∧ Stands l v n

/-- With enough fuel the expression gives the number. Nothing changes in the store but the count of
objects. -/
def Gives (l : Language) (ρ : String → Option Int) (e : Expr) (n : Int) : Prop :=
  ∃ N, ∀ fuel i σ, N ≤ fuel → Holds l ρ i σ →
    ∃ v next, (evalExpr l fuel i e).run σ = .ok v { σ with next } ∧ Stands l v n

variable {f : Int → Int → Int}

section

variable {ρ : String → Option Int} {e : Expr} {n x : Int}

theorem run_number (hl : l.isDynamic = false) (i σ) :
    ∃ v next, (number i).run σ = .ok v { σ with next } ∧ Stands l v i :=
  ⟨_, _, rfl, .plain hl i σ.next⟩

theorem run_arith (hop : meaning? op = some f) (hv : Stands l v x) (hw : Stands l w y) (σ) :
    ∃ u next, (if l.isDynamic then arithTagged op v w else arithValues l op v w).run σ =
      .ok u { σ with next } ∧ Stands l u (keep l op (f x y)) := by
  cases hv with
  | tagged i j k =>
    cases hw with
    | tagged i' j' k' => cases op <;> cases hop <;> exact ⟨_, _, rfl, .tagged _ _ _⟩
    | plain hl => cases hl
  | plain hl i id =>
    cases hw with
    | tagged => cases hl
    | plain _ j id' =>
      rw [keep, hl]
      cases hblocks : l.isBlocks <;> cases op <;> cases hop <;> simp only [arithValues, hblocks] <;>
        exact run_number hl _ σ

theorem run_neg (hv : Stands l v x) (σ) :
    ∃ u next, (if l.isDynamic then (do
        match (← untag "int" v).asInt? with
        | some i => tagValue (← number (-i))
        | none => stop .wrongKind)
      else do number (← ofExcept v.negWord)).run σ = .ok u { σ with next } ∧
      Stands l u (keep l .sub (-x)) := by
  cases hv with
  | tagged i j k => exact ⟨_, _, rfl, .tagged _ _ _⟩
  | plain hl i id =>
    rw [keep, hl]
    cases l.isBlocks <;> exact run_number hl _ σ

theorem hasArith_of_meaning (hl : l.hasArrays) (h : meaning? op = some f) : hasArith l op := by
  cases op with
  | add | sub => rfl
  | mult => exact hl
  | _ => cases h

theorem gives_neg (ha : Gives l ρ a x) (m) : Gives l ρ (.unary .neg a m) (keep l .sub (-x)) := by
  obtain ⟨N, hN⟩ := ha
  refine ⟨N + 1, fun fuel i σ hfuel hρ => ?_⟩
  obtain ⟨fuel, rfl⟩ := Nat.exists_eq_add_of_le' (Nat.le_of_add_left_le hfuel)
  obtain ⟨v, next, hv, hx⟩ := hN fuel i σ (Nat.le_of_succ_le_succ hfuel) hρ
  obtain ⟨u, next', hu, hn⟩ := run_neg hx { σ with next }
  exact ⟨u, next', (run_next hv).trans hu, hn⟩

theorem gives_arith (hl : l.hasArrays) (hop : meaning? op = some f) (ha : Gives l ρ a x)
    (hb : Gives l ρ b y) (m) : Gives l ρ (.arith a op b m) (keep l op (f x y)) := by
  obtain ⟨N, hN⟩ := ha
  obtain ⟨M, hM⟩ := hb
  refine ⟨max N M + 1, fun fuel i σ hfuel hρ => ?_⟩
  obtain ⟨fuel, rfl⟩ := Nat.exists_eq_add_of_le' (Nat.le_of_add_left_le hfuel)
  obtain ⟨v, next, hv, hx⟩ := hN fuel i σ (by omega) hρ
  obtain ⟨w, next', hw, hy⟩ := hM fuel i { σ with next } (by omega) hρ
  obtain ⟨u, next'', hu, hn⟩ := run_arith hop hx hy { σ with next := next' }
  refine ⟨u, next'', ?_, hn⟩
  change (if hasArith l op then _ else _ : Run Value).run σ = _
  rwa [if_pos (hasArith_of_meaning hl hop), run_next hv, run_next hw]

theorem word?_eq_some (h : word? i = some n) : i = n ∧ inRange n := by
  unfold word? at h
  split at h
  · cases h
    exact ⟨rfl, ‹_›⟩
  · cases h

/-- Evaluation gives what an expression is worth, in every language that has products. -/
theorem gives_worth (hl : l.hasArrays) (h : worth l ρ e = some n) : Gives l ρ e n := by
  fun_induction worth l ρ e generalizing n with
  | case1 x m =>
    refine ⟨1, fun fuel i σ hfuel hρ => ?_⟩
    obtain ⟨fuel, rfl⟩ := Nat.exists_eq_add_of_le' hfuel
    obtain ⟨k, hx, hk⟩ := bind_eq_some_iff.mp h
    obtain ⟨rfl, -⟩ := word?_eq_some hk
    obtain ⟨v, hread, hv⟩ := hρ x k hx
    have hvars : l.hasVariables := decide_eq_true (Nat.le_trans (by decide) (of_decide_eq_true hl))
    refine ⟨v, σ.next, ?_, hv⟩
    change (if l.hasVariables then lookup i x else _).run σ = _
    rw [if_pos hvars]
    exact Vars.run_lookup hread
  | case2 k id m =>
    obtain ⟨rfl, -⟩ := word?_eq_some h
    refine ⟨1, fun fuel i σ hfuel hρ => ?_⟩
    obtain ⟨fuel, rfl⟩ := Nat.exists_eq_add_of_le' hfuel
    change ∃ v next, (if l.isDynamic then tagValue (.int k id) else pure (.int k id)).run σ = _ ∧ _
    cases hdyn : l.isDynamic with
    | false => exact ⟨_, _, rfl, .plain hdyn k id⟩
    | true =>
      obtain rfl : l = .dynamic := by cases l <;> first | rfl | cases hdyn
      exact ⟨_, _, rfl, .tagged k id σ.next⟩
  | case3 a m ih =>
    obtain ⟨x, hx, rfl⟩ := map_eq_some_iff.mp h
    exact gives_neg (ih hx) m
  | case4 a op b m iha ihb =>
    obtain ⟨f, hop, h⟩ := bind_eq_some_iff.mp h
    obtain ⟨x, hx, h⟩ := bind_eq_some_iff.mp h
    obtain ⟨y, hy, rfl⟩ := map_eq_some_iff.mp h
    exact gives_arith hl hop (iha hx) (ihb hy) m
  | case5 e => cases h

/-! ## Different languages -/

theorem keep_modEq (l op n) : keep l op n ≡ n [ZMOD modulus] := by
  unfold keep
  split
  · rfl
  · exact wrap_modEq n

theorem meaning_modEq (hop : meaning? op = some f) (hx : x ≡ x' [ZMOD modulus])
    (hy : y ≡ y' [ZMOD modulus]) : f x y ≡ f x' y' [ZMOD modulus] := by
  cases op with
  | add => cases hop; exact hx.add hy
  | sub => cases hop; exact hx.sub hy
  | mult => cases hop; exact hx.mul hy
  | _ => cases hop

/-- What an expression is worth in two languages is the same modulo the number of words. -/
theorem worth_modEq (l') (h : worth l ρ e = some n) :
    ∃ m, worth l' ρ e = some m ∧ m ≡ n [ZMOD modulus] := by
  fun_induction worth l ρ e generalizing n with
  | case1 x k => exact ⟨n, h, rfl⟩
  | case2 i id k => exact ⟨n, h, rfl⟩
  | case3 a k ih =>
    obtain ⟨x, hx, rfl⟩ := map_eq_some_iff.mp h
    obtain ⟨m, hm, hmx⟩ := ih hx
    refine ⟨keep l' .sub (-m), by rw [worth, hm]; rfl, ?_⟩
    exact (keep_modEq l' _ _).trans (hmx.neg.trans (keep_modEq l _ _).symm)
  | case4 a op b k iha ihb =>
    obtain ⟨f, hop, h⟩ := bind_eq_some_iff.mp h
    obtain ⟨x, hx, h⟩ := bind_eq_some_iff.mp h
    obtain ⟨y, hy, rfl⟩ := map_eq_some_iff.mp h
    obtain ⟨x', hx', hxx⟩ := iha hx
    obtain ⟨y', hy', hyy⟩ := ihb hy
    refine ⟨keep l' op (f x' y'), by rw [worth, hop, hx', hy']; rfl, ?_⟩
    exact (keep_modEq l' _ _).trans ((meaning_modEq hop hxx hyy).trans (keep_modEq l _ _).symm)
  | case5 e => cases h

/-- Where every result is wrapped, an expression is worth a word. -/
theorem inRange_worth (h : worth .arrays ρ e = some n) : inRange n := by
  unfold worth at h
  split at h
  · obtain ⟨k, -, hk⟩ := bind_eq_some_iff.mp h
    exact (word?_eq_some hk).2
  · exact (word?_eq_some h).2
  · obtain ⟨x, -, rfl⟩ := map_eq_some_iff.mp h
    exact inRange_wrap (-x)
  · obtain ⟨f, -, h⟩ := bind_eq_some_iff.mp h
    obtain ⟨x, -, h⟩ := bind_eq_some_iff.mp h
    obtain ⟨y, -, rfl⟩ := map_eq_some_iff.mp h
    exact inRange_wrap (f x y)
  · cases h

end

/-- An expression with the exact value `n` gives `n` as a tagged value, the wrapped `n` in the
language of arrays, and in its blocks a number that is wrapped to the same word. All three are one
number just if the exact value and the number in the blocks are words. -/
theorem arithmetic_agrees_iff {ρ : String → Option Int} {e : Expr} {n : Int}
    (h : worth .dynamic ρ e = some n) :
    ∃ m, worth .arrayBlocks ρ e = some m ∧ wrap m = wrap n ∧
      Gives .dynamic ρ e n ∧ Gives .arrays ρ e (wrap n) ∧ Gives .arrayBlocks ρ e m ∧
      (wrap n = n ∧ m = n ↔ inRange n = true ∧ inRange m = true) := by
  obtain ⟨m, hm, hmn⟩ := worth_modEq .arrayBlocks h
  obtain ⟨k, hk, hkn⟩ := worth_modEq .arrays h
  have hwrap := wrap_eq_wrap_iff.mpr hmn
  obtain rfl : k = wrap n :=
    (wrap_of_inRange (inRange_worth hk)).symm.trans (wrap_eq_wrap_iff.mpr hkn)
  refine ⟨m, hm, hwrap, gives_worth rfl h, gives_worth rfl hk, gives_worth rfl hm, ?_, ?_⟩
  · rintro ⟨hn, rfl⟩
    have hrange : inRange m = true := hn ▸ inRange_wrap m
    exact ⟨hrange, hrange⟩
  · rintro ⟨hn, hm⟩
    rw [wrap_of_inRange hn, wrap_of_inRange hm] at hwrap
    exact ⟨wrap_of_inRange hn, hwrap⟩

/-- A product that is no word, and its square root. -/
theorem arithmetic_agrees_iff_square :
    let ρ (x : String) : Option Int := if x = "x" then some 0x100000000 else none
    let e : Expr := .arith (.name "x" {}) .mult (.name "x" {}) {}
    worth .dynamic ρ e = some 0x10000000000000000 ∧
      ∃ m, worth .arrayBlocks ρ e = some m ∧ wrap m = 0 ∧
        Gives .dynamic ρ e 0x10000000000000000 ∧ Gives .arrays ρ e 0 ∧
        Gives .arrayBlocks ρ e m := by
  intro ρ e
  have h : worth .dynamic ρ e = some 0x10000000000000000 := rfl
  obtain ⟨m, hm, hwrap, hdyn, harrays, hblocks, -⟩ := arithmetic_agrees_iff h
  exact ⟨h, m, hm, hwrap, hdyn, harrays, hblocks⟩

end CompilerKit.Arithmetic
