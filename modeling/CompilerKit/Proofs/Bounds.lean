import CompilerKit.Proofs.Casts.Proxies
import CompilerKit.Proofs.Environments
import CompilerKit.Proofs.Extension.Operations

/-!
# Bounds of indices

The language of arrays checks an index against the length of the list only. An index below zero
counts from the end of the list, and is out of range if it goes beyond its start.
-/

namespace CompilerKit.Bounds

open Run Value Casts List Extension

variable {n i p id : Nat} {k : Int} {b j e : Expr} {σ σ₂ : Store} {cells : Array Value}

theorem run_checkIndex (hs : σ.heap[p]? = some ⟨true, cells⟩) (k id) :
    (checkIndex (.seq p) (.int k id)).run σ =
      if k < cells.size then .ok () σ else .error .indexOutOfBounds σ := by
  have hlen : len σ.heap (.seq p) = .ok cells.size := by rw [len, hs]
  have hint : Plain .arrays σ (.int k id) := .int k id
  rw [run_checkIndex_of_len hlen, hint.ordered_some rfl]
  by_cases h : k < cells.size
  · rw [decide_eq_true h, if_pos h]
    rfl
  · rw [decide_eq_false h, if_neg h]
    rfl

/-- An item is at its number, and at the same number counted from the end. -/
theorem position_item (hq : q < cells.size) (hk : k = q ∨ k = q - cells.size) :
    position cells.size k = .ok q := by
  unfold position
  rcases hk with rfl | rfl
  · simp [hq]
  · rw [if_neg (by omega), if_pos (by omega)]
    simp

theorem position_below (hk : k < -cells.size) : position cells.size k = .error .outOfRange := by
  unfold position
  rw [if_neg (by omega), if_neg (by omega)]

/-- The ways to read an item. -/
def loads (n i : Nat) (b j : Expr) (m m' : Note) : List (Run Value) :=
  [evalExpr .arrays (n + 1) i (.subscript b j .load m),
    evalExpr .arrays (n + 2) i (.call (.name "array_load" m) [b, j] m')]

/-- The ways to write an item, each with what follows it. -/
def stores (n i : Nat) (b j e : Expr) (a : Access) (m m' : Note) (rest : List Stmt) :
    List (Run Value × Run Value) :=
  [(evalStmt .arrays (n + 1) i (.assign [.subscript b j a m] e m') rest,
    evalStmts .arrays n i rest),
    (evalExpr .arrays (n + 2) i (.call (.name "array_store" m) [b, j, e] m'), pure .none)]

section

variable (hb : (evalExpr .arrays n i b).run σ = .ok (.seq p) σ1)
  (hj : (evalExpr .arrays n i j).run σ1 = .ok (.int k id) σ₂)
include hb hj

theorem run_load (hx : x ∈ loads n i b j m m') :
    x.run σ = (do
      checkIndex (.seq p) (.int k id)
      plainItem (.seq p) (.int k id) : Run Value).run σ₂ := by
  have hrun : x = (do
      let t ← evalExpr .arrays n i b
      let a ← evalExpr .arrays n i j
      checkIndex t a
      plainItem t a) := by
    simp only [loads, mem_cons, not_mem_nil, or_false] at hx
    rcases hx with rfl | rfl <;> rfl
  rw [hrun, run_next hb, run_next hj]

theorem run_store (hx : x ∈ stores n i b j e a m m' rest) :
    x.1.run σ = (do
      checkIndex (.seq p) (.int k id)
      plainSetItem (.seq p) (.int k id) (← evalExpr .arrays n i e)
      x.2 : Run Value).run σ₂ := by
  have hrun : x.1 = (do
      let t ← evalExpr .arrays n i b
      let a ← evalExpr .arrays n i j
      checkIndex t a
      plainSetItem t a (← evalExpr .arrays n i e)
      x.2) := by
    simp only [stores, mem_cons, not_mem_nil, or_false] at hx
    rcases hx with rfl | rfl <;> rfl
  rw [hrun, run_next hb, run_next hj]

omit hb hj in
/-- The value that is written is evaluated before the list is changed. It may change the items of
the list, but not its length. -/
theorem list_after_value {c : Value} {σ₃ : Store} (hs : σ₂.heap[p]? = some ⟨true, cells⟩)
    (he : (evalExpr .arrays n i e).run σ₂ = .ok c σ₃) :
    ∃ items, σ₃.heap[p]? = some ⟨true, items⟩ ∧ items.size = cells.size := by
  obtain ⟨⟨isList, items⟩, hitems, hlist, hsize, -⟩ :=
    (((confinedAt .arrays n).expr i e).of_ok he).seqs p _ hs
  obtain rfl : isList = true := hlist
  exact ⟨items, hitems, hsize⟩

/-- Reading and writing the item at `k` of a list. From the length of the list on the index is
refused, and nothing is evaluated any more. Below zero it is taken from the end, and beyond the
start of the list the access fails at its last step. The list changes at the item only. -/
theorem array_access (hs : σ₂.heap[p]? = some ⟨true, cells⟩) (a : Access) (m m' : Note)
    (e : Expr) (rest : List Stmt) :
    (∀ x ∈ loads n i b j m m',
      (cells.size ≤ k → x.run σ = .error .indexOutOfBounds σ₂) ∧
      (k < -cells.size → x.run σ = .error (.fault .outOfRange) σ₂) ∧
      ∀ (q : Nat) v, cells[q]? = some v → (k = q ∨ k = q - cells.size) → x.run σ = .ok v σ₂) ∧
    ∀ x ∈ stores n i b j e a m m' rest,
      (cells.size ≤ k → x.1.run σ = .error .indexOutOfBounds σ₂) ∧
      ∀ c σ₃, (evalExpr .arrays n i e).run σ₂ = .ok c σ₃ →
        ∃ items, σ₃.heap[p]? = some ⟨true, items⟩ ∧ items.size = cells.size ∧
          (k < -cells.size → x.1.run σ = .error (.fault .outOfRange) σ₃) ∧
          ∀ q < cells.size, (k = q ∨ k = q - cells.size) →
            x.1.run σ = x.2.run (withList σ₃ p (items.set! q c)) := by
  have hcheck := run_checkIndex hs k id
  have hpass (hk : k < cells.size) : (checkIndex (.seq p) (.int k id)).run σ₂ = .ok () σ₂ := by
    rw [hcheck, if_pos hk]
  have hstop {f : Unit → Run Value} (hk : cells.size ≤ k) :
      (checkIndex (.seq p) (.int k id) >>= f).run σ₂ = .error .indexOutOfBounds σ₂ := by
    rw [EStateM.run_bind, hcheck, if_neg (by omega)]
  constructor
  · intro x hx
    rw [run_load hb hj hx]
    refine ⟨hstop, fun hk => ?_, fun q v hv hk => ?_⟩
    · rw [run_next (hpass (by omega))]
      refine run_plainItem_of_error ?_
      simp only [item, hs, itemOf, asInt?, position_below hk]
      rfl
    · have hq := (Array.getElem?_eq_some_iff.mp hv).1
      rw [run_next (hpass (by omega))]
      exact run_plainItem hs (position_item hq hk) hv id
  · intro x hx
    rw [run_store hb hj hx]
    refine ⟨hstop, fun c σ₃ he => ?_⟩
    obtain ⟨items, hitems, hsize⟩ := list_after_value hs he
    refine ⟨items, hitems, hsize, fun hk => ?_, fun q hq hk => ?_⟩
    · have hset : Value.setItem σ₃.heap (.seq p) (.int k id) c = .error .outOfRange := by
        rw [← hsize] at hk
        simp only [Value.setItem, hitems, asInt?, position_below hk]
        rfl
      rw [run_next (hpass (by omega)), run_next he, EStateM.run_bind,
        run_plainSetItem_of_error hset]
    · have hpos : position items.size k = .ok q := by
        rw [hsize]
        exact position_item hq hk
      rw [run_next (hpass (by omega)), run_next he, run_next (run_plainSetItem hitems hpos id c)]

end

def pairStore : Store :=
  { heap := #[⟨true, #[.bool true, .bool false]⟩], envs := #[[("t", .seq 0)]] }

/-- The last item of a list of two is read at `-1`. -/
theorem array_access_last :
    (loads 1 0 (.name "t" {}) (.const (.int (-1) 0) {}) {} {}).map (·.run pairStore) =
      List.replicate 2 (.ok (.bool false) pairStore) := by
  refine List.map_eq_replicate_iff.mpr fun x hx => ?_
  have haccess := array_access (n := 1) (i := 0) (b := .name "t" {})
    (j := .const (.int (-1) 0) {}) (σ := pairStore) rfl rfl rfl .store {} {} (.name "t" {}) []
  exact (haccess.1 x hx).2.2 1 _ rfl (.inr rfl)

end CompilerKit.Bounds
