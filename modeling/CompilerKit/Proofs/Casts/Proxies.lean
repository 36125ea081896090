import CompilerKit.Proofs.Casts.Tuples

/-!
# Proxies in programs

A program gets at an aggregate by the operations for tuples, for lists and for values of unknown
type. Some of them look through proxies, and some do not.

* `operations_on_proxies`: which operations look through a proxy.
* `Doubled.run_requests`: a list and its proxy answer any requests alike, by induction on them.
-/

namespace CompilerKit.Casts

open Run Value List

/-- The sequence at `p` inside `k` proxies of tuples and lists. -/
inductive Wrapped (p : Nat) : Value → Nat → Prop where
  | bare : Wrapped p (.seq p) 0
  | tuple (reads : Value) (id : Nat) (h : Wrapped p v k) :
      Wrapped p (.proxiedTuple v reads id) (k + 1)
  | list (read write : Value) (id : Nat) (h : Wrapped p v k) :
      Wrapped p (.proxiedList v read write id) (k + 1)

/-- The list at `p` inside `k` proxies of lists. -/
inductive Listed (p : Nat) : Value → Nat → Prop where
  | bare : Listed p (.seq p) 0
  | list (read write : Value) (id : Nat) (h : Listed p v k) :
      Listed p (.proxiedList v read write id) (k + 1)

/-- What the proxies of a list make of an item that is stored: the outermost one comes first. -/
def storedAs : Nat → Value → Value → Run Value
  | n + 1, .proxiedList b _ write _, x => do storedAs n b (← applyValue .casts n write [x])
  | _, _, x => pure x

/-- What the proxies of a list make of an item that is read: the innermost one comes first. -/
def loadedAs : Nat → Value → Value → Run Value
  | n + 1, .proxiedList b read _ _, x => do applyValue .casts n read [← loadedAs n b x]
  | _, _, x => pure x

variable {p k n i r : Nat} {v : Value} {σ τ : Store} {q : Int} {cells : Array Value} {t : Ty}
variable {s : Sequence} {w : Value} {cells' : Array Value}

theorem Wrapped.lenOf_eq (h : Wrapped p v k) (hk : k < n) :
    lenOf .casts n v = plainLen (.seq p) := by
  induction h generalizing n with
  | bare =>
    obtain ⟨n, rfl⟩ := Nat.exists_eq_add_of_lt hk
    rfl
  | tuple reads id _ ih | list read write id _ ih =>
    obtain ⟨n, rfl⟩ := Nat.exists_eq_add_of_lt hk
    exact ih (by omega)

theorem Wrapped.run_plainLen (h : Wrapped p v k) (hs : σ.heap[p]? = some s) :
    (plainLen v).run σ =
      if k = 0 then .ok s.cells.size σ else .error (.fault .wrongKind) σ := by
  cases h with
  | bare => exact Vars.run_plainLen hs
  | tuple | list => rfl

theorem Listed.setItem_eq (h : Listed p v k) (hk : k < n) (a x) :
    setItem .casts n v a x = (do plainSetItem (.seq p) a (← storedAs n v x)) := by
  induction h generalizing n x with
  | bare =>
    obtain ⟨n, rfl⟩ := Nat.exists_eq_add_of_lt hk
    rfl
  | @list v k read write id _ ih =>
    obtain ⟨n, rfl⟩ := Nat.exists_eq_add_of_lt hk
    change (do setItem .casts (k + 1 + n) v a (← applyValue .casts _ write [x])) = _
    rw [storedAs, bind_assoc]
    exact congrArg _ (funext fun y => ih (by omega) y)

theorem Listed.getItem_eq (h : Listed p v k) (hk : k < n) (a) :
    getItem .casts n v a = (do loadedAs n v (← plainItem (.seq p) a)) := by
  induction h generalizing n with
  | bare =>
    obtain ⟨n, rfl⟩ := Nat.exists_eq_add_of_lt hk
    exact (bind_pure _).symm
  | @list v k read write id _ ih =>
    obtain ⟨n, rfl⟩ := Nat.exists_eq_add_of_lt hk
    change (do applyValue .casts _ read [← getItem .casts (k + 1 + n) v a]) = _
    rw [ih (by omega), bind_assoc]
    rfl

/-! ## Operations of programs -/

/-- The expression gives a value, and leaves a store. -/
def Gives (n i : Nat) (e : Expr) (σ : Store) (v : Value) (τ : Store) : Prop :=
  (evalExpr .casts n i e).run σ = .ok v τ

/-- The store with another list at a position. -/
def withList (σ : Store) (p : Nat) (cells : Array Value) : Store :=
  { σ with heap := σ.heap.set! p ⟨true, cells⟩ }

theorem run_checkIndex (hs : σ.heap[p]? = some s) (hq : q < s.cells.size) (id) :
    (checkIndex (.seq p) (.int q id)).run σ = .ok () σ := by
  have hbelow : holds .lt (some (compare q s.cells.size)) := by
    rw [Int.compare_eq_lt.mpr hq]
    rfl
  rw [checkIndex, run_next (Vars.run_plainLen hs)]
  change (if holds .lt (some (compare q s.cells.size)) then pure ()
    else throw .indexOutOfBounds : Run Unit).run σ = _
  rw [if_pos hbelow]
  rfl

theorem run_plainSetItem (hs : σ.heap[p]? = some ⟨true, cells⟩) (hq : position cells.size q = .ok r)
    (id z) :
    (plainSetItem (.seq p) (.int q id) z).run σ = .ok () (withList σ p (cells.set! r z)) := by
  have hset : Value.setItem σ.heap (.seq p) (.int q id) z =
      .ok (σ.heap.set! p ⟨true, cells.set! r z⟩) := by
    simp only [Value.setItem, hs, if_true, asInt?, hq, bind, Except.bind]
    rfl
  change (do
    let h ← ofExcept (Value.setItem σ.heap (.seq p) (.int q id) z)
    modify fun σ => { σ with heap := h } : Run Unit).run σ = _
  rw [hset]
  rfl

theorem of_position_ok (h : position size q = .ok r) : r < size ∧ q < size := by
  unfold position at h
  split at h <;> split at h <;> cases h
  · omega
  · omega

theorem Listed.wrapped (h : Listed p v k) : Wrapped p v k := by
  induction h with
  | bare => exact .bare
  | list read write id _ ih => exact .list read write id ih

section

variable {e j x : Expr} {id : Nat} {y : Value} {σ₁ σ₂ σ₃ : Store}

/-- A list is stored into through its proxies, which convert the item on its way. -/
theorem array_store_eq (hv : Listed p v k) (hk : k < n) (he : Gives n i e σ v σ₁)
    (hj : Gives n i j σ₁ (.int q id) σ₂) (hx : Gives n i x σ₂ y σ₃) (m m') :
    (evalExpr .casts (n + 2) i (.call (.name "array_store" m) [e, j, x] m')).run σ =
      (do
        plainSetItem (.seq p) (.int q id) (← storedAs n v y)
        pure .none : Run Value).run σ₃ := by
  refine (run_next he).trans ((run_next hj).trans ((run_next hx).trans ?_))
  rw [hv.setItem_eq hk, bind_assoc]

/-- An item is read through the proxies of a list, which convert it on its way. -/
theorem subscript_eq (hv : Listed p v k) (hk : k < n) (he : Gives n i e σ v σ₁)
    (hj : Gives n i j σ₁ (.int q id) σ₂) (hs : σ₂.heap[p]? = some ⟨true, cells⟩)
    (hq : position cells.size q = .ok r) (hz : cells[r]? = some z) (m) :
    (evalExpr .casts (n + 1) i (.subscript e j .load m)).run σ = (loadedAs n v z).run σ₂ := by
  refine (run_next he).trans ((run_next hj).trans ?_)
  rw [hv.getItem_eq hk]
  exact run_next (run_plainItem hs hq hz id)

theorem run_assign_subscript (he : Gives n i e σ v σ₁) (hj : Gives n i j σ₁ (.int q id) σ₂)
    (a m m' rest) :
    (evalStmt .casts (n + 1) i (.assign [.subscript e j a m] x m') rest).run σ = (do
      checkIndex v (.int q id)
      let u ← evalExpr .casts n i x
      plainSetItem v (.int q id) u
      evalStmts .casts n i rest : Run Value).run σ₂ :=
  (run_next he).trans (run_next hj)

end

/-- What programs see of an aggregate inside proxies. The lengths that `array_len` and `any_len`
give are those of the innermost aggregate. What `array_store` stores is what the next subscript
reads, up to the conversions of the proxies, and nothing but these conversions and the bounds can
make a store fail. The length by `len` and the store by an assignment are not defined for
proxies. -/
theorem operations_on_proxies (hv : Wrapped p v k) (hk : k < n) (e : Expr) (m m' : Note) :
    (∀ s : Sequence, τ.heap[p]? = some s →
      (Gives n i e σ v τ → Gives (n + 2) i (.call (.name "array_len" m) [e] m') σ
        (.int s.cells.size τ.next) { τ with next := τ.next + 1 }) ∧
      (∀ tag id, Gives n i e σ (.tagged v tag id) τ →
        Gives (n + 2) i (.call (.name "any_len" m) [e] m') σ (.int s.cells.size τ.next)
          { τ with next := τ.next + 1 }) ∧
      (Gives n i e σ v τ →
        (evalExpr .casts (n + 2) i (.call (.name "len" m) [e] m')).run σ =
          if k = 0 then .ok (.int s.cells.size τ.next) { τ with next := τ.next + 1 }
          else .error (.fault .wrongKind) τ)) ∧
    (Listed p v k → ∀ (j x : Expr) (q : Int) (id : Nat) (y : Value) (σ₁ σ₂ σ₃ : Store),
      Gives n i e σ v σ₁ → Gives n i j σ₁ (.int q id) σ₂ → Gives n i x σ₂ y σ₃ →
      (∀ err σ₄, (storedAs n v y).run σ₃ = .error err σ₄ →
        (evalExpr .casts (n + 2) i (.call (.name "array_store" m) [e, j, x] m')).run σ =
          .error err σ₄) ∧
      ∀ (z : Value) (σ₄ : Store) (cells : Array Value) (r : Nat),
        (storedAs n v y).run σ₃ = .ok z σ₄ → σ₄.heap[p]? = some ⟨true, cells⟩ →
        position cells.size q = .ok r →
        Gives (n + 2) i (.call (.name "array_store" m) [e, j, x] m') σ .none
          (withList σ₄ p (cells.set! r z)) ∧
        (∀ e' j' id' σ₅ σ₆, Gives n i e' (withList σ₄ p (cells.set! r z)) v σ₅ →
          Gives n i j' σ₅ (.int q id') σ₆ → Grown (withList σ₄ p (cells.set! r z)) σ₆ →
          (evalExpr .casts (n + 1) i (.subscript e' j' .load m)).run
            (withList σ₄ p (cells.set! r z)) = (loadedAs n v z).run σ₆) ∧
        ∀ a rest cells₂, σ₂.heap[p]? = some ⟨true, cells₂⟩ → cells₂.size = cells.size →
          (evalStmt .casts (n + 1) i (.assign [.subscript e j a m] x m') rest).run σ =
            if k = 0 then (evalStmts .casts n i rest).run (withList σ₄ p (cells.set! r z))
            else .error (.fault .wrongKind) σ₂) := by
  constructor
  · intro s hs
    have hlen : (lenOf .casts n v).run τ = .ok s.cells.size τ := by
      rw [hv.lenOf_eq hk, Vars.run_plainLen hs]
    refine ⟨fun he => (run_next he).trans ((run_next hlen).trans rfl), fun tag id he =>
      (run_next he).trans ((run_next hlen).trans rfl), fun he => (run_next he).trans ?_⟩
    change (plainLen v >>= _).run τ = _
    rw [EStateM.run_bind, hv.run_plainLen hs]
    cases k <;> rfl
  intro hl j x q id y σ₁ σ₂ σ₃ he hj hx
  have hstore := array_store_eq hl hk he hj hx m m'
  refine ⟨fun err σ₄ herr => ?_, fun z σ₄ cells r hz hs hq => ⟨?_, ?_, ?_⟩⟩
  · rw [hstore, EStateM.run_bind, herr]
  · rw [Gives, hstore, run_next hz, run_next (run_plainSetItem hs hq id z)]
    rfl
  · intro e' j' id' σ₅ σ₆ he' hj' hgrown
    have hp := (Array.getElem?_eq_some_iff.mp hs).1
    have hlist : (withList σ₄ p (cells.set! r z)).heap[p]? = some ⟨true, cells.set! r z⟩ := by
      simp [withList, hp]
    have hr := (of_position_ok hq).1
    exact subscript_eq hl hk he' hj' (hgrown.heap p _ hlist) (by simpa using hq) (by simp [hr]) m
  · intro a rest cells₂ hs₂ hsize
    rw [run_assign_subscript he hj]
    by_cases hzero : k = 0
    · subst hzero
      cases hl with
      | bare =>
        have hplain : storedAs n (.seq p) y = pure y := by cases n <;> rfl
        rw [hplain] at hz
        cases hz
        have hbelow : q < cells₂.size := hsize ▸ (of_position_ok hq).2
        rw [if_pos rfl, run_next (run_checkIndex hs₂ hbelow id), run_next hx,
          run_next (run_plainSetItem hs hq id _)]
    · rw [if_neg hzero, EStateM.run_bind, checkIndex, EStateM.run_bind, hv.run_plainLen hs₂,
        if_neg hzero]

/-- A function that casts its argument, as proxies hold them. -/
def casting (s t : Ty) : Value :=
  .function "cast" (.names ["x.0"]) (.stmts [.ret (.cast (.name "x.0" {}) s t {}) {}]) 0 0

/-- A list of numbers as a list of values of unknown type. -/
def oneProxy : Value := .proxiedList (.seq 0) (casting .int .any) (casting .any .int) 0

/-- A store with a list of one number. -/
def oneList (k : Int) : Store := { heap := #[⟨true, #[.int k 0]⟩], envs := #[[]] }

theorem operations_on_proxies_one :
    (evalExpr .casts 10 0 (.call (.name "array_len" {}) [.embedded oneProxy {}] {})).run
        (oneList 1) = .ok (.int 1 2) { oneList 1 with next := 3 } ∧
      (evalExpr .casts 10 0 (.call (.name "len" {}) [.embedded oneProxy {}] {})).run (oneList 1) =
        .error (.fault .wrongKind) (oneList 1) ∧
      (∃ σ, (evalExpr .casts 10 0 (.call (.name "array_store" {}) [.embedded oneProxy {},
          .const (.int 0 0) {}, .embedded (.tagged (.int 5 0) (sharedText "int") 0) {}] {})).run
            (oneList 1) = .ok .none σ ∧ σ.heap = (oneList 5).heap) ∧
      (evalStmt .casts 9 0 (.assign
          [.subscript (.embedded oneProxy {}) (.const (.int 0 0) {}) .store {}]
          (.embedded (.tagged (.int 5 0) (sharedText "int") 0) {}) {}) []).run (oneList 1) =
        .error (.fault .wrongKind) (oneList 1) := by
  obtain ⟨hlengths, hstores⟩ := operations_on_proxies (σ := oneList 1) (τ := oneList 1) (p := 0)
    (k := 1) (n := 8) (i := 0) (v := oneProxy) (.list _ _ _ .bare) (by decide)
    (.embedded oneProxy {}) {} {}
  obtain ⟨harray, -, hlen⟩ := hlengths ⟨true, #[.int 1 0]⟩ rfl
  obtain ⟨-, hstore⟩ := hstores (.list _ _ _ .bare) (.const (.int 0 0) {})
    (.embedded (.tagged (.int 5 0) (sharedText "int") 0) {}) 0 0 _ _ _ _ rfl rfl rfl
  obtain ⟨hstored, -, hassign⟩ := hstore (.int 5 0) _ _ 0 rfl rfl rfl
  exact ⟨harray rfl, hlen rfl, ⟨_, hstored, rfl⟩, hassign .store [] _ rfl rfl⟩

/-! ## Lists there and back -/

theorem run_wrapList (v s t σ) :
    ∃ read write id τ, (wrapList v s t).run σ = .ok (.proxiedList v read write id) τ ∧ Grown σ τ ∧
      Caster τ s t read ∧ Caster τ t s write := by
  have hname : Grown σ { σ with fresh := σ.fresh + 1 } := .of_eq rfl rfl rfl
  obtain ⟨read, σ₁, hread, hcast, hσ1⟩ :=
    run_castFunction (freshName "x" σ.fresh) s t { σ with fresh := σ.fresh + 1 }
  obtain ⟨write, σ₂, hwrite, hcast', hσ2⟩ := run_castFunction (freshName "x" σ.fresh) t s σ₁
  have hnext : Grown σ₂ { σ₂ with next := σ₂.next + 1 } := .of_eq rfl rfl rfl
  exact ⟨read, write, σ₂.next, _,
    (run_next rfl).trans ((run_next hread).trans ((run_next hwrite).trans rfl)),
    ((hname.trans hσ1).trans hσ2).trans hnext, (hcast.mono hσ2).mono hnext, hcast'.mono hnext⟩

theorem run_there_back (hy : IsItem y t) (hf : Caster σ t .any f) (hg : Caster σ .any t g) (n n') :
    ∃ τ, (do applyValue .casts (n' + 5) g [← applyValue .casts (n + 5) f [y]]).run σ =
      .ok y τ ∧ Grown σ τ := by
  obtain ⟨env, henv⟩ := hf.run_apply y
  obtain ⟨a, σ₁, ha, hσ1, hback⟩ := hy.run_box { σ with envs := σ.envs.push env }
  have hgrown := (Grown.pushEnv σ env).trans hσ1
  obtain ⟨env', henv'⟩ := (hg.mono hgrown).run_apply a
  refine ⟨_, ?_, hgrown.trans (Grown.pushEnv σ₁ env')⟩
  rw [run_next (henv.trans ha)]
  exact henv'.trans (hback _)

/-- Two proxies around a value, which cast to the unknown type and back. -/
inductive Doubled (σ : Store) (t : Ty) (v : Value) : Value → Prop where
  | mk {read write read' write'} (id id') (hread : Caster σ t .any read)
      (hwrite : Caster σ .any t write) (hread' : Caster σ .any t read')
      (hwrite' : Caster σ t .any write') :
      Doubled σ t v (.proxiedList (.proxiedList v read write id) read' write' id')

theorem Doubled.of_le (h : Doubled σ t v w) (hτ : σ.envs.size ≤ τ.envs.size) : Doubled τ t v w := by
  cases h with
  | mk id id' hread hwrite hread' hwrite' =>
    exact .mk id id' (hread.of_le hτ) (hwrite.of_le hτ) (hread'.of_le hτ) (hwrite'.of_le hτ)

/-- The proxies around a list give back the items of a type as they are. -/
structure Passes (n : Nat) (σ : Store) (v : Value) (t : Ty) : Prop where
  stored : ∀ y, IsItem y t → ∃ τ, (storedAs n v y).run σ = .ok y τ ∧ Grown σ τ
  loaded : ∀ y, IsItem y t → ∃ τ, (loadedAs n v y).run σ = .ok y τ ∧ Grown σ τ

theorem passes_bare (n σ p t) : Passes (n + 1) σ (.seq p) t where
  stored _ _ := ⟨σ, rfl, .refl σ⟩
  loaded _ _ := ⟨σ, rfl, .refl σ⟩

theorem Doubled.passes (h : Doubled σ t (.seq p) w) (n) : Passes (n + 7) σ w t := by
  cases h with
  | mk id id' hread hwrite hread' hwrite' =>
    refine ⟨fun y hy => ?_, fun y hy => run_there_back hy hread hread' n (n + 1)⟩
    simpa only [storedAs, bind_pure] using run_there_back hy hwrite' hwrite (n + 1) n

/-- What is asked of a list. -/
inductive Request where
  | length
  | load (q : Int)
  | store (q : Int) (x : Value)

/-- What a list answers. -/
inductive Answer where
  | length (n : Nat)
  | item (x : Value)
  | stored

namespace Request

/-- Serve a request from a list or a proxy of one. -/
def serve (n : Nat) (v : Value) : Request → Run Answer
  | length => do pure (.length (← lenOf .casts n v))
  | load q => do pure (.item (← getItem .casts n v (.int q sharedId)))
  | store q x => do
    setItem .casts n v (.int q sharedId) x
    pure .stored

/-- The answer of a list with the given items, and its items afterwards, if the request is in
range. -/
def answer? (cells : Array Value) : Request → Option (Answer × Array Value)
  | length => some (.length cells.size, cells)
  | load q => do
    let r ← (position cells.size q).toOption
    let x ← cells[r]?
    some (.item x, cells)
  | store q x => do
    let r ← (position cells.size q).toOption
    some (.stored, cells.set! r x)

/-- What is stored is of the type. -/
def Stores (t : Ty) : Request → Prop
  | store _ x => IsItem x t
  | _ => True

end Request

/-- Serve requests one after the other, each from the first or from the second value. -/
def serveAll (n : Nat) (v w : Value) (rs : List (Bool × Request)) : Run (List Answer) :=
  rs.mapM fun r => r.2.serve n (if r.1 then w else v)

/-- The answers to requests, one after the other, and the items afterwards. -/
def answers? : Array Value → List Request → Option (List Answer × Array Value)
  | cells, [] => some ([], cells)
  | cells, r :: rs => do
    let first ← r.answer? cells
    let others ← answers? first.2 rs
    some (first.1 :: others.1, others.2)

theorem position_of_toOption (h : (position size q).toOption = some r) :
    position size q = .ok r := by
  generalize position size q = found at h ⊢
  cases found <;> cases h
  rfl

theorem run_serve (hl : Listed p v k) (hk : k < n) (hpass : Passes n σ v t)
    (hs : σ.heap[p]? = some ⟨true, cells⟩) (hcells : ∀ x ∈ cells, IsItem x t) {r : Request}
    (hr : r.Stores t) {a : Answer} (ha : r.answer? cells = some (a, cells')) :
    ∃ τ, (r.serve n v).run σ = .ok a τ ∧ τ.heap[p]? = some ⟨true, cells'⟩ ∧
      σ.envs.size ≤ τ.envs.size ∧ ∀ x ∈ cells', IsItem x t := by
  cases r with
  | length =>
    cases ha
    refine ⟨σ, ?_, hs, Nat.le_refl _, hcells⟩
    rw [Request.serve, hl.wrapped.lenOf_eq hk, run_next (Vars.run_plainLen hs)]
    rfl
  | load q =>
    obtain ⟨r, hr, ha⟩ := Option.bind_eq_some_iff.mp ha
    obtain ⟨x, hx, ha⟩ := Option.bind_eq_some_iff.mp ha
    cases ha
    obtain ⟨τ, hτ, hgrown⟩ := hpass.loaded x (hcells x (Array.mem_of_getElem? hx))
    refine ⟨τ, ?_, hgrown.heap p _ hs, hgrown.size_envs, hcells⟩
    rw [Request.serve, hl.getItem_eq hk, bind_assoc,
      run_next (run_plainItem hs (position_of_toOption hr) hx sharedId), run_next hτ]
    rfl
  | store q x =>
    obtain ⟨r, hq, ha⟩ := Option.bind_eq_some_iff.mp ha
    cases ha
    obtain ⟨τ, hτ, hgrown⟩ := hpass.stored x hr
    have hs' := hgrown.heap p _ hs
    have hp := (Array.getElem?_eq_some_iff.mp hs').1
    refine ⟨withList τ p (cells.set! r x), ?_, by simp [withList, hp], hgrown.size_envs, ?_⟩
    · rw [Request.serve, hl.setItem_eq hk, bind_assoc, run_next hτ,
        run_next (run_plainSetItem hs' (position_of_toOption hq) sharedId x)]
      rfl
    · intro y hy
      rcases Array.mem_or_eq_of_mem_setIfInBounds (by simpa using hy) with hy | rfl
      · exact hcells y hy
      · exact hr

/-- Requests to a list and to its two proxies, in any order, are answered as the list would. -/
theorem Doubled.run_requests (h : Doubled σ t (.seq p) w) (n) (hs : σ.heap[p]? = some ⟨true, cells⟩)
    (hcells : ∀ x ∈ cells, IsItem x t) {rs} (hrs : ∀ r ∈ rs, r.2.Stores t) {as}
    (has : answers? cells (rs.map Prod.snd) = some (as, cells')) :
    ∃ τ, (serveAll (n + 7) (.seq p) w rs).run σ = .ok as τ ∧
      τ.heap[p]? = some ⟨true, cells'⟩ := by
  induction rs generalizing σ cells as with
  | nil =>
    cases has
    exact ⟨σ, rfl, hs⟩
  | cons r rs ih =>
    obtain ⟨⟨a, cells1⟩, ha, hrest⟩ := Option.bind_eq_some_iff.mp has
    obtain ⟨⟨bs, cells2⟩, hbs, heq⟩ := Option.bind_eq_some_iff.mp hrest
    cases heq
    rw [forall_mem_cons] at hrs
    have hserve : ∃ σ₁, (r.2.serve (n + 7) (if r.1 then w else .seq p)).run σ = .ok a σ₁ ∧
        σ₁.heap[p]? = some ⟨true, cells1⟩ ∧ σ.envs.size ≤ σ₁.envs.size ∧
        ∀ x ∈ cells1, IsItem x t := by
      cases r.1 with
      | false => exact run_serve .bare (Nat.succ_pos _) (passes_bare _ σ p t) hs hcells hrs.1 ha
      | true =>
        have hpass := h.passes n
        cases h with
        | mk id id' =>
          exact run_serve (.list _ _ _ (.list _ _ _ .bare)) (by omega) hpass hs hcells hrs.1 ha
    obtain ⟨σ₁, hrun, hs1, hsize, hcells1⟩ := hserve
    obtain ⟨τ, hτ, hend⟩ := ih (h.of_le hsize) hs1 hcells1 hrs.2 hbs
    refine ⟨τ, ?_, hend⟩
    rw [serveAll, mapM_cons, run_next hrun]
    exact run_next hτ

/-- A list that has been cast to lists of the unknown type and back is the list itself for all
requests, also when they go to both of them. To the unknown type itself a list can be cast, but
never back. -/
theorem list_there_and_back {t : Ty} {cells : Array Value} (hs : σ.heap[p]? = some ⟨true, cells⟩)
    (hcells : ∀ x ∈ cells, IsItem x t) :
    (∃ a σ₁, (castValue .casts (.seq p) (.list t) .any).run σ = .ok a σ₁ ∧ Grown σ σ₁ ∧
      ∀ τ, (castValue .casts a .any (.list t)).run τ = .error (.fault .unsetName) τ) ∧
    ∃ w σ', (do
        let u ← castValue .casts (.seq p) (.list t) (.list .any)
        castValue .casts u (.list .any) (.list t) : Run Value).run σ = .ok w σ' ∧ Grown σ σ' ∧
      ∀ (n : Nat) (rs : List (Bool × Request)) (as : List Answer) (cells' : Array Value), 7 ≤ n →
        (∀ r ∈ rs, r.2.Stores t) → answers? cells (rs.map Prod.snd) = some (as, cells') →
        ∃ τ, (serveAll n (.seq p) w rs).run σ' = .ok as τ ∧
          τ.heap[p]? = some ⟨true, cells'⟩ := by
  constructor
  · obtain ⟨read, write, id, σ₁, hrun, hσ₁, -⟩ := run_wrapList (.seq p) t .any σ
    exact ⟨.tagged (.proxiedList (.seq p) read write id) (sharedText "tuple") σ₁.next,
      { σ₁ with next := σ₁.next + 1 }, (run_next hrun).trans rfl, hσ₁.trans (.of_eq rfl rfl rfl),
      fun τ => rfl⟩
  · obtain ⟨read, write, id, σ₁, hrun, hσ₁, hread, hwrite⟩ := run_wrapList (.seq p) t .any σ
    obtain ⟨read', write', id', σ', hrun', hσ', hread', hwrite'⟩ :=
      run_wrapList (.proxiedList (.seq p) read write id) .any t σ₁
    refine ⟨_, σ', (run_next hrun).trans hrun', hσ₁.trans hσ', fun n rs as cells' hn hrs has => ?_⟩
    obtain ⟨n, rfl⟩ := Nat.exists_eq_add_of_le' hn
    have hdoubled : Doubled σ' t (.seq p) _ :=
      .mk id id' (hread.mono hσ') (hwrite.mono hσ') hread' hwrite'
    exact hdoubled.run_requests n ((hσ₁.trans hσ').heap p _ hs) hcells hrs has

/-- An item is stored through the proxies and read from the list, and the other way round. -/
theorem list_there_and_back_shared :
    ∃ w σ' τ, (do
        let u ← castValue .casts (.seq 0) (.list .int) (.list .any)
        castValue .casts u (.list .any) (.list .int) : Run Value).run
          { heap := #[⟨true, #[.int 1 0, .int 2 0]⟩] } = .ok w σ' ∧
      (serveAll 7 (.seq 0) w [(true, .store 0 (.int 5 0)), (false, .load 0),
        (false, .store (-1) (.int 6 0)), (true, .load 1), (true, .length)]).run σ' =
        .ok [.stored, .item (.int 5 0), .stored, .item (.int 6 0), .length 2] τ := by
  have hitems : ∀ x ∈ #[Value.int 1 0, .int 2 0], IsItem x .int := by
    intro x hx
    simp only [List.mem_toArray, mem_cons, not_mem_nil, or_false] at hx
    rcases hx with rfl | rfl
    · exact .int 1 0 .int
    · exact .int 2 0 .int
  obtain ⟨-, w, σ', hrun, -, hserve⟩ :=
    list_there_and_back (σ := { heap := #[⟨true, #[.int 1 0, .int 2 0]⟩] }) (p := 0) rfl hitems
  have hstores : ∀ r ∈ [(true, Request.store 0 (.int 5 0)), (false, .load 0),
      (false, .store (-1) (.int 6 0)), (true, .load 1), (true, .length)], r.2.Stores .int := by
    simp only [forall_mem_cons]
    exact ⟨.int 5 0 .int, trivial, .int 6 0 .int, trivial, trivial, fun r hr => by cases hr⟩
  obtain ⟨τ, hτ, -⟩ := hserve 7 _ _ _ (Nat.le_refl 7) hstores rfl
  exact ⟨w, σ', τ, hrun, hτ⟩

end CompilerKit.Casts
