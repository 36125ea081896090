import CompilerKit.Eval.Rules
import CompilerKit.Proofs.Simulation

/-!
# Environments of a run

What is evaluated in an environment binds names there and nowhere else. A call makes an environment
of its own for its function, so that it leaves all those alone that were there before it: the one
that the function has captured, that of its caller, and those of all other closures. Of the
sequences that were there, only lists can have other items afterwards.

* `confined_evalExpr` and its like: the rules change nothing but one environment.
* `confinedAt`: all of them together, by induction on the fuel.
-/

namespace CompilerKit

open Run

/-! ## Stores -/

/-- Every environment of the first store but the `i`-th is in the second one as it was. Every
sequence is there with its length, and with its items if it is no list. -/
structure Untouched (i : Nat) (σ τ : Store) : Prop where
  envs : ∀ j < σ.envs.size, j ≠ i → τ.envs[j]? = σ.envs[j]?
  size : σ.envs.size ≤ τ.envs.size
  seqs : ∀ (p : Nat) (s : Sequence), σ.heap[p]? = some s → ∃ t : Sequence, τ.heap[p]? = some t ∧
    t.isList = s.isList ∧ t.cells.size = s.cells.size ∧ (s.isList = false → t = s)

variable {σ : Store}

namespace Untouched

theorem of_eq (henvs : τ.envs = σ.envs) (hheap : τ.heap = σ.heap) : Untouched i σ τ where
  envs j _ _ := by rw [henvs]
  size := Nat.le_of_eq (congrArg Array.size henvs.symm)
  seqs p s hs := ⟨s, hheap ▸ hs, rfl, rfl, fun _ => rfl⟩

theorem trans (h : Untouched i σ τ) (h' : Untouched i τ υ) : Untouched i σ υ where
  envs j hj hne := (h'.envs j (Nat.lt_of_lt_of_le hj h.size) hne).trans (h.envs j hj hne)
  size := Nat.le_trans h.size h'.size
  seqs p s hs := by
    obtain ⟨t, ht, hlist, hsize, hsame⟩ := h.seqs p s hs
    obtain ⟨u, hu, hlist', hsize', hsame'⟩ := h'.seqs p t ht
    refine ⟨u, hu, hlist'.trans hlist, hsize'.trans hsize, fun hs => ?_⟩
    obtain rfl := hsame hs
    exact hsame' hs

theorem push (σ : Store) (s : Sequence) : Untouched i σ { σ with heap := σ.heap.push s } where
  envs _ _ _ := rfl
  size := Nat.le_refl _
  seqs p t ht := by
    have hlt := (Array.getElem?_eq_some_iff.mp ht).1
    refine ⟨t, ?_, rfl, rfl, fun _ => rfl⟩
    rwa [Array.getElem?_push, if_neg (Nat.ne_of_lt hlt)]

theorem pushEnv (σ : Store) (env : Env) : Untouched i σ { σ with envs := σ.envs.push env } where
  envs j hj _ := by rw [Array.getElem?_push, if_neg (Nat.ne_of_lt hj)]
  size := by simp
  seqs p s hs := ⟨s, hs, rfl, rfl, fun _ => rfl⟩

/-- Only lists can be written to. -/
theorem setItem {base n v : Value} {heap : Heap} (h : base.setItem σ.heap n v = .ok heap) :
    Untouched i σ { σ with heap } := by
  fun_induction Value.setItem σ.heap base n v with
  | case2 p s hs hlist k hk =>
    obtain ⟨q, -, hq⟩ := ok_of_bind h
    cases hq
    refine ⟨fun _ _ _ => rfl, Nat.le_refl _, fun r t ht => ?_⟩
    by_cases hpr : p = r
    · subst hpr
      obtain rfl : s = t := Option.some.inj (hs.symm.trans ht)
      have hlt := (Array.getElem?_eq_some_iff.mp hs).1
      refine ⟨{ s with cells := s.cells.set! q v }, by simp [hlt], rfl, by simp, fun h => ?_⟩
      rw [hlist] at h
      cases h
    · exact ⟨t, by simpa [hpr] using ht, rfl, rfl, fun _ => rfl⟩
  | case5 _ _ _ ih => exact ih h
  | _ => cases h

end Untouched

/-! ## Operations -/

/-- The store that a run ends in. -/
def finalStore {α : Type} : Run.Result α → Store
  | .ok _ σ | .error _ σ => σ

/-- The computation binds names in the `i`-th environment alone, among those that are there. -/
def Confined {α : Type} (i : Nat) (x : Run α) : Prop := ∀ σ, Untouched i σ (finalStore (x.run σ))

variable {α β : Type}

namespace Confined

theorem of_ok (hx : Confined i x) (h : x.run σ = .ok a τ) : Untouched i σ τ := by
  have hσ := hx σ
  rwa [h] at hσ

@[grind ←] theorem pure (a) : Confined i (Pure.pure a : Run α) := fun _ => .of_eq rfl rfl

@[grind ←] theorem throw (e) : Confined i (throw e : Run α) := fun _ => .of_eq rfl rfl

@[grind ←] theorem stop (f) : Confined i (stop f : Run α) := throw _

@[grind ←] theorem get : Confined i (MonadState.get : Run Store) := fun _ => .of_eq rfl rfl

@[grind ←] theorem bind {f : α → Run β} (hx : Confined i x)
    (hf : ∀ a, Confined i (f a)) : Confined i (x >>= f) := by
  intro σ
  have h := hx σ
  rw [EStateM.run_bind]
  generalize x.run σ = r at h
  cases r with
  | ok a τ => exact h.trans (hf a τ)
  | error e τ => exact h

@[grind ←] theorem mapM {f : α → Run β} (hf : ∀ a, Confined i (f a)) (as : List α) :
    Confined i (as.mapM f) := by
  induction as with
  | nil => exact pure []
  | cons a as ih => grind

@[grind ←] theorem withHeap (f : Heap → α) : Confined i (withHeap f) := fun _ => .of_eq rfl rfl

@[grind ←] theorem ofExcept (x : Except Fault α) : Confined i (ofExcept x) := by
  unfold Run.ofExcept
  grind

@[grind ←] theorem newId : Confined i newId := fun _ => .of_eq rfl rfl

@[grind ←] theorem fresh (x) : Confined i (fresh x) := fun _ => .of_eq rfl rfl

theorem modifyBlocks (b) : Confined i (modify fun σ => { σ with blocks := b } : Run Unit) :=
  fun _ => .of_eq rfl rfl

@[grind ←] theorem allocate (s) : Confined i (allocate s) := fun σ => .push σ s

@[grind ←] theorem newEnv (env) : Confined i (newEnv env) := fun σ => .pushEnv σ env

@[grind ←] theorem envAt (f j) : Confined i (envAt f j) := by
  unfold Run.envAt
  grind

@[grind ←] theorem lookup (j x) : Confined i (lookup j x) := by
  unfold Run.lookup
  grind

@[grind ←] theorem assign (x v) : Confined i (assign i x v) := by
  refine (envAt _ i).bind fun env σ => ⟨fun j _ hne => ?_, ?_, fun p s hs => ?_⟩
  · exact Array.getElem?_setIfInBounds_ne (Ne.symm hne)
  · exact Nat.le_of_eq Array.size_setIfInBounds.symm
  · exact ⟨s, hs, rfl, rfl, fun _ => rfl⟩

@[grind ←] theorem print (v) : Confined i (print v) := by
  unfold Run.print
  refine (withHeap _).bind fun r => ?_
  split
  · exact fun _ => .of_eq rfl rfl
  · exact stop _

@[grind ←] theorem number (k) : Confined i (number k) := newId.bind fun _ => pure _

@[grind ←] theorem readInt : Confined i readInt := by
  intro σ
  rw [Run.readInt, EStateM.run_bind, EStateM.run_get]
  dsimp only
  rcases σ.console.readInt with ⟨f | n, console⟩
  · exact .of_eq rfl rfl
  · have hset : Untouched i σ { σ with console } := .of_eq rfl rfl
    have hnew : Confined i (if n = Word.least || n = Word.greatest then
      Pure.pure (.int n sharedId) else Run.number n) := by grind
    exact hset.trans (hnew _)

@[grind ←] theorem newTagged (v w) : Confined i (newTagged v w) := newId.bind fun _ => pure _

@[grind ←] theorem newFunction (f ps b j) : Confined i (newFunction f ps b j) :=
  newId.bind fun _ => pure _

@[grind ←] theorem newClosure (v w) : Confined i (newClosure v w) := newId.bind fun _ => pure _

@[grind ←] theorem newProxiedTuple (v w) : Confined i (newProxiedTuple v w) :=
  newId.bind fun _ => pure _

@[grind ←] theorem newProxiedList (v r w) : Confined i (newProxiedList v r w) :=
  newId.bind fun _ => pure _

@[grind ←] theorem newList (vs) : Confined i (newList vs) := allocate _

@[grind ←] theorem newTuple (vs) : Confined i (newTuple vs) := allocate _

@[grind ←] theorem made (m) : Confined i (made m) := by
  unfold Run.made
  grind

@[grind ←] theorem plainItem (v n) : Confined i (plainItem v n) := by
  unfold Run.plainItem
  grind

@[grind ←] theorem plainLen (v) : Confined i (plainLen v) := by
  unfold Run.plainLen
  grind

@[grind ←] theorem checkIndex (v n) : Confined i (checkIndex v n) := by
  unfold Run.checkIndex
  grind

@[grind ←] theorem plainSetItem (base n v) : Confined i (plainSetItem base n v) := by
  intro σ
  change Untouched i σ (finalStore ((Run.ofExcept (base.setItem σ.heap n v) >>= fun h =>
    modify fun σ => { σ with heap := h }).run σ))
  cases h : base.setItem σ.heap n v with
  | error f => exact .of_eq rfl rfl
  | ok heap => exact .setItem h

end Confined

@[grind ←] theorem confined_tagValue (v) : Confined i (tagValue v) := by
  unfold tagValue
  grind

@[grind ←] theorem confined_untag (s v) : Confined i (untag s v) := by
  unfold untag
  grind

@[grind ←] theorem confined_typeTag (l t) : Confined i (typeTag l t) := by
  unfold typeTag
  grind

@[grind ←] theorem confined_compareValues (l op v w) : Confined i (compareValues l op v w) := by
  unfold compareValues
  grind

@[grind ←] theorem confined_arithValues (l op v w) : Confined i (arithValues l op v w) := by
  unfold arithValues
  grind

@[grind ←] theorem confined_arithTagged (op v w) : Confined i (arithTagged op v w) := by
  unfold arithTagged
  grind

@[grind ←] theorem confined_compareTagged (v w) {f : Value → Value → Run Bool}
    (hf : ∀ x y, Confined i (f x y)) : Confined i (compareTagged v w f) := by
  unfold compareTagged
  grind

@[grind ←] theorem confined_valueArity (l v) : Confined i (valueArity l v) := by
  unfold valueArity
  grind

@[grind ←] theorem confined_emptyCells (t) : Confined i (emptyCells t) := by
  unfold emptyCells
  grind

@[grind ←] theorem confined_bindTerm (t v) : Confined i (bindTerm i t v) := by
  unfold bindTerm
  grind

@[grind ←] theorem confined_unboundTerm (t) : Confined i (unboundTerm t : Run α) := by
  unfold unboundTerm
  grind

@[grind ←] theorem confined_idle (l b) : Confined i (idle l b) := by
  unfold idle
  grind

@[grind ←] theorem confined_projectValue (l v t) : Confined i (projectValue l v t) := by
  unfold projectValue
  grind

@[grind ←] theorem confined_injectValue (l v t) : Confined i (injectValue l v t) := by
  unfold injectValue
  grind

@[grind ←] theorem confined_castFunction (x s t) : Confined i (castFunction x s t) := by
  unfold castFunction
  grind

@[grind ←] theorem confined_wrapFunction (v ps r qs s) :
    Confined i (wrapFunction v ps r qs s) :=
  (Confined.mapM (fun _ => .fresh "x") qs).bind fun _ => (Confined.newEnv []).bind fun _ =>
    .newFunction _ _ _ _

@[grind ←] theorem confined_wrapTuple (v ps qs) : Confined i (wrapTuple v ps qs) := by
  unfold wrapTuple
  grind

@[grind ←] theorem confined_wrapList (v p q) : Confined i (wrapList v p q) := by
  unfold wrapList
  grind

@[grind ←] theorem confined_castValue (l v s t) : Confined i (castValue l v s t) := by
  unfold castValue
  grind

/-! ## Trees -/

/-- Reading a tree adds to the store alone. -/
def Additive (x : Reading α) : Prop := ∀ i, Confined i (convert x)

namespace Additive

@[grind ←] theorem pure (a : α) : Additive (Pure.pure a) := fun _ => .pure a

@[grind ←] theorem bind {f : α → Reading β} (hx : Additive x)
    (hf : ∀ a, Additive (f a)) : Additive (x >>= f) := fun i => (hx i).bind fun a => hf a i

@[grind ←] theorem newId : Additive Reading.newId := fun _ => .newId

@[grind ←] theorem newSequence (b vs) : Additive (Reading.newSequence b vs) := fun _ => .allocate _

@[grind ←] theorem newEnv (env) : Additive (Reading.newEnv env) := fun _ => .newEnv env

end Additive

theorem additive : (∀ t, Additive (Expr.ofTerm t)) ∧ (∀ t, Additive (Stmt.ofField t)) ∧
    (∀ ts, Additive (Stmt.ofTerms ts)) ∧ (∀ t, Additive (Stmt.ofTerm t)) ∧
    (∀ t, Additive (Body.ofTerm t)) ∧ (∀ es, Additive (Block.ofEntries es)) ∧
    (∀ t, Additive (Expr.ofField t)) ∧ (∀ ts, Additive (Expr.ofTerms ts)) ∧
    (∀ t, Additive (Value.ofTerm t)) ∧ (∀ ts, Additive (Value.ofTerms ts)) := by
  -- a case for each equation of the functions, whose parts are read before it gives its result
  apply Expr.ofTerm.mutual_induct <;> intros <;> first
    | rw [Expr.ofTerm] <;> first | assumption | grind
    | rw [Stmt.ofTerm] <;> first | assumption | grind
    | rw [Value.ofTerm] <;> first | assumption | grind
    | rw [Body.ofTerm] <;> first | assumption | grind
    | rw [Block.ofEntries] <;> first | assumption | grind
    | rw [Expr.ofField] <;> first | assumption | grind
    | rw [Stmt.ofField] <;> first | assumption | grind
    | rw [Expr.ofTerms] <;> first | assumption | grind
    | rw [Stmt.ofTerms] <;> first | assumption | grind
    | (rw [Value.ofTerms]; first | assumption | grind)

@[grind ←] theorem confined_readExpr (t) : Confined i (convert (Expr.ofTerm t)) := additive.1 t i

@[grind ←] theorem confined_readStmts (ts) : Confined i (convert (Stmt.ofTerms ts)) :=
  additive.2.2.1 ts i

@[grind ←] theorem confined_readBody (t) : Confined i (convert (Body.ofTerm t)) :=
  additive.2.2.2.2.1 t i

@[grind ←] theorem confined_readValue (t) : Confined i (convert (Value.ofTerm t)) :=
  additive.2.2.2.2.2.2.2.2.1 t i

@[grind ←] theorem confined_arityValue (t) : Confined i (arityValue t) := by
  unfold arityValue
  grind

@[grind ←] theorem confined_blockAt (b t) : Confined i (blockAt b t) := by
  unfold blockAt
  grind

/-! ## Evaluation -/

variable {l : Language} {n : Nat}

/-- What is confined to the environment of a call touches no environment that was there before. -/
theorem confined_enter {f : Nat → Run α} (hf : ∀ j, Confined j (f j)) (j ps vs) :
    Confined i (enter j ps vs >>= f) := by
  have hnew (env : Env) : Confined i (newEnv env >>= f) := by
    intro σ
    obtain ⟨henvs, hsize, hseqs⟩ := hf σ.envs.size { σ with envs := σ.envs.push env }
    have hpush := Untouched.pushEnv (i := i) σ env
    refine ⟨fun k hk hne => ?_, Nat.le_trans hpush.size hsize, hseqs⟩
    rw [← hpush.envs k hk hne]
    exact henvs k (Nat.lt_of_lt_of_le hk hpush.size) (Nat.ne_of_lt hk)
  unfold enter
  simp only [bind_assoc]
  refine (Confined.envAt _ j).bind fun env => ?_
  split
  · exact hnew _
  · rw [bind_assoc]
    exact (Confined.ofExcept _).bind fun _ => hnew _

/-- The rules are confined to the environment that they are given; a call is confined to any. -/
structure ConfinedAt (l : Language) (n : Nat) : Prop where
  expr : ∀ i e, Confined i (evalExpr l n i e)
  logic : ∀ i op a b, Confined i (evalLogic l n i op a b)
  tree : ∀ i t, Confined i (evalTree l n i t)
  call : ∀ i e f es, Confined i (evalCall l n i e f es)
  apply : ∀ i v vs, Confined i (applyValue l n v vs)
  getItem : ∀ i v w, Confined i (getItem l n v w)
  setItem : ∀ i v w x, Confined i (setItem l n v w x)
  lenOf : ∀ i v, Confined i (lenOf l n v)
  stmt : ∀ i s ss, Confined i (evalStmt l n i s ss)
  stmtTree : ∀ i t ss, Confined i (evalStmtTree l n i t ss)
  stmts : ∀ i ss, Confined i (evalStmts l n i ss)
  tail : ∀ i s, Confined i (evalTail l n i s)

attribute [grind ←] ConfinedAt.expr ConfinedAt.logic ConfinedAt.tree ConfinedAt.call
  ConfinedAt.apply ConfinedAt.getItem ConfinedAt.setItem ConfinedAt.lenOf ConfinedAt.stmt
  ConfinedAt.stmtTree ConfinedAt.stmts ConfinedAt.tail

section

variable (hn : ConfinedAt l n)
include hn

theorem confined_evalExpr (e) : Confined i (evalExpr l (n + 1) i e) := by
  rw [evalExpr.eq_def]
  dsimp only
  split <;> grind

theorem confined_evalTree (t) : Confined i (evalTree l (n + 1) i t) := by
  rw [evalTree.eq_def]
  dsimp only
  split <;> grind

theorem confined_evalCall (e f es) : Confined i (evalCall l (n + 1) i e f es) := by
  rw [evalCall.eq_def]
  dsimp only
  split <;> grind

theorem confined_applyValue (v vs) : Confined i (applyValue l (n + 1) v vs) := by
  rw [applyValue.eq_def]
  dsimp only
  split <;> (refine Confined.bind ?_ fun g => ?_; · grind)
  all_goals
    split
    · grind
    · split
      · refine Confined.get.bind fun σ => ?_
        split
        · grind
        · refine (Confined.modifyBlocks _).bind fun _ =>
            confined_enter (fun j => (confined_blockAt _ _).bind fun b => ?_) _ _ _
          split
          · exact (hn.stmts j _).bind fun v => (Confined.modifyBlocks _).bind fun _ => .pure v
          · exact (Confined.pure _).bind fun v => (Confined.modifyBlocks _).bind fun _ => .pure v
      · refine confined_enter (fun j => ?_) _ _ _
        grind
    · grind

theorem confined_evalStmt (s ss) : Confined i (evalStmt l (n + 1) i s ss) := by
  rw [evalStmt.eq_def]
  dsimp only
  split <;> grind

theorem confined_evalStmtTree (t ss) : Confined i (evalStmtTree l (n + 1) i t ss) := by
  rw [evalStmtTree.eq_def]
  dsimp only
  split <;> grind

theorem confined_evalTail (s) : Confined i (evalTail l (n + 1) i s) := by
  rw [evalTail.eq_def]
  dsimp only
  split <;> try grind
  -- what is left jumps to a block: of a conditional, and of a bare jump
  · split
    · refine (hn.expr i _).bind fun v => ?_
      split <;> grind
    · grind
  · split
    · refine Confined.get.bind fun σ => ?_
      split
      · grind
      · exact (confined_blockAt _ _).bind fun b => by split <;> grind
    · grind

end

theorem confinedAt (l n) : ConfinedAt l n := by
  induction n with
  | zero => constructor <;> intros <;> exact .throw _
  | succ n hn =>
    exact {
      expr _ := confined_evalExpr hn
      logic i op a b := by
        unfold evalLogic
        grind
      tree _ := confined_evalTree hn
      call _ := confined_evalCall hn
      apply _ := confined_applyValue hn
      getItem i v w := by
        unfold getItem
        grind
      setItem i v w x := by
        unfold setItem
        grind
      lenOf i v := by
        unfold lenOf
        grind
      stmt _ := confined_evalStmt hn
      stmtTree _ := confined_evalStmtTree hn
      stmts i ss := by
        unfold evalStmts
        grind
      tail _ := confined_evalTail hn }

/-- A call leaves every environment with its bindings, and every sequence with its length; only
lists can have other items. This holds wherever the call ends, with a result or with an error. -/
theorem applyValue_untouched (l : Language) (n : Nat) (f : Value) (vs : List Value) (σ : Store) :
    (∀ j < σ.envs.size,
      (finalStore ((applyValue l n f vs).run σ)).envs[j]? = σ.envs[j]?) ∧
    ∀ (p : Nat) (s : Sequence), σ.heap[p]? = some s →
      ∃ t : Sequence, (finalStore ((applyValue l n f vs).run σ)).heap[p]? = some t ∧
        t.isList = s.isList ∧ t.cells.size = s.cells.size ∧ (s.isList = false → t = s) := by
  have h := (confinedAt l n).apply σ.envs.size f vs σ
  exact ⟨fun j hj => h.envs j hj (Nat.ne_of_lt hj), h.seqs⟩

end CompilerKit
