import CompilerKit.Proofs.Blocks.Monotone

/-!
# The rules for blocks are monotone

The rules of the first two type systems of blocks, those without lists, and the pass over the blocks
of a program. Tuples come with types that the program itself names; the others are numbers and truth
values.
-/

namespace CompilerKit.Blocks

open Check List

/-! ## What statements name -/

mutual

/-- The parts of an expression that the rules do not take apart. -/
def exprLeaves : Expr → List Expr
  | .arith l _ r _ => exprLeaves l ++ exprLeaves r
  | .unary _ a _ => exprLeaves a
  | .compare l _ rs _ => exprLeaves l ++ exprsLeaves rs
  | .block ss r _ => stmtsLeaves ss ++ exprLeaves r
  | .subscript b i _ _ => exprLeaves b ++ exprLeaves i
  | .call _ args _ => exprsLeaves args
  | e => [e]

def exprsLeaves : List Expr → List Expr
  | [] => []
  | e :: es => exprLeaves e ++ exprsLeaves es

def stmtLeaves : Stmt → List Expr
  | .assign targets e _ => exprLeaves e ++ exprsLeaves targets
  | .expr e _ => exprLeaves e
  | .ite test _ _ _ => exprLeaves test
  | .ret e _ => exprLeaves e
  | _ => []

def stmtsLeaves : List Stmt → List Expr
  | [] => []
  | s :: ss => stmtLeaves s ++ stmtsLeaves ss

end

/-- The variable that an expression is. -/
def varName? : Expr → Option String
  | .name x _ => some x
  | _ => none

/-- The type that an expression allocates a tuple of. -/
def allocation? : Expr → Option Ty
  | .allocate _ t _ => some t
  | _ => none

/-- The variables among parts of expressions. -/
def variablesOf (es : List Expr) : List String := es.filterMap varName?

/-- The types among parts of expressions. -/
def typesOf (es : List Expr) : List Ty := es.filterMap allocation?

@[simp] theorem variablesOf_append (es es') :
    variablesOf (es ++ es') = variablesOf es ++ variablesOf es' := filterMap_append

/-- Tuples, if the type system has them, are of types in the set. -/
def Allocates (c : TypeSystem) (S : Ty → Prop) (es : List Expr) : Prop :=
  c.hasTuples = true → ∀ t ∈ typesOf es, S t

variable {c : TypeSystem}

@[simp] theorem allocates_append {S : Ty → Prop} :
    Allocates c S (es ++ es') ↔ Allocates c S es ∧ Allocates c S es' := by
  simp only [Allocates, typesOf, filterMap_append, mem_append]
  constructor
  · intro h
    exact ⟨fun hc t ht => h hc t (.inl ht), fun hc t ht => h hc t (.inr ht)⟩
  · rintro ⟨hl, hr⟩ hc t (ht | ht)
    · exact hl hc t ht
    · exact hr hc t ht

/-! ## Atoms -/

theorem blockAtom_other (c t) :
    blockAtom c (.other t) = pure .bottom ∨ ∃ e, blockAtom c (.other t) = throw e := by
  unfold blockAtom
  split
  case h_5 x _ =>
    split
    · exact .inl rfl
    · exact .inr ⟨_, rfl⟩
  case h_6 => exact .inr ⟨_, rfl⟩
  all_goals contradiction

section

variable {S : Ty → Prop} (hS : Apart c S)
include hS

theorem monotone_blockAtom (e) :
    Monotone S (variablesOf (exprLeaves e)) (TyRel S) (blockAtom c e) (blockAtom c e) := by
  cases e with
  | name x n => exact monotone_variableType hS x
  | const k n =>
    cases k with
    | bool b => exact .pure (.refl hS.bool)
    | int i id => exact .pure (.refl hS.int)
    | _ => exact .throw _ _
  | global x n =>
    exact .given fun _ => .pure (.refl hS.int)
  | other t =>
    rcases blockAtom_other c t with h | ⟨e, h⟩
    · rw [h]
      exact .pure (.refl hS.bottom)
    · rw [h]
      exact .throw _ _
  | _ => exact .throw _ _

theorem monotone_expect {Q : α → α → Prop} (place) (hx : Monotone S V (TyRel S) x x)
    (ht : S t) (hf : Monotone S W Q f f) :
    Monotone S (V ++ W) Q (do let s ← x; equal c s t place; f)
      (do let s ← x; equal c s t place; f) :=
  hx.bind fun _ _ hs => (monotone_equal hS place hs (.refl ht)).bind fun _ _ _ => hf

theorem monotone_agree (place) (hx : Monotone S V (TyRel S) x x)
    (hy : Monotone S W (TyRel S) y y) (ht : S t) :
    Monotone S (V ++ W) (TyRel S) (do let s ← x; let t' ← y; equal c s t' place; pure t)
      (do let s ← x; let t' ← y; equal c s t' place; pure t) := by
  refine hx.bind fun s s' hs => ?_
  have h := hy.bind fun t t' ht' => (monotone_equal hS place hs ht').bind fun _ _ _ =>
    Monotone.pure (TyRel.refl ht)
  exact h.congr fun z => by simp

/-- A rule for a type that has nothing to say if nothing is known about the type. -/
theorem monotone_use {f : Ty → Check Ty} (hbottom : f .bottom = pure .bottom)
    (hf : ∀ s, S s → (∃ t, S t ∧ f s = pure t) ∨ ∃ e, f s = throw e) (hs : TyRel S s s') :
    Monotone S [] (TyRel S) (f s) (f s') := by
  rcases hs.below with rfl | rfl
  · rw [hbottom]
    refine .skip (.refl hS.bottom) fun _ hrun => ?_
    rcases hf s' hs.right with ⟨t, ht, h⟩ | ⟨e, h⟩
    · rw [h] at hrun
      cases hrun
      exact ⟨rfl, hS.bottom, ht, .inl rfl⟩
    · rw [h] at hrun
      cases hrun
  · rcases hf s hs.left with ⟨t, ht, h⟩ | ⟨e, h⟩
    · rw [h]
      exact .pure (.refl ht)
    · rw [h]
      exact .throw _ _

end

/-! ## Expressions -/

/-- The features that a type system of blocks without lists does not have either. -/
theorem lacks_of_noArrays (hc : c.hasArrays = false) :
    c.hasFunctions = false ∧ c.hasLambdas = false ∧ c.hasTags = false ∧ c.hasProxies = false := by
  revert hc
  cases c <;> decide

theorem typeAtValue_cases (ts k) :
    (∃ t ∈ ts, typeAtValue ts k = pure t) ∨ ∃ e, typeAtValue ts k = throw e := by
  have htypeAt (i : Int) : (∃ t ∈ ts, typeAt ts i = pure t) ∨ ∃ e, typeAt ts i = throw e := by
    unfold typeAt
    generalize (if 0 ≤ i then i else i + ts.length) = p
    dsimp only
    split
    · split
      · next t ht => exact .inl ⟨t, mem_of_getElem? ht, rfl⟩
      · exact .inr ⟨_, rfl⟩
    · exact .inr ⟨_, rfl⟩
  cases k with
  | int i id => exact htypeAt i
  | bool b => exact htypeAt _
  | _ => exact .inr ⟨_, rfl⟩

/-- The type of a part of a tuple, by the type of the tuple. -/
def partType (k : Value) : Ty → Check Ty
  | .tuple ts _ => typeAtValue ts k
  | .bottom => pure .bottom
  | t => refuse (.unusable "error, expected a tuple, not " t)

/-- The type of the length of a tuple, by the type of the tuple. -/
def lengthType : Ty → Check Ty
  | .tuple _ _ => pure .int
  | .bottom => pure .bottom
  | t => refuse (.unusable "error, expected a tuple, not " t)

theorem blockExpr_other (hc : c.hasArrays = false) (t) :
    blockExpr c (.other t) = blockAtom c (.other t) ∨ ∃ e, blockExpr c (.other t) = throw e := by
  cases t with
  | node k fs m =>
    cases k with
    | name =>
      rcases fs with _ | ⟨x, _ | ⟨y, fs⟩⟩
      · exact .inr ⟨_, rfl⟩
      · exact .inl rfl
      · exact .inr ⟨_, rfl⟩
    | record r =>
      cases r with
      | funRef =>
        cases fs with
        | nil => exact .inr ⟨_, rfl⟩
        | cons x fs =>
          change (if c.hasFunctions then _ else _) = _ ∨ ∃ e, (if c.hasFunctions then _ else _) = _
          rw [(lacks_of_noArrays hc).1, if_neg Bool.false_ne_true]
          exact .inr ⟨_, rfl⟩
      | _ => exact .inr ⟨_, rfl⟩
    | _ => exact .inr ⟨_, rfl⟩
  | _ => exact .inr ⟨_, rfl⟩

theorem blockExpr_call (hc : c.hasArrays = false) (f args n) :
    (args = [] ∧ blockExpr c (.call f args n) = pure .int) ∨
    (∃ a, args = [a] ∧ blockExpr c (.call f args n) = blockAtom c a >>= lengthType) ∨
    ∃ e, blockExpr c (.call f args n) = throw e := by
  obtain ⟨hfun, hlam, htags, hprox⟩ := lacks_of_noArrays hc
  -- the rule for calls is opened alone: the equation of the whole checker takes much longer
  generalize hr : blockExpr c (.call f args n) = r
  delta blockExpr at hr
  conv at hr => lhs; whnf
  split at hr <;> dsimp only at hr
  case h_1 => exact .inl ⟨rfl, hr.symm⟩
  case h_2 a =>
    cases htup : c.hasTuples with
    | true =>
      rw [htup] at hr
      exact .inr (.inl ⟨a, rfl, hr.symm⟩)
    | false =>
      rw [htup] at hr
      exact .inr (.inr ⟨_, hr.symm⟩)
  all_goals
    simp only [hc, hfun, htags, Bool.false_and, Bool.false_eq_true, if_false] at hr
    exact .inr (.inr ⟨_, hr.symm⟩)

section

/-- The rule for the expression is monotone. -/
abbrev MonotoneExpr (c : TypeSystem) (S : Ty → Prop) (e : Expr) : Prop :=
  Monotone S (variablesOf (exprLeaves e)) (TyRel S) (blockExpr c e) (blockExpr c e)

variable {S : Ty → Prop} (hS : Apart c S)
include hS

theorem monotone_partType (k) (hs : TyRel S s s') :
    Monotone S [] (TyRel S) (partType k s) (partType k s') := by
  refine monotone_use hS rfl (fun s hs => ?_) hs
  cases s with
  | tuple ts b =>
    rcases typeAtValue_cases ts k with ⟨t, ht, h⟩ | ⟨e, h⟩
    · exact .inl ⟨t, hS.parts hs t ht, h⟩
    · exact .inr ⟨e, h⟩
  | bottom => exact .inl ⟨.bottom, hS.bottom, rfl⟩
  | _ => exact .inr ⟨_, rfl⟩

theorem monotone_lengthType (hs : TyRel S s s') :
    Monotone S [] (TyRel S) (lengthType s) (lengthType s') := by
  refine monotone_use hS rfl (fun s hs => ?_) hs
  cases s with
  | tuple ts b => exact .inl ⟨.int, hS.int, rfl⟩
  | bottom => exact .inl ⟨.bottom, hS.bottom, rfl⟩
  | _ => exact .inr ⟨_, rfl⟩

variable (hc : c.hasArrays = false)
include hc

theorem monotone_blockExpr_arith (l op r n) : MonotoneExpr c S (.arith l op r n) := by
  have hsum (place : Culprit) := monotone_expect hS place (monotone_blockAtom hS l) hS.int
    (monotone_expect hS place (monotone_blockAtom hS r) hS.int (.pure (TyRel.refl hS.int)))
  cases op with
  | add | sub => exact (hsum _).congr fun z => by simp [exprLeaves]
  | mult => exact .lacks hc
  | _ => exact .throw _ _

omit hc in
theorem monotone_blockExpr_compare (op n) (hl : MonotoneExpr c S l) (hr : MonotoneExpr c S r) :
    Monotone S (variablesOf (exprLeaves l) ++ variablesOf (exprLeaves r)) (TyRel S)
      (blockExpr c (.compare l [op] [r] n)) (blockExpr c (.compare l [op] [r] n)) := by
  have hl' := monotone_blockAtom hS l
  have hr' := monotone_blockAtom hS r
  change Monotone S _ _
    (if (op == .same && c.hasTuples) = true then _ else if (op == .eq || op == .notEq) = true then _
      else _)
    (if (op == .same && c.hasTuples) = true then _ else if (op == .eq || op == .notEq) = true then _
      else _)
  split
  · exact monotone_agree hS _ hl hr hS.bool
  · split
    · exact monotone_agree hS _ hl' hr' hS.bool
    · have h := monotone_expect hS (.expr l) hl' hS.int
        (monotone_expect hS (.expr r) hr' hS.int (.pure (TyRel.refl hS.bool)))
      exact h.congr fun z => by simp

theorem monotone_blockExpr_call (f args n) : MonotoneExpr c S (.call f args n) := by
  rw [MonotoneExpr, exprLeaves]
  rcases blockExpr_call hc f args n with ⟨rfl, h⟩ | ⟨a, rfl, h⟩ | ⟨e, h⟩ <;> rw [h]
  · exact .pure (.refl hS.int)
  · have hlen := (monotone_blockAtom hS a).bind fun _ _ hs => monotone_lengthType hS hs
    exact hlen.congr fun z => by simp [exprsLeaves]
  · exact .throw _ _

theorem monotone_blockExpr_subscript (b i access n) :
    MonotoneExpr c S (.subscript b i access n) := by
  cases access with
  | load =>
    change Monotone S _ _ (if c.hasArrays = true then _ else _)
      (if c.hasArrays = true then _ else _)
    rw [hc, if_neg Bool.false_ne_true]
    cases i with
    | const k m =>
      refine .given fun _ => ?_
      have hpart := (monotone_blockAtom hS b).bind fun _ _ hs => monotone_partType hS k hs
      exact hpart.congr fun z => by simp [exprLeaves, variablesOf, varName?]
    | _ => exact .throw _ _
  | _ => exact .throw _ _

end

/-! ## Statements -/

theorem fails_of_stop {α β : Type} {x : Check α} {g : Fault} (env : TypeTable)
    (r : β × TypeTable) : (x >>= fun _ => stop g).run env ≠ .ok r := by
  intro h
  obtain ⟨a, mid, -, hstop⟩ := bind_ok h
  cases hstop

theorem blockStmt_expr (c e n) :
    (∃ f a m, e = .call f [a] m ∧ blockStmt c (.expr e n) = (do
      let t ← blockExpr c a
      equal c t .int (.stmt (.expr e n)))) ∨
    blockStmt c (.expr e n) = (do let _ ← blockExpr c e) := by
  generalize hr : blockStmt c (.expr e n) = r
  rw [blockStmt.eq_def] at hr
  dsimp only at hr
  split at hr
  case h_5 heq =>
    cases heq
    exact .inl ⟨_, _, _, rfl, hr.symm⟩
  case h_6 heq =>
    cases heq
    exact .inr hr.symm
  case h_8 _ hexpr _ => exact absurd rfl (hexpr e n)
  all_goals contradiction

/-- Something else than a variable or a part of a tuple is assigned to only if it is not known what
it is. -/
theorem blockStmt_assign_other (hc : c.hasArrays = false) (target e n)
    (hname : ∀ x m, target ≠ .name x m) (hpart : ∀ b i m, target ≠ .subscript b i .store m) :
    (∃ t, target = .other t ∧ blockStmt c (.assign [target] e n) = (do let _ ← blockExpr c e)) ∨
    ∃ f, blockStmt c (.assign [target] e n) = (blockExpr c e >>= fun _ => stop f) := by
  generalize hr : blockStmt c (.assign [target] e n) = r
  rw [blockStmt.eq_def] at hr
  split at hr
  case h_1 heq =>
    cases heq
    exact absurd rfl (hpart _ _ _)
  case h_2 heq =>
    cases heq
    rw [(lacks_of_noArrays hc).2.2.2, if_neg Bool.false_ne_true] at hr
    exact .inr ⟨_, hr.symm⟩
  case h_3 heq =>
    cases heq
    exact absurd rfl (hname _ _)
  case h_4 heq =>
    cases heq
    split at hr
    · split at hr
      · split at hr
        · exact .inl ⟨_, rfl, hr.symm⟩
        · exact .inr ⟨_, hr.symm⟩
      · exact .inr ⟨_, hr.symm⟩
    · exact .inr ⟨_, hr.symm⟩
  case h_8 hassign _ _ _ => exact absurd rfl (hassign target e n)
  all_goals contradiction

theorem blockStmt_assign_several (c target second e rest n) :
    blockStmt c (.assign (target :: second :: rest) e n) = refuse (.unexpected
      "error in type_check_stmt, unexpected "
      (.stmt (.assign (target :: second :: rest) e n))) := by
  unfold blockStmt
  split
  case h_8 => rfl
  all_goals next heq => cases heq

/-- What is stored in a part of a tuple, by the types of the tuple and of what is stored. -/
def storeType (c : TypeSystem) (k : Value) (place : Culprit) (u : Ty) : Ty → Check Unit
  | .tuple ts _ => do
    let t ← typeAtValue ts k
    equal c t u place
  | .bottom => pure ()
  | t => refuse (.unusable "type_check_stmt: expected a tuple, not " t)

theorem storeType_ok (h : (storeType c k place u s).run m = .ok (b, m')) : m' = m := by
  cases s with
  | tuple ts b =>
    obtain ⟨t, mid, ht, hequal⟩ := bind_ok h
    obtain ⟨-, rfl⟩ := lift_ok hequal
    rcases typeAtValue_cases ts k with ⟨t, -, h⟩ | ⟨e, h⟩
    · rw [h] at ht
      cases ht
      rfl
    · rw [h] at ht
      cases ht
  | bottom =>
    cases h
    rfl
  | _ => cases h

section

variable {S : Ty → Prop} (hS : Apart c S)
include hS

theorem monotone_storeType (k place) {u u'} (hs : TyRel S s s') (hu : TyRel S u u') :
    Monotone S [] Anything (storeType c k place u s) (storeType c k place u' s') := by
  rcases hs.below with rfl | rfl
  · exact .skip trivial fun _ hrun => ⟨storeType_ok hrun, trivial⟩
  · cases s with
    | tuple ts b =>
      change Monotone S [] Anything (typeAtValue ts k >>= _) (typeAtValue ts k >>= _)
      rcases typeAtValue_cases ts k with ⟨t, ht, h⟩ | ⟨e, h⟩ <;> rw [h]
      · exact monotone_equal hS place (.refl (hS.parts hs.left t ht)) hu
      · exact .throw _ _
    | bottom => exact .pure trivial
    | _ => exact .throw _ _

variable (hc : c.hasArrays = false)
include hc

theorem monotone_blockStmt_store (i e m n) (hb : MonotoneExpr c S b) :
    Monotone S (variablesOf (stmtLeaves (.assign [.subscript b i .store m] e n))) Anything
      (blockStmt c (.assign [.subscript b i .store m] e n))
      (blockStmt c (.assign [.subscript b i .store m] e n)) := by
  change Monotone S _ _ (if c.hasArrays = true then _ else _) (if c.hasArrays = true then _ else _)
  rw [hc, if_neg Bool.false_ne_true]
  cases htup : c.hasTuples with
  | false => exact .never fun env r => fails_of_stop env r
  | true =>
    cases i with
    | const k l =>
      have hstore := hb.bind fun _ _ ht => (monotone_blockAtom hS e).bind fun _ _ hu =>
        monotone_storeType hS k (.stmt (.assign [.subscript b (.const k l) .store m] e n)) ht hu
      refine hstore.congr fun z => ?_
      simp [stmtLeaves, exprsLeaves, exprLeaves, variablesOf, varName?, or_comm]
    | _ => exact .never fun env r => fails_of_stop env r

theorem monotone_blockStmt_assign (targets n) (he : MonotoneExpr c S e)
    (htargets : ∀ b i m, targets = [.subscript b i .store m] → MonotoneExpr c S b) :
    Monotone S (variablesOf (stmtLeaves (.assign targets e n))) Anything
      (blockStmt c (.assign targets e n)) (blockStmt c (.assign targets e n)) := by
  rcases targets with _ | ⟨target, _ | ⟨_, _⟩⟩
  case cons.nil =>
    by_cases hname : ∃ x m, target = .name x m
    · obtain ⟨x, m, rfl⟩ := hname
      exact (he.bind fun _ _ ht => monotone_assign hS x _ ht).congr fun z => by
        simp [stmtLeaves, exprsLeaves, exprLeaves, variablesOf, varName?]
    · by_cases hpart : ∃ b i m, target = .subscript b i .store m
      · obtain ⟨b, i, m, rfl⟩ := hpart
        exact monotone_blockStmt_store hS hc i e m n (htargets b i m rfl)
      · rcases blockStmt_assign_other hc target e n (fun x m h => hname ⟨x, m, h⟩)
          (fun b i m h => hpart ⟨b, i, m, h⟩) with ⟨t, rfl, h⟩ | ⟨f, h⟩ <;> rw [h]
        · refine (he.bind fun _ _ _ => Monotone.pure trivial).congr fun z => ?_
          simp [stmtLeaves, exprsLeaves, exprLeaves, variablesOf, varName?]
        · exact .never fun env r => fails_of_stop env r
  case nil => exact .throw _ _
  case cons.cons second rest =>
    rw [blockStmt_assign_several]
    exact .throw _ _

end

section

variable {S : Ty → Prop}

mutual

theorem monotone_blockExpr (hS : Apart c S) (hc : c.hasArrays = false) (e)
    (he : Allocates c S (exprLeaves e)) : MonotoneExpr c S e := by
  cases e with
  | name x n => exact monotone_blockAtom hS (.name x n)
  | const k n =>
    cases k with
    | none =>
      change Monotone S _ _ (if c.hasFunctions = true then _ else _)
        (if c.hasFunctions = true then _ else _)
      rw [(lacks_of_noArrays hc).1, if_neg Bool.false_ne_true]
      exact monotone_blockAtom hS _
    | _ => exact monotone_blockAtom hS _
  | arith l op r n => exact monotone_blockExpr_arith hS hc l op r n
  | unary op a n =>
    cases op with
    | neg =>
      have h (place : Culprit) := monotone_expect hS place (monotone_blockAtom hS a) hS.int
        (.pure (TyRel.refl hS.int))
      exact (h _).congr fun z => by simp [exprLeaves]
    | not =>
      have h (place : Culprit) := monotone_expect hS place (monotone_blockExpr hS hc a he) hS.bool
        (.pure (TyRel.refl hS.bool))
      exact (h _).congr fun z => by simp [exprLeaves]
    | _ => exact .throw _ _
  | compare l ops rs n =>
    have hrs : ∀ r ∈ rs, Allocates c S (exprLeaves r) → MonotoneExpr c S r :=
      fun r _ h => monotone_blockExpr hS hc r h
    rcases ops with _ | ⟨op, _ | ⟨_, _⟩⟩ <;> rcases rs with _ | ⟨r, _ | ⟨_, _⟩⟩
    case cons.nil.cons.nil =>
      simp only [exprLeaves, exprsLeaves, append_nil, allocates_append] at he
      have hl := monotone_blockExpr hS hc l he.1
      have hr := hrs r (.head _) he.2
      rw [MonotoneExpr, exprLeaves, exprsLeaves, exprsLeaves, append_nil, variablesOf_append]
      exact monotone_blockExpr_compare hS op n hl hr
    all_goals exact .throw _ _
  | block ss r n =>
    rw [exprLeaves, allocates_append] at he
    have hss := monotone_blockStmts hS hc ss he.1
    have hr := monotone_blockExpr hS hc r he.2
    exact (hss.bind fun _ _ _ => hr).congr fun z => by simp [exprLeaves]
  | allocate l t n =>
    refine .given fun htup => .pure (.refl (he htup t ?_))
    simp [exprLeaves, typesOf, allocation?]
  | subscript b i access n => exact monotone_blockExpr_subscript hS hc b i access n
  | call f args n => exact monotone_blockExpr_call hS hc f args n
  | other t =>
    rcases blockExpr_other hc t with h | ⟨e, h⟩ <;> rw [MonotoneExpr, h]
    · exact monotone_blockAtom hS (.other t)
    · exact .throw _ _
  -- the other rules are of type systems with more features
  | allocateArray _ _ _ => exact .lacks hc
  | funRef _ _ _ => exact .lacks (lacks_of_noArrays hc).1
  | allocateClosure _ _ _ _ | uninitialized _ _ | uncheckedCast _ _ _ =>
    exact .lacks (lacks_of_noArrays hc).2.1
  | valueOf _ _ _ | tagOf _ _ => exact .lacks (lacks_of_noArrays hc).2.2.1
  | injectTuple _ _ | injectTupleProxy _ _ _ | injectList _ _ | injectListProxy _ _ _ =>
    exact .lacks (lacks_of_noArrays hc).2.2.2
  | _ => exact .throw _ _
termination_by sizeOf e

theorem monotone_blockStmt (hS : Apart c S) (hc : c.hasArrays = false) (s)
    (hs : Allocates c S (stmtLeaves s)) :
    Monotone S (variablesOf (stmtLeaves s)) Anything (blockStmt c s) (blockStmt c s) := by
  cases s with
  | assign targets e n =>
    rw [stmtLeaves, allocates_append] at hs
    have he := monotone_blockExpr hS hc e hs.1
    have htargets : ∀ b i m, targets = [.subscript b i .store m] → MonotoneExpr c S b := by
      rintro b i m rfl
      simp only [exprsLeaves, exprLeaves, allocates_append] at hs
      exact monotone_blockExpr hS hc b hs.2.1.1
    exact monotone_blockStmt_assign hS hc targets n he htargets
  | expr e n =>
    have he := monotone_blockExpr hS hc e hs
    rcases blockStmt_expr c e n with ⟨f, a, m, rfl, h⟩ | h <;> rw [h]
    · simp only [stmtLeaves, exprLeaves, exprsLeaves, append_nil] at hs
      have ha := monotone_blockExpr hS hc a hs
      refine (ha.bind fun _ _ ht => monotone_equal hS _ ht (.refl hS.int)).congr fun z => ?_
      simp [stmtLeaves, exprLeaves, exprsLeaves]
    · refine (he.bind fun _ _ _ => Monotone.pure trivial).congr fun z => ?_
      simp [stmtLeaves]
  | collect k n => exact .given fun _ => .pure trivial
  | _ => exact .throw _ _
termination_by sizeOf s

theorem monotone_blockStmts (hS : Apart c S) (hc : c.hasArrays = false) (ss)
    (hss : Allocates c S (stmtsLeaves ss)) :
    Monotone S (variablesOf (stmtsLeaves ss)) Anything (blockStmts c ss) (blockStmts c ss) := by
  cases ss with
  | nil => exact .pure trivial
  | cons s ss =>
    rw [stmtsLeaves, allocates_append] at hss
    have hs := monotone_blockStmt hS hc s hss.1
    have hrest := monotone_blockStmts hS hc ss hss.2
    rw [stmtsLeaves, variablesOf_append]
    exact hs.bind fun _ _ _ => hrest
termination_by sizeOf ss

end

/-! ## Passes -/

theorem blockTail_cases (hc : c.hasArrays = false) (s) :
    (∃ l op r m yes no n, s = .ite (.compare l [op] [r] m) [yes] [no] n ∧
      blockTail c s = (do
        let t ← blockAtom c l
        let u ← blockAtom c r
        equal c t u (.stmt s)
        pure .absent)) ∨
    (∃ e n, s = .ret e n ∧ blockTail c s = (do let _ ← blockExpr c e; pure .absent)) ∨
    (isJump s ∧ blockTail c s = pure .absent) ∨ ∃ e, blockTail c s = throw e := by
  have hfun := (lacks_of_noArrays hc).1
  unfold blockTail
  split
  · split
    · exact .inl ⟨_, _, _, _, _, _, _, rfl, rfl⟩
    · exact .inr (.inr (.inr ⟨_, rfl⟩))
  · rw [hfun]
    exact .inr (.inl ⟨_, _, rfl, rfl⟩)
  · rw [hfun]
    exact .inr (.inr (.inr ⟨_, rfl⟩))
  · split
    · next h => exact .inr (.inr (.inl ⟨h, rfl⟩))
    · exact .inr (.inr (.inr ⟨_, rfl⟩))

theorem stmtLeaves_jump {s} (h : isJump s) : stmtLeaves s = [] := by
  cases s with
  | goto | other => rfl
  | _ => cases h

/-- The statements of a block but for the last one. -/
def body : Block → List Stmt
  | .mk _ code => code.dropLast

/-- The statements that are not the last of their block. -/
def bodies (bs : List Block) : List Stmt := bs.flatMap body

theorem bodies_cons (b bs) : bodies (b :: bs) = body b ++ bodies bs := flatMap_cons

/-- The last statement of the last block. -/
def ending? (bs : List Block) : Option Stmt := bs.getLast?.bind fun | .mk _ code => code.getLast?

/-- Check the last statement of the last block. -/
def checkEnding (c : TypeSystem) (bs : List Block) : Check Unit :=
  match ending? bs with
  | some s => do let _ ← blockTail c s
  | none => stop (if bs.isEmpty then .unsetName else .outOfRange)

theorem blockStmts_append (c ss ss') :
    blockStmts c (ss ++ ss') = (do blockStmts c ss; blockStmts c ss') := by
  induction ss with
  | nil => rw [nil_append, blockStmts, pure_bind]
  | cons s ss ih => rw [cons_append, blockStmts, blockStmts, ih, bind_assoc]

theorem checkEnding_cons (c b) (h : bs ≠ []) : checkEnding c (b :: bs) = checkEnding c bs := by
  obtain ⟨b', bs', rfl⟩ := exists_cons_of_ne_nil h
  rfl

theorem checkEnding_concat (c bs b) : checkEnding c (bs ++ [b]) = checkEnding c [b] := by
  simp [checkEnding, ending?]

/-- A pass is one check of all the statements that it comes to. -/
theorem blocksPass_eq (c bs) :
    blocksPass c bs = (do blockStmts c (bodies bs); checkEnding c bs) := by
  induction bs using blocksPass.induct with
  | case1 => rfl
  | case2 l code =>
    rw [blocksPass, bodies, flatMap_singleton]
    cases hlast : code.getLast? <;> simp [checkEnding, ending?, body, hlast]
  | case3 l code rest hrest ih =>
    rw [blocksPass, ih, checkEnding_cons c _ hrest, bodies_cons, blockStmts_append, bind_assoc]
    · rfl
    · exact hrest

/-- The parts of expressions that a pass over blocks comes to. -/
def passLeaves (bs : List Block) : List Expr := stmtsLeaves (bodies bs ++ (ending? bs).toList)

theorem stmtsLeaves_append (ss ss') :
    stmtsLeaves (ss ++ ss') = stmtsLeaves ss ++ stmtsLeaves ss' := by
  induction ss with
  | nil => rw [nil_append, stmtsLeaves, nil_append]
  | cons s ss ih => rw [cons_append, stmtsLeaves, stmtsLeaves, ih, append_assoc]

variable (hS : Apart c S) (hc : c.hasArrays = false)
include hS hc

theorem monotone_blockTail (s) (hs : Allocates c S (stmtLeaves s)) :
    Monotone S (variablesOf (stmtLeaves s)) Anything (blockTail c s) (blockTail c s) := by
  rcases blockTail_cases hc s with
    ⟨l, op, r, m, yes, no, n, rfl, h⟩ | ⟨e, n, rfl, h⟩ | ⟨hjump, h⟩ | ⟨e, h⟩ <;> rw [h]
  · have hboth := (monotone_blockAtom hS l).bind fun _ _ ht => (monotone_blockAtom hS r).bind
      fun _ _ hu =>
        (monotone_equal hS (.stmt (.ite (.compare l [op] [r] m) [yes] [no] n)) ht hu).bind
      fun _ _ _ => Monotone.pure (R := Anything) (a := Ty.absent) trivial
    exact hboth.congr fun z => by simp [stmtLeaves, exprLeaves, exprsLeaves]
  · have he := (monotone_blockExpr hS hc e hs).bind fun _ _ _ =>
      Monotone.pure (R := Anything) (a := Ty.absent) trivial
    exact he.congr fun z => by simp [stmtLeaves]
  · rw [stmtLeaves_jump hjump]
    exact .pure trivial
  · exact .throw _ _

theorem monotone_checkEnding (bs) (hbs : Allocates c S (stmtsLeaves (ending? bs).toList)) :
    Monotone S (variablesOf (stmtsLeaves (ending? bs).toList)) Anything (checkEnding c bs)
      (checkEnding c bs) := by
  rw [checkEnding]
  cases hend : ending? bs with
  | none => exact .throw _ _
  | some s =>
    rw [hend] at hbs
    simp only [Option.toList_some, stmtsLeaves, append_nil] at hbs ⊢
    have htail := (monotone_blockTail hS hc s hbs).bind fun _ _ _ =>
      Monotone.pure (R := Anything) (a := ()) trivial
    exact htail.congr fun z => by simp

theorem monotone_blocksPass (bs) (hbs : Allocates c S (passLeaves bs)) :
    Monotone S (variablesOf (passLeaves bs)) Anything (blocksPass c bs) (blocksPass c bs) := by
  rw [passLeaves, stmtsLeaves_append] at hbs ⊢
  rw [allocates_append] at hbs
  have hbodies := monotone_blockStmts hS hc (bodies bs) hbs.1
  have hend := monotone_checkEnding hS hc bs hbs.2
  rw [variablesOf_append, blocksPass_eq]
  exact hbodies.bind fun _ _ _ => hend

end

end CompilerKit.Blocks
