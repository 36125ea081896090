import CompilerKit.Proofs.Calls

/-!
# Tagged values

A value of the dynamic language carries a tag that says what it is. Three values have none: a
disjunction whose left side holds gives a bare truth value, and a call gives a bare number if it
comes to the end of its statements, and nothing at all if it has gone through a loop. Nothing else
is in a variable, in a tuple or the value of an expression, at any time in any run; and without
disjunctions, and with functions that return and do not loop, all of it is tagged.

* `Ensures`: a computation from a tagged store leaves a tagged store behind.
* `ensures_evalExpr`, `ensures_evalStmt`: the rules, with a case for each form; `taggedAt`: all of
  them, by induction on the fuel.
-/

namespace CompilerKit.Tagging

open Run List Bindings Array
open Bool (and_eq_true and_eq_true_iff)

variable (strict : Bool)
variable {v : Value} {ss : List Stmt} {e : Expr}

/-! ## Programs of the dynamic language -/

/-- Names that can be called: what is in the language, and functions. -/
def isCall (f : String) : Bool := ["input_int", "len", "print"].contains f || !builtins.contains f

mutual

/-- Expressions; the strict ones have no disjunctions. -/
def isExpr : Expr → Bool
  | .name _ _ | .const (.int _ _) _ | .const (.bool _) _ | .const .none _ => true
  | .arith a _ b _ | .logic .and [a, b] _ | .compare a [_] [b] _ | .subscript a b .load _ =>
    isExpr a && isExpr b
  | .logic .or [a, b] _ => !strict && isExpr a && isExpr b
  | .unary _ a _ | .lambda _ a _ => isExpr a
  | .cond a b c _ => isExpr a && isExpr b && isExpr c
  | .tuple es .load _ => isExprs es
  | .call (.name f _) es _ => isCall f && isExprs es
  | .call f es _ => isExpr f && isExprs es
  | _ => false

def isExprs : List Expr → Bool
  | [] => true
  | e :: es => isExpr e && isExprs es

end

mutual

/-- The statement leads to a return through no loop, if what follows it does. -/
def returns : Stmt → Bool → Bool
  | .ret _ _, _ => true
  | .loop _ _ _ _, _ => false
  | .ite _ yes no _, after => returnsAll yes after && returnsAll no after
  | _, after => after

def returnsAll : List Stmt → Bool → Bool
  | [], after => after
  | s :: ss, after => returns s (returnsAll ss after)

end

mutual

/-- Statements; in the strict ones all functions lead to a return through no loop. -/
def isStmt : Stmt → Bool
  | .expr e _ | .assign [.name _ _] e _ | .ret e _ => isExpr strict e
  | .assign [.subscript b i _ _] e _ => isExpr strict b && isExpr strict i && isExpr strict e
  | .ite e yes no _ => isExpr strict e && isStmts yes && isStmts no
  | .loop e body [] _ => isExpr strict e && isStmts body
  | .fundef _ _ (.stmts ss) _ _ _ _ => isStmts ss && (!strict || returnsAll ss false)
  | _ => false

def isStmts : List Stmt → Bool
  | [] => true
  | s :: ss => isStmt s && isStmts ss

end

/-! ## Values and stores -/

inductive Tag where
  | int | bool | none | tuple | function

def Tag.text : Tag → String
  | int => "int" | bool => "bool" | none => "none" | tuple => "tuple" | function => "function"

variable {t : Tag}

theorem Tag.text_inj (h : s.text = t.text) : s = t := by
  cases s <;> cases t <;> first | rfl | simp [text] at h

/-- What a tag is put on. -/
inductive Payload : Tag → Value → Prop where
  | int (i id) : Payload .int (.int i id)
  | bool (b) : Payload .bool (.bool b)
  | none : Payload .none .none
  | tuple (p : Nat) : Payload .tuple (.seq p)
  | function {ss : List Stmt} (hss : isStmts strict ss)
      (hret : strict → returnsAll ss false) (f ps env id) :
      Payload .function (.function f ps (.stmts ss) env id)

/-- The values: strictly, those with the tag of what it is on, and otherwise three more. -/
inductive Given : Value → Prop where
  | tagged {t : Tag} {p : Value} (h : Payload strict t p) (id : Nat) :
      Given (.tagged p (sharedText t.text) id)
  | true (h : strict = false) : Given (.bool true)
  | zero (h : strict = false) : Given (.int 0 sharedId)
  | none (h : strict = false) : Given .none

structure Holds (σ : Store) : Prop where
  cells : ∀ s ∈ σ.heap, ∀ v ∈ s.cells, Given strict v
  envs : ∀ env ∈ σ.envs, ∀ b ∈ env, Given strict b.2

/-- A run ends in such a store, and if it has a result, `P` is true of it. -/
inductive Ends {α : Type} (P : α → Prop) : Result α → Prop where
  | ok (ha : P a) (hσ : Holds strict σ) : Ends P (.ok a σ)
  | error {e : RunError} {σ : Store} (hσ : Holds strict σ) : Ends P (.error e σ)

def Ensures {α : Type} (x : Run α) (P : α → Prop) : Prop :=
  ∀ ⦃σ⦄, Holds strict σ → Ends strict P (x.run σ)

variable {strict} {α β : Type} {P : α → Prop} {Q : β → Prop} {x : Run α}

namespace Ensures

theorem pure (ha : P a) : Ensures strict (Pure.pure a) P := fun _ hσ => .ok ha hσ

theorem throw (e) : Ensures strict (throw e) P := fun _ hσ => .error hσ

theorem bind {f : α → Run β} (hx : Ensures strict x P) (hf : ∀ a, P a → Ensures strict (f a) Q) :
    Ensures strict (x >>= f) Q := by
  intro σ hσ
  have h := hx hσ
  rw [EStateM.run_bind]
  generalize x.run σ = r at h
  cases h with
  | ok ha hτ => exact hf _ ha hτ
  | error hτ => exact .error hτ

theorem ite {c : Prop} [Decidable c] (hx : Ensures strict x P) (hy : Ensures strict y P) :
    Ensures strict (if c then x else y) P := by
  split
  · exact hx
  · exact hy

theorem ofExcept {x : Except Fault α} (hx : ∀ a, x = .ok a → P a) :
    Ensures strict (ofExcept x) P := by
  cases x with
  | ok a => exact pure (hx a rfl)
  | error f => exact throw _

theorem mono {P' : α → Prop} (hx : Ensures strict x P) (h : ∀ a, P a → P' a) :
    Ensures strict x P' := by
  rw [← bind_pure x]
  exact hx.bind fun a ha => pure (h a ha)

theorem withHeap (f : Heap → α) :
    Ensures strict (withHeap f) fun a => ∃ σ, Holds strict σ ∧ a = f σ.heap :=
  fun σ hσ => .ok ⟨σ, hσ, rfl⟩ hσ

theorem newId : Ensures strict newId fun _ => True := fun _ hσ => .ok trivial ⟨hσ.cells, hσ.envs⟩

theorem number (i) : Ensures strict (number i) (Payload strict .int) :=
  newId.bind fun id _ => pure (.int i id)

theorem newTagged (h : Payload strict t p) :
    Ensures strict (newTagged p (sharedText t.text)) (Given strict) :=
  newId.bind fun id _ => pure (.tagged h id)

theorem tagValue (h : Payload strict t p) : Ensures strict (tagValue p) (Given strict) := by
  have hnew := newTagged h
  cases h with
  | tuple p => exact (withHeap _).bind fun _ _ => ite hnew (throw _)
  | _ => exact hnew

theorem untag (hv : Given strict v) (t) : Ensures strict (untag t.text v) (Payload strict t) := by
  cases hv with
  | @tagged s p h id =>
    refine (withHeap _).bind fun b ⟨σ, _, hb⟩ => ?_
    split
    · next hst =>
      obtain rfl := Tag.text_inj (eq_of_beq (hb.symm.trans hst))
      exact pure h
    · exact throw _
  | _ => exact throw _

theorem arithTagged {x y} (hx : Given strict x) (hy : Given strict y) (op) :
    Ensures strict (arithTagged op x y) (Given strict) := by
  refine (untag hx .int).bind fun a _ => (untag hy .int).bind fun b _ => ?_
  exact (ofExcept fun _ _ => trivial).bind fun i _ => (number i).bind fun _ hv => tagValue hv

theorem compareValues (op a b) : Ensures strict (compareValues .dynamic op a b) fun _ => True := by
  cases op with
  | eq | notEq | same => exact fun _ hσ => .ok trivial hσ
  | lt | le | gt | ge => exact (withHeap _).bind fun _ _ => ofExcept fun _ _ => trivial
  | notSame | mem | notMem => exact throw _

theorem compareTagged (op a b) :
    Ensures strict (CompilerKit.compareTagged a b (CompilerKit.compareValues .dynamic op))
      (Given strict) := by
  unfold CompilerKit.compareTagged
  split
  · refine (withHeap _).bind fun _ _ => ite ?_ (throw _)
    exact (compareValues op _ _).bind fun c _ => tagValue (.bool c)
  · exact throw _

theorem readInt : Ensures strict readInt (Payload strict .int) := by
  intro σ hσ
  rw [Run.readInt, EStateM.run_bind, EStateM.run_get]
  dsimp only
  rcases σ.console.readInt with ⟨f | n, console⟩
  · exact .error ⟨hσ.cells, hσ.envs⟩
  · have hset : Holds strict { σ with console } := ⟨hσ.cells, hσ.envs⟩
    exact ite (pure (.int _ sharedId)) (number _) hset

theorem plainItem (p n) : Ensures strict (plainItem (.seq p) n) (Given strict) := by
  refine (withHeap _).bind fun r ⟨σ, hσ, hr⟩ => ofExcept fun v hv => ?_
  have h := hr.symm.trans hv
  rw [Value.item] at h
  split at h
  · next s hs =>
    rw [Value.itemOf] at h
    split at h
    · cases h
    · obtain ⟨q, -, hq⟩ := ok_of_bind h
      split at hq
      · next hc =>
        cases hq
        exact hσ.cells s (mem_of_getElem? hs) v (mem_of_getElem? hc)
      · cases hq
  · cases h

theorem plainSetItem (hv : Given strict v) (p n) :
    Ensures strict (plainSetItem (.seq p) n v) fun _ => True := by
  refine (withHeap _).bind fun r ⟨σ, hσ, hr⟩ => ?_
  refine (ofExcept (P := fun h => ∀ s ∈ h, ∀ v ∈ s.cells, Given strict v) fun heap hheap => ?_).bind
    fun heap hheap τ hτ => .ok trivial ⟨hheap, hτ.envs⟩
  have h := hr.symm.trans hheap
  rw [Value.setItem] at h
  split at h
  · next s hs =>
    split at h
    · split at h
      · cases h
      · obtain ⟨q, -, hq⟩ := ok_of_bind h
        cases hq
        intro t ht
        rcases mem_or_eq_of_mem_setIfInBounds (by simpa using ht) with ht | rfl
        · exact hσ.cells t ht
        · intro w hw
          rcases mem_or_eq_of_mem_setIfInBounds (by simpa using hw) with hw | rfl
          · exact hσ.cells s (mem_of_getElem? hs) w hw
          · exact hv
    · cases h
  · cases h

theorem newList (h : ∀ v ∈ vs, Given strict v) :
    Ensures strict (newList vs) (Payload strict .tuple) := by
  intro σ hσ
  refine .ok (.tuple σ.heap.size) ⟨fun s hs => ?_, hσ.envs⟩
  rcases mem_push.mp hs with hs | rfl
  · exact hσ.cells s hs
  · simpa using h

theorem envAt (f i) : Ensures strict (envAt f i) fun env => ∀ b ∈ env, Given strict b.2 := by
  intro σ hσ
  rw [Run.envAt, EStateM.run_bind, EStateM.run_get]
  dsimp only
  split
  · next henv => exact .ok (hσ.envs _ (mem_of_getElem? henv)) hσ
  · exact .error hσ

theorem lookup (i x) : Ensures strict (lookup i x) (Given strict) := by
  refine (envAt _ i).bind fun env henv => ?_
  split
  · next hx => exact pure (henv _ (mem_of_get? hx))
  · exact throw _

theorem assign (hv : Given strict v) (i x) : Ensures strict (assign i x v) fun _ => True := by
  refine (envAt _ i).bind fun env henv σ hσ => .ok trivial ⟨hσ.cells, fun e he => ?_⟩
  rcases mem_or_eq_of_mem_setIfInBounds (by simpa using he) with he | rfl
  · exact hσ.envs e he
  · exact forall_put henv hv

theorem newEnv (henv : ∀ b ∈ env, Given strict b.2) :
    Ensures strict (newEnv env) fun _ => True := by
  refine fun σ hσ => .ok trivial ⟨hσ.cells, fun e he => ?_⟩
  rcases mem_push.mp he with he | rfl
  · exact hσ.envs e he
  · exact henv

theorem enter (hvs : ∀ v ∈ vs, Given strict v) (i ps) :
    Ensures strict (CompilerKit.enter i ps vs) fun _ => True := by
  refine (envAt _ i).bind fun env henv => ?_
  have hnew {bound : Env} (h : ∀ e ∈ bound, e.2 ∈ vs) :
      Ensures strict (Run.newEnv (putAll env bound)) fun _ => True :=
    newEnv (forall_putAll henv fun e he => hvs _ (h e he))
  split
  · exact hnew fun e he => (of_mem_zip he).2
  · refine (ofExcept fun bound h => ?_).bind fun bound h => hnew h
    obtain ⟨ks, -, h⟩ := ok_of_bind h
    exact bindKeys_mem h

theorem newFunction (hss : isStmts strict ss)
    (hret : strict → returnsAll ss false) (f ps i) :
    Ensures strict (newFunction f ps (.stmts ss) i) (Payload strict .function) :=
  newId.bind fun id _ => pure (.function hss hret f ps i id)

theorem print (v) : Ensures strict (print v) fun _ => True := by
  refine (withHeap _).bind fun r _ => ?_
  split
  · exact fun _ hσ => .ok trivial ⟨hσ.cells, hσ.envs⟩
  · exact throw _

end Ensures

/-! ## Evaluation -/

/-- What comes out of statements that lead to a return. -/
def Returned (strict : Bool) (ss : List Stmt) (v : Value) : Prop :=
  (strict = true → returnsAll ss false = true) → Given strict v

theorem not_strict (h : strict → false) : strict = false :=
  Bool.eq_false_iff.mpr fun hstrict => Bool.false_ne_true (h hstrict)

theorem isStmts_append (hss : isStmts strict ss) (hts : isStmts strict ts) :
    isStmts strict (ss ++ ts) := by
  induction ss with
  | nil => exact hts
  | cons s ss ih =>
    rw [isStmts, and_eq_true] at hss
    exact and_eq_true_iff.mpr ⟨hss.1, ih hss.2⟩

theorem returnsAll_append (ss ts) :
    returnsAll (ss ++ ts) false = returnsAll ss (returnsAll ts false) := by
  induction ss with
  | nil => rfl
  | cons s ss ih => exact congrArg (returns s) ih

structure TaggedAt (strict : Bool) (n : Nat) : Prop where
  expr {i : Nat} {e : Expr} (he : isExpr strict e) :
    Ensures strict (evalExpr .dynamic n i e) (Given strict)
  logic {i : Nat} {op : LogicOp} {a b : Expr} (h : isExpr strict (.logic op [a, b] {})) :
    Ensures strict (evalLogic .dynamic n i op a b) (Given strict)
  call {i : Nat} {e : Expr} {f : String} {es : List Expr} (hf : isCall f)
    (hes : isExprs strict es) :
    Ensures strict (evalCall .dynamic n i e f es) (Given strict)
  apply {f : Value} {vs : List Value} (hf : Given strict f) (hvs : ∀ v ∈ vs, Given strict v) :
    Ensures strict (applyValue .dynamic n f vs) (Given strict)
  stmt {i : Nat} {s : Stmt} {ss : List Stmt} (hss : isStmts strict (s :: ss)) :
    Ensures strict (evalStmt .dynamic n i s ss) (Returned strict (s :: ss))
  stmts {i : Nat} {ss : List Stmt} (hss : isStmts strict ss) :
    Ensures strict (evalStmts .dynamic n i ss) (Returned strict ss)

section

variable {n i : Nat} (hn : TaggedAt strict n)
include hn

theorem ensures_exprs (hes : isExprs strict es) :
    Ensures strict (es.mapM (evalExpr .dynamic n i)) fun vs => ∀ v ∈ vs, Given strict v := by
  induction es with
  | nil => exact .pure (forall_mem_nil _)
  | cons e es ih =>
    rw [isExprs, and_eq_true] at hes
    rw [mapM_cons]
    refine (hn.expr hes.1).bind fun v hv => (ih hes.2).bind fun vs hvs => ?_
    exact .pure (forall_mem_cons.mpr ⟨hv, hvs⟩)

theorem ensures_operand (he : isExpr strict e) (t) {f : Value → Run α}
    (hf : ∀ p, Payload strict t p → Ensures strict (f p) P) :
    Ensures strict (evalExpr .dynamic n i e >>= fun v => untag t.text v >>= f) P :=
  (hn.expr he).bind fun _ hv => (Ensures.untag hv t).bind hf

theorem ensures_evalExpr (he : isExpr strict e) :
    Ensures strict (evalExpr .dynamic (n + 1) i e) (Given strict) := by
  unfold isExpr at he
  split at he
  case h_1 x _ => exact .lookup i x
  case h_2 j id _ => exact .tagValue (.int j id)
  case h_3 b _ => exact .tagValue (.bool b)
  case h_4 => exact .tagValue .none
  case h_5 a op b _ =>
    rw [and_eq_true] at he
    refine .ite ?_ (.throw _)
    exact (hn.expr he.1).bind fun x hx => (hn.expr he.2).bind fun y hy => .arithTagged hx hy op
  case h_6 => exact hn.logic he
  case h_7 a op b _ =>
    rw [and_eq_true] at he
    exact (hn.expr he.1).bind fun x _ => (hn.expr he.2).bind fun y _ => .compareTagged op x y
  case h_8 b j _ =>
    rw [and_eq_true] at he
    refine (hn.expr he.1).bind fun x hx => (hn.expr he.2).bind fun y hy => ?_
    refine (Ensures.untag hx .tuple).bind fun t ht => (Ensures.untag hy .int).bind fun m _ => ?_
    cases ht with
    | tuple p => exact .plainItem p m
  case h_9 => exact hn.logic he
  case h_10 op a _ =>
    cases op with
    | neg =>
      refine ensures_operand hn he .int fun p hp => ?_
      cases hp with
      | int j id => exact (Ensures.number (-j)).bind fun v hv => .tagValue hv
    | not =>
      refine ensures_operand hn he .bool fun p _ => ?_
      exact (Ensures.withHeap _).bind fun b _ => .tagValue (.bool b)
    | _ => exact .throw _
  case h_11 ps body _ =>
    have hss : isStmts strict [.ret body {}] := and_eq_true_iff.mpr ⟨he, rfl⟩
    exact (Ensures.newFunction hss (fun _ => rfl) "lambda" ps i).bind fun f hf => .tagValue hf
  case h_12 test a b _ =>
    rw [and_eq_true, and_eq_true] at he
    refine ensures_operand hn he.1.1 .bool fun p hp => ?_
    cases hp with
    | bool c =>
      cases c with
      | true => exact hn.expr he.1.2
      | false => exact hn.expr he.2
  case h_13 =>
    exact (ensures_exprs hn he).bind fun vs hvs =>
      (Ensures.newList hvs).bind fun t ht => .tagValue ht
  case h_14 =>
    rw [and_eq_true] at he
    exact hn.call he.1 he.2
  case h_15 f es k hname =>
    rw [and_eq_true] at he
    have heval : evalExpr .dynamic (n + 1) i (.call f es k) = (do
        let g ← evalExpr .dynamic n i f
        let vs ← es.mapM (evalExpr .dynamic n i)
        applyValue .dynamic n g vs) := by
      cases f <;> first | rfl | exact (hname _ _ rfl).elim
    rw [heval]
    exact (hn.expr he.1).bind fun g hg => (ensures_exprs hn he.2).bind fun vs hvs => hn.apply hg hvs
  case h_16 => cases he

theorem ensures_evalLogic (h : isExpr strict (.logic op [a, b] {})) :
    Ensures strict (evalLogic .dynamic (n + 1) i op a b) (Given strict) := by
  cases op with
  | and =>
    obtain ⟨ha, hb⟩ := and_eq_true_iff.mp h
    refine ensures_operand hn ha .bool fun p hp => ?_
    cases hp with
    | bool c =>
      cases c with
      | true => exact hn.expr hb
      | false => exact .tagValue (.bool false)
  | or =>
    obtain ⟨h, hb⟩ := and_eq_true_iff.mp h
    obtain ⟨hstrict, ha⟩ := and_eq_true_iff.mp h
    refine ensures_operand hn ha .bool fun p hp => ?_
    cases hp with
    | bool c =>
      cases c with
      | true => exact .pure (.true (Bool.not_eq_true' _ ▸ hstrict))
      | false => exact hn.expr hb

theorem ensures_evalCall (hf : isCall f) (hes : isExprs strict es) :
    Ensures strict (evalCall .dynamic (n + 1) i e f es) (Given strict) := by
  cases hbuiltin : builtins.contains f with
  | false =>
    rw [evalCall_of_not_builtin rfl rfl hbuiltin]
    refine (hn.expr rfl).bind fun g hg => (ensures_exprs hn hes).bind fun vs hvs => hn.apply hg hvs
  | true =>
    rw [isCall, hbuiltin, Bool.not_true, Bool.or_false, List.contains_iff_mem] at hf
    simp only [List.mem_cons, List.not_mem_nil, or_false] at hf
    rcases hf with rfl | rfl | rfl
    · cases es with
      | nil => exact Ensures.readInt.bind fun v hv => .tagValue hv
      | cons => exact .throw _
    · match es, hes with
      | [b], hes =>
        refine ensures_operand hn (and_eq_true_iff.mp hes).1 .tuple fun t _ => ?_
        refine ((Ensures.withHeap _).bind fun r _ => .ofExcept fun _ _ => trivial).bind
          fun m _ => ?_
        exact (Ensures.number m).bind fun v hv => .tagValue hv
      | [], _ | _ :: _ :: _, _ => exact .throw _
    · exact .throw _

theorem ensures_applyValue (hf : Given strict f) (hvs : ∀ v ∈ vs, Given strict v) :
    Ensures strict (applyValue .dynamic (n + 1) f vs) (Given strict) := by
  refine (Ensures.untag hf .function).bind fun g hg => ?_
  cases hg with
  | function hss hret name ps env id =>
    exact (Ensures.enter hvs env ps).bind fun i _ => (hn.stmts hss).mono fun v hv => hv hret

theorem ensures_evalStmt (h : isStmts strict (s :: rest)) :
    Ensures strict (evalStmt .dynamic (n + 1) i s rest) (Returned strict (s :: rest)) := by
  rw [isStmts, and_eq_true] at h
  obtain ⟨hs, hrest⟩ := h
  unfold isStmt at hs
  split at hs
  case h_1 e k =>
    by_cases hprint : ∃ j a m, e = .call (.name "print" j) [a] m
    · obtain ⟨j, a, m, rfl⟩ := hprint
      have ha := (and_eq_true_iff.mp (and_eq_true_iff.mp hs).2).1
      exact (hn.expr ha).bind fun v _ => (Ensures.print v).bind fun _ _ => hn.stmts hrest
    · rw [evalStmt_expr fun j a m h => hprint ⟨j, a, m, h⟩]
      exact (hn.expr hs).bind fun _ _ => hn.stmts hrest
  case h_2 x _ e _ =>
    exact (hn.expr hs).bind fun v hv => (Ensures.assign hv i x).bind fun _ _ => hn.stmts hrest
  case h_3 e _ => exact (hn.expr hs).mono fun v hv _ => hv
  case h_4 b j _ _ e _ =>
    rw [and_eq_true, and_eq_true] at hs
    refine (hn.expr hs.1.1).bind fun x hx => (hn.expr hs.1.2).bind fun y hy => ?_
    refine (Ensures.untag hx .tuple).bind fun t ht => (Ensures.untag hy .int).bind fun m _ => ?_
    refine (hn.expr hs.2).bind fun v hv => ?_
    cases ht with
    | tuple p => exact (Ensures.plainSetItem hv p m).bind fun _ _ => hn.stmts hrest
  case h_5 test yes no k =>
    rw [and_eq_true, and_eq_true] at hs
    refine ensures_operand hn hs.1.1 .bool fun p hp => ?_
    have hret (h : returnsAll (.ite test yes no k :: rest) false) :
        returnsAll (yes ++ rest) false ∧ returnsAll (no ++ rest) false := by
      rw [returnsAll_append, returnsAll_append]
      exact and_eq_true_iff.mp h
    cases hp with
    | bool c =>
      cases c with
      | true =>
        refine .ite (.throw _) ((hn.stmts (isStmts_append hs.1.2 hrest)).mono fun v hv h => ?_)
        exact hv fun hstrict => (hret (h hstrict)).1
      | false =>
        refine .ite (.throw _) ((hn.stmts (isStmts_append hs.2 hrest)).mono fun v hv h => ?_)
        exact hv fun hstrict => (hret (h hstrict)).2
  case h_6 test body k =>
    have hloop : isStmts strict (.loop test body [] k :: rest) :=
      and_eq_true_iff.mpr ⟨hs, hrest⟩
    rw [and_eq_true] at hs
    refine ensures_operand hn hs.1 .bool fun p _ => ?_
    refine (Ensures.withHeap _).bind fun c _ => .ite (.ite (.throw _) ?_) ?_
    · refine (hn.stmts (isStmts_append hs.2 hloop)).bind fun _ _ => ?_
      exact .pure fun h => .none (not_strict h)
    · exact (hn.stmts hrest).mono
        fun v hv h => hv fun hstrict => (Bool.false_ne_true (h hstrict)).elim
  case h_7 f ps ss _ _ _ _ =>
    rw [and_eq_true] at hs
    refine (Ensures.ofExcept fun _ _ => trivial).bind fun ps _ => ?_
    have hret (h : strict) : returnsAll ss false := by
      subst h
      exact hs.2
    refine (Ensures.newFunction hs.1 hret f ps i).bind fun v hv => ?_
    exact (Ensures.tagValue hv).bind fun v hv =>
      (Ensures.assign hv i f).bind fun _ _ => hn.stmts hrest
  case h_8 => cases hs

theorem ensures_evalStmts (hss : isStmts strict ss) :
    Ensures strict (evalStmts .dynamic (n + 1) i ss) (Returned strict ss) := by
  cases ss with
  | nil => exact .pure fun h => .zero (not_strict h)
  | cons s rest => exact hn.stmt hss

end

theorem taggedAt (strict n) : TaggedAt strict n := by
  induction n with
  | zero => constructor <;> intros <;> exact .throw _
  | succ n hn =>
    exact ⟨ensures_evalExpr hn, ensures_evalLogic hn, ensures_evalCall hn, ensures_applyValue hn,
      ensures_evalStmt hn, ensures_evalStmts hn⟩

theorem ensures_runProgram (hss : isStmts strict ss) (k n) :
    Ensures strict (runProgram .dynamic n (.module ss k)) fun _ => True := by
  refine (Ensures.newEnv (forall_mem_nil _)).bind fun i _ => ?_
  refine ((taggedAt strict n).stmts hss).bind fun _ _ => (Ensures.envAt _ i).bind fun env henv => ?_
  split
  · next hf =>
    refine ((taggedAt strict n).apply (henv _ (mem_of_get? hf)) ?_).bind fun _ _ => ?_
    · exact forall_mem_nil _
    · exact .pure trivial
  · exact .pure trivial

/-- Wherever a run of a program is, whether it ends there or fails or has no steps left, all
variables and all items of tuples have such values, and so has every expression, and what statements
return. Strictly, all of them are tagged. -/
theorem values_tagged {ss : List Stmt} (hss : isStmts strict ss = true) (k : Note) (n : Nat)
    (console : Console) :
    Ends strict (fun _ => True) ((runProgram .dynamic n (.module ss k)).run { console }) ∧
      (∀ i e, isExpr strict e = true → Ensures strict (evalExpr .dynamic n i e) (Given strict)) ∧
      ∀ i ts, isStmts strict ts = true →
        Ensures strict (evalStmts .dynamic n i ts) (Returned strict ts) := by
  refine ⟨ensures_runProgram hss k n ⟨fun s hs => ?_, fun env henv => ?_⟩, fun i e he => ?_,
    fun i ts hts => ?_⟩
  · exact absurd hs (not_mem_empty s)
  · exact absurd henv (not_mem_empty env)
  · exact (taggedAt strict n).expr he
  · exact (taggedAt strict n).stmts hts

/-- A function that returns a tuple with a function in it, and a loop over its other item. -/
theorem values_tagged_counting :
    let x : Expr := .name "x" {}
    let number (i : Int) : Expr := .const (.int i 0) {}
    let pair : Expr := .tuple [x, .lambda (.names ["y"]) x {}] .load {}
    let item : Expr := .subscript (.call (.name "f" {}) [number 1] {}) (number 0) .load {}
    let ss : List Stmt := [
      Stmt.fundef "f" (.names ["x"]) (.stmts [.ret pair {}]) .null .any .null {},
      .assign [x] item {},
      .loop (.compare x [.lt] [number 3] {}) [.assign [x] (.arith x .add (number 1) {}) {}] [] {}]
    isStmts true ss = true ∧ ∀ n console,
      Ends true (fun _ => True) ((runProgram .dynamic n (.module ss {})).run { console }) := by
  intro x number pair item ss
  have hss : isStmts true ss = true := rfl
  exact ⟨hss, fun n console => (values_tagged hss {} n console).1⟩

end CompilerKit.Tagging
