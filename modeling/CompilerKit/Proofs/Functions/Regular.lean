import CompilerKit.Proofs.Loops.Typing

/-!
# Programs that the type system sees through

The type system of the language of functions does not look at everything that a run depends on. It
takes types for equal that are not, it compares with the declared type only what a function returns
at the end of its body, and it does not know that a function begins with the variables of the main
program, or that nothing comes out of a loop. This module says which programs do not depend on what
it leaves out.
-/

namespace CompilerKit.Functions

open Bindings

open Loops (Grows)

/-! ## Parts -/

/-- A part of a program. -/
inductive Part where
  | expr (e : Expr)
  | stmt (s : Stmt)

/-- The variable or the function that an expression consists of. -/
def mentioned? : Expr → Option String
  | .name x _ | .funRef x _ _ => some x
  | _ => none

mutual

/-- An expression and the parts in it. What is called by its name is no part. -/
def exprParts (e : Expr) : List Part :=
  .expr e :: match e with
    | .arith l _ r _ => exprParts l ++ exprParts r
    | .logic _ es _ => exprsParts es
    | .unary _ a _ => exprParts a
    | .call f args _ => (match mentioned? f with
      | some _ => []
      | none => exprParts f) ++ exprsParts args
    | .cond test yes no _ => exprParts test ++ exprParts yes ++ exprParts no
    | .compare l _ rs _ => exprParts l ++ exprsParts rs
    | .tuple es _ _ => exprsParts es
    | .list es _ _ => exprsParts es
    | .subscript b i _ _ => exprParts b ++ exprParts i
    | .block ss r _ => stmtsParts ss ++ exprParts r
    | _ => []

def exprsParts : List Expr → List Part
  | [] => []
  | e :: es => exprParts e ++ exprsParts es

/-- A statement and the parts in it, without those of a function that it defines. -/
def stmtParts (s : Stmt) : List Part :=
  .stmt s :: match s with
    | .expr e _ => exprParts e
    | .assign ts e _ => exprsParts ts ++ exprParts e
    | .ret e _ => exprParts e
    | .ite test yes no _ => exprParts test ++ stmtsParts yes ++ stmtsParts no
    | .loop test body _ _ => exprParts test ++ stmtsParts body
    | _ => []

def stmtsParts : List Stmt → List Part
  | [] => []
  | s :: ss => stmtParts s ++ stmtsParts ss

end

namespace Part

/-- The type that is recorded in a tuple or a list. -/
def recorded? : Part → Option Ty
  | expr (.tuple _ _ n) | expr (.list _ _ n) => n.type
  | _ => none

/-- The variable that a statement assigns to. -/
def assigned? : Part → Option String
  | stmt (.assign [.name x _] _ _) => some x
  | _ => none

/-- The variable or the function whose value is used. -/
def mentioned? : Part → Option String
  | expr e => Functions.mentioned? e
  | stmt _ => none

/-- What a statement returns. -/
def returned? : Part → Option Expr
  | stmt (.ret e _) => some e
  | _ => none

def isLoop : Part → Bool
  | stmt (.loop _ _ _ _) => true
  | _ => false

end Part

/-- The variables that are assigned to. -/
def assigned (ps : List Part) : List String := ps.filterMap Part.assigned?

/-- The comparisons of the language. -/
def isComparison : CmpOp → Bool
  | .eq | .notEq | .lt | .le | .gt | .ge | .same => true
  | _ => false

/-- The statements in a conditional or in a loop are in lists. -/
def hasLists (n : Note) : Bool := !n.tuples.contains 1 && !n.tuples.contains 2

/-- The part has no cells without a value, its comparisons are those of the language, and functions
are not defined in it. -/
def Part.isPlain : Part → Bool
  | .expr (.allocate _ _ _) | .expr (.allocateArray _ _ _) | .stmt (.fundef _ _ _ _ _ _ _) => false
  | .expr (.compare _ ops _ _) => ops.all isComparison
  | .stmt (.ite _ _ _ n) | .stmt (.loop _ _ _ n) => hasLists n
  | _ => true

/-! ## Types -/

/-- The types of values. -/
inductive IsValueType : Ty → Prop where
  | int : IsValueType .int
  | bool : IsValueType .bool
  | void : IsValueType .void
  | tuple (hts : ∀ t ∈ ts, IsValueType t) : IsValueType (.tuple ts)
  | list (ht : IsValueType t) : IsValueType (.list t)
  | function (hps : ∀ p ∈ ps, IsValueType p) (hr : IsValueType r) : IsValueType (.function ps r)

/-- What a program works with: the types of its values, and the functions that it does nothing with
but call them. -/
structure Usage where
  types : Ty → Prop
  called : List String

instance : CoeFun Usage fun _ => Ty → Prop := ⟨Usage.types⟩

/-- The type of a function from values to values. -/
inductive Signature (S : Usage) : Ty → Prop where
  | function (hps : ∀ p ∈ ps, S p) (hr : S r) : Signature S (.function ps r b)

/-- Types of values that the type system tells apart. With a type they have the types of its parts.
The type system compares lists of types only as far as both go. -/
structure Family (S : Usage) : Prop where
  value : S t → IsValueType t
  tells : S s → S t → Ty.equate .functions place s t = .ok () → s = t
  int : S .int
  bool : S .bool
  void : S .void
  part : S (.tuple ts b) → ∀ t ∈ ts, S t
  item : S (.list t) → S t
  param : S (.function ps r b) → ∀ p ∈ ps, S p
  result : S (.function ps r b) → S r

/-- The types of all names but those of functions that are only called are types of values. -/
def Known (S : Usage) (Γ : TypeTable) : Prop :=
  ∀ x t, get? Γ x = some t → S t ∨ x ∈ S.called ∧ Signature S t

/-- The part is plain, the type that is recorded in it is one of the family, and what it mentions is
not only called. -/
structure Part.Fine (S : Usage) (p : Part) : Prop where
  plain : p.isPlain
  recorded : ∀ t, p.recorded? = some t → S t
  mentioned : ∀ x, p.mentioned? = some x → x ∉ S.called

/-- All the parts are fine. -/
def AllFine (S : Usage) (ps : List Part) : Prop := ∀ p ∈ ps, p.Fine S

@[simp] theorem allFine_cons : AllFine S (p :: ps) ↔ p.Fine S ∧ AllFine S ps := List.forall_mem_cons

@[simp] theorem allFine_append :
    AllFine S (ps ++ qs) ↔ AllFine S ps ∧ AllFine S qs := List.forall_mem_append

theorem allFine_rest (h : AllFine S (p :: (ps ++ qs))) :
    AllFine S ps ∧ AllFine S qs := allFine_append.mp (allFine_cons.mp h).2

/-! ## Functions -/

/-- A function of a program. -/
structure Def where
  name : String
  params : TypeTable
  body : List Stmt
  result : Ty

/-- Parameters that are names with types. -/
def paramTable? : Params → Option TypeTable
  | .typed ps => some ps
  | .names [] => some []
  | _ => none

namespace Def

def ofStmt? : Stmt → Option Def
  | .fundef f ps (.stmts body) _ r _ _ => (paramTable? ps).map fun params => ⟨f, params, body, r⟩
  | _ => none

def names (d : Def) : List String := d.params.map Prod.fst

def type (d : Def) : Ty := .function (d.params.map Prod.snd) d.result

/-- The function, as a value that is defined in an environment. -/
def value (d : Def) (env id : Nat) : Value :=
  .function d.name (.names d.names) (.stmts d.body) env id

end Def

/-- The functions that a program defines before it returns. -/
def defs : List Stmt → List Def
  | [] | .ret _ _ :: _ => []
  | s :: ss => (Def.ofStmt? s).toList ++ defs ss

/-! ## Typed programs -/

/-- What statements are part of. -/
inductive Mode where
  /-- A block, whose value is not looked at. It may be part of a function with a result. -/
  | block (result : Option Ty)
  /-- The body of a function with a result. -/
  | body (result : Ty)
  /-- A program that defines functions. -/
  | main (defs : List Def)

namespace Mode

/-- What a return has to give. -/
def result : Mode → Option Ty
  | block t => t
  | body t => some t
  | main _ => none

/-- The statements may come to their end without returning. -/
def MayEnd : Mode → Prop
  | body t => t = .void
  | _ => True

/-- The statements may return a value of the type. -/
def MayReturn (m : Mode) (u : Ty) : Prop := ∀ t, m.result = some t → u = t

/-- The statement may stand before other ones: what comes out of a loop is nothing. -/
def Allows (s : Stmt) : Mode → Prop
  | body t => t = .void ∨ ∀ p ∈ stmtParts s, p.isLoop = false
  | _ => True

end Mode

/-- The operands that a comparison takes. -/
def Compares (op : CmpOp) (t : Ty) : Prop := comparesAny .functions op = true ∨ t = .int

/-- The position of a tuple has a part of the type. -/
def HasPart (ts : List Ty) (k : Int) (t : Ty) : Prop :=
  ∃ p, Value.position ts.length k = .ok p ∧ ts[p]? = some t

/-- Something that has a length. -/
inductive IsAggregate : Ty → Prop where
  | tuple (ts b) : IsAggregate (.tuple ts b)
  | list (t) : IsAggregate (.list t)

/-- The name that an expression is. -/
def name? : Expr → Option String
  | .name x _ => some x
  | _ => none

/-- What is called is no operation of the language itself. -/
def IsCallee (f : Expr) : Prop := ∀ x, name? f = some x → builtins.contains x = false

mutual

/-- Expressions under a table of types. -/
inductive Typed (Γ : TypeTable) : Expr → Ty → Prop where
  | name (n) (hx : get? Γ x = some t) : Typed Γ (.name x n) t
  | funRef (a n) (hx : get? Γ x = some t) : Typed Γ (.funRef x a n) t
  | const (n) (hc : constantType? .functions c = some t) : Typed Γ (.const c n) t
  | global (x n) : Typed Γ (.global x n) .int
  | neg (n) (ha : Typed Γ a .int) : Typed Γ (.unary .neg a n) .int
  | not (n) (ha : Typed Γ a .bool) : Typed Γ (.unary .not a n) .bool
  | arith {a b op} (n) (hop : hasArith .functions op) (ha : Typed Γ a .int)
      (hb : Typed Γ b .int) : Typed Γ (.arith a op b n) .int
  | logic (op more n) (ha : Typed Γ a .bool) (hb : Typed Γ b .bool) :
      Typed Γ (.logic op (a :: b :: more) n) .bool
  | cond {test yes no t} (n) (htest : Typed Γ test .bool) (hyes : Typed Γ yes t)
      (hno : Typed Γ no t) : Typed Γ (.cond test yes no n) t
  | compare {a b op t} (n) (hop : isComparison op) (ht : Compares op t) (ha : Typed Γ a t)
      (hb : Typed Γ b t) : Typed Γ (.compare a [op] [b] n) .bool
  | block (n) (hss : TypedStmts Γ (.block none) ss) (hr : Typed Γ r t) : Typed Γ (.block ss r n) t
  | tuple (n) (hes : TypedExprs Γ es ts) : Typed Γ (.tuple es .load n) (.tuple ts)
  | list {es ts t} (n) (hes : TypedExprs Γ es (t :: ts)) (hts : ∀ u ∈ ts, u = t) :
      Typed Γ (.list es .load n) (.list t)
  | part (id m n) (hb : Typed Γ b (.tuple ts f)) (hk : HasPart ts k t) :
      Typed Γ (.subscript b (.const (.int k id) m) .load n) t
  | item {b i t} (n) (hb : Typed Γ b (.list t)) (hi : Typed Γ i .int) :
      Typed Γ (.subscript b i .load n) t
  | input (m n) : Typed Γ (.call (.name "input_int" m) [] n) .int
  | len (m n) (hb : Typed Γ b t) (ht : IsAggregate t) : Typed Γ (.call (.name "len" m) [b] n) .int
  | arrayLen (m n) (hb : Typed Γ b (.list t)) : Typed Γ (.call (.name "array_len" m) [b] n) .int
  | arrayLoad {b i t} (m n) (hb : Typed Γ b (.list t)) (hi : Typed Γ i .int) :
      Typed Γ (.call (.name "array_load" m) [b, i] n) t
  | arrayStore {b i v t} (m n) (hb : Typed Γ b (.list t)) (hi : Typed Γ i .int) (hv : Typed Γ v t) :
      Typed Γ (.call (.name "array_store" m) [b, i, v] n) .void
  | call {f args ps ts r b} (n) (hf : Typed Γ f (.function ps r b)) (hcallee : IsCallee f)
      (hargs : TypedExprs Γ args ts) (hts : ∀ p ∈ ts.zip ps, p.1 = p.2) : Typed Γ (.call f args n) r

inductive TypedExprs (Γ : TypeTable) : List Expr → List Ty → Prop where
  | nil : TypedExprs Γ [] []
  | cons {e es t ts} (he : Typed Γ e t) (hes : TypedExprs Γ es ts) :
      TypedExprs Γ (e :: es) (t :: ts)

/-- Statements under a table of types, in a function with a result or outside of one. -/
inductive TypedStmt (Γ : TypeTable) : Option Ty → Stmt → Prop where
  | print {o e} (m n k) (he : Typed Γ e .int) :
      TypedStmt Γ o (.expr (.call (.name "print" m) [e] n) k)
  | expr {o e t} (n) (he : Typed Γ e t) : TypedStmt Γ o (.expr e n)
  | assign {o e x t} (m n) (hx : get? Γ x = some t) (he : Typed Γ e t) :
      TypedStmt Γ o (.assign [.name x m] e n)
  | storePart {o b e ts f k t} (id l m n) (hb : Typed Γ b (.tuple ts f)) (hk : HasPart ts k t)
      (he : Typed Γ e t) :
      TypedStmt Γ o (.assign [.subscript b (.const (.int k id) l) .store m] e n)
  | storeItem {o b i e t} (m n) (hb : Typed Γ b (.list t)) (hi : Typed Γ i .int)
      (he : Typed Γ e t) : TypedStmt Γ o (.assign [.subscript b i .store m] e n)
  | ite {o test yes no n} (hn : hasLists n) (htest : Typed Γ test .bool)
      (hyes : TypedStmts Γ (.block o) yes) (hno : TypedStmts Γ (.block o) no) :
      TypedStmt Γ o (.ite test yes no n)
  | loop {o test body n} (hn : hasLists n) (htest : Typed Γ test .bool)
      (hbody : TypedStmts Γ (.block o) body) : TypedStmt Γ o (.loop test body [] n)
  | collect (a n) : TypedStmt Γ o (.collect a n)

/-- Statements one after the other, as part of something. What follows a return is not run. -/
inductive TypedStmts (Γ : TypeTable) : Mode → List Stmt → Prop where
  | nil (hm : m.MayEnd) : TypedStmts Γ m []
  | cons {m s rest} (hs : TypedStmt Γ m.result s) (hm : m.Allows s) (hrest : TypedStmts Γ m rest) :
      TypedStmts Γ m (s :: rest)
  | ret {m e t} (n rest) (he : Typed Γ e t) (hm : m.MayReturn t) : TypedStmts Γ m (.ret e n :: rest)
  | last {t test yes no n} (hn : hasLists n) (htest : Typed Γ test .bool)
      (hyes : TypedStmts Γ (.body t) yes) (hno : TypedStmts Γ (.body t) no) :
      TypedStmts Γ (.body t) [.ite test yes no n]
  | define {ds d s rest} (hd : Def.ofStmt? s = some d) (hmem : d ∈ ds)
      (hx : get? Γ d.name = some d.type) (hrest : TypedStmts Γ (.main ds) rest) :
      TypedStmts Γ (.main ds) (s :: rest)

end

/-! ## Regular programs -/

/-- Under the table, all that is returned is of the type, if there has to be one. -/
def Returns (Γ : TypeTable) (o : Option Ty) (ps : List Part) : Prop :=
  ∀ t, o = some t → ∀ e ∈ ps.filterMap Part.returned?, ∀ u, Typed Γ e u → u = t

/-- The types that the functions of a program are declared with. -/
def declaredTable (ss : List Stmt) : TypeTable :=
  match declare .functions [] ss with
  | .error _ => []
  | .ok table => table

/-- The types that the checker finds for the variables and the functions of the main program. -/
def mainTable (ss : List Stmt) : TypeTable :=
  match (checkStmts .functions none ss).run (declaredTable ss) with
  | .error _ => []
  | .ok (_, table) => table

/-- The types that the checker finds for the variables of a function, when it begins with types of
the main program and those of the parameters. -/
def BodyTable (table : TypeTable) (d : Def) (Δ : TypeTable) : Prop :=
  ∃ Γ ss t, Grows Γ table ∧
    (checkStmts .functions none ss).run (putAll Γ d.params) = .ok ((d.body, t), Δ)

/-- A function that the type system sees through, under the types of the main program. -/
structure RegularDef (S : Usage) (table : TypeTable) (d : Def) : Prop where
  result : S d.result
  fine : AllFine S (stmtsParts d.body)
  /-- What comes out of a loop that has been gone through is nothing. -/
  loops : d.result = .void ∨ ∀ p ∈ stmtsParts d.body, p.isLoop = false
  /-- The function returns what it declares, also where it does not come to its end. -/
  returns : ∀ Δ, BodyTable table d Δ → Returns Δ (some d.result) (stmtsParts d.body)
  /-- The function begins with the variables of the main program. -/
  agrees : ∀ Δ, BodyTable table d Δ → ∀ x s t, get? Δ x = some s → get? table x = some t → s = t

/-- A checked program that the type system sees through: `ss` is the program, and `ss'` is what
checking it has made of it. -/
structure Regular (S : Usage) (ss ss' : List Stmt) : Prop where
  types : Known S (declaredTable ss)
  /-- What is called `main` is run at the end. -/
  main : ∀ t, get? (mainTable ss) "main" = some t → ∃ ps r b, t = .function ps r b
  stmts : ∀ s ∈ ss', Def.ofStmt? s = none → AllFine S (stmtParts s)
  defs : ∀ d ∈ defs ss', RegularDef S (mainTable ss) d

end CompilerKit.Functions
