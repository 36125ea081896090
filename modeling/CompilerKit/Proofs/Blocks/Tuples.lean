import Mathlib.Data.List.Zip
import CompilerKit.Proofs.Blocks.Least

/-!
# Programs of blocks with tuples

The type system of blocks with tuples takes two types of tuples for equal where one has more parts
than the other. A variable that is assigned to takes on the type of what is assigned to it, so types
that are taken for equal may go around among variables, and then the types of the variables change
forever.

* `equate_tupleBlocks_iff`: which types of tuples are taken for equal.
* `settle_exchange`: a pass exchanges the types of two variables, forever unless they are equal.
-/

namespace CompilerKit.Blocks

open Check List Bindings Ty TypeSystem

/-! ## Types that are taken for equal -/

/-- Types that the type system of blocks with tuples takes for equal: nothing is known of one of
them, or they are equal, or they are types of tuples with parts that are taken for equal as far as
both go. -/
inductive Alike : Ty → Ty → Prop where
  | left (t) : Alike .bottom t
  | right (s) : Alike s .bottom
  | refl (t) : Alike t t
  | tuple {ps qs b b'} (h : ∀ pq ∈ ps.zip qs, Alike pq.1 pq.2) : Alike (.tuple ps b) (.tuple qs b')

variable {s t : Ty}

theorem Alike.symm (h : Alike s t) : Alike t s := by
  induction h with
  | left t => exact .right t
  | right s => exact .left s
  | refl t => exact .refl t
  | @tuple ps qs b b' _ ih =>
    refine .tuple fun pq hpq => ?_
    rw [← zip_swap, mem_map] at hpq
    obtain ⟨qp, hqp, rfl⟩ := hpq
    exact ih qp hqp

theorem equate_tuple (ht : t ≠ .bottom) :
    equate .tupleBlocks place (.tuple ps b) t = .ok () ↔
      ∃ qs b', t = .tuple qs b' ∧
        ∀ pq ∈ ps.zip qs, equate .tupleBlocks place pq.1 pq.2 = .ok () := by
  have hbottom : (t == .bottom) = false := Bool.eq_false_iff.mpr fun h => ht ((beq_bottom t).mp h)
  rw [equate, hbottom]
  cases t with
  | tuple qs b' =>
    refine (equates_iff .tupleBlocks place ps qs).trans ⟨fun h => ⟨qs, b', rfl, h⟩, ?_⟩
    rintro ⟨qs', b'', heq, h⟩
    cases heq
    exact h
  | _ =>
    constructor
    · intro h
      cases h
    · rintro ⟨_, _, heq, -⟩
      cases heq

theorem equate_plain (hs : s ≠ .bottom) (ht : t ≠ .bottom) (hplain : ∀ ps b, s ≠ .tuple ps b) :
    equate .tupleBlocks place s t = .ok () ↔ (s == t) := by
  have hs' : (s == .bottom) = false := Bool.eq_false_iff.mpr fun h => hs ((beq_bottom s).mp h)
  have ht' : (t == .bottom) = false := Bool.eq_false_iff.mpr fun h => ht ((beq_bottom t).mp h)
  have harrays : hasArrays .tupleBlocks = false := rfl
  have hfunctions : hasFunctions .tupleBlocks = false := rfl
  have hproxies : hasProxies .tupleBlocks = false := rfl
  have hgenerics : (tupleBlocks == generics) = false := rfl
  rw [equate, hs', ht']
  cases s with
  | tuple ps b => exact absurd rfl (hplain ps b)
  | all xs p b =>
    cases t with
    | all ys q b' => simp [hgenerics]
    | _ => simp [BEq.beq, Ty.equal]
  | _ => simp [harrays, hfunctions, hproxies]

theorem equate_tupleBlocks_iff (place : Culprit) {s : Ty} (hs : s.Genuine) (t : Ty) :
    equate .tupleBlocks place s t = .ok () ↔ Alike s t := by
  by_cases hbottom : s = .bottom ∨ t = .bottom
  · refine ⟨fun _ => ?_, fun _ => equate_bottom rfl hbottom place⟩
    rcases hbottom with rfl | rfl
    · exact .left t
    · exact .right s
  obtain ⟨hsb, htb⟩ := not_or.mp hbottom
  by_cases htuple : ∃ ps b, s = .tuple ps b
  · obtain ⟨ps, b, rfl⟩ := htuple
    have hgenuine : ∀ p ∈ ps, p.Genuine := by
      cases hs with
      | tuple h => exact h
    have hparts : ∀ p ∈ ps, ∀ q, equate .tupleBlocks place p q = .ok () ↔ Alike p q :=
      fun p hp q => equate_tupleBlocks_iff place (hgenuine p hp) q
    have hzip {qs : List Ty} {pq : Ty × Ty} (hpq : pq ∈ ps.zip qs) :=
      hparts pq.1 (of_mem_zip (show (pq.1, pq.2) ∈ ps.zip qs from hpq)).1 pq.2
    rw [equate_tuple htb]
    constructor
    · rintro ⟨qs, b', rfl, h⟩
      exact .tuple fun pq hpq => (hzip hpq).mp (h pq hpq)
    · intro h
      cases h with
      | right => exact absurd rfl htb
      | refl =>
        refine ⟨ps, b, rfl, fun pq hpq => (hzip hpq).mpr ?_⟩
        rw [zip, zipWith_self, mem_map] at hpq
        obtain ⟨p, -, rfl⟩ := hpq
        exact .refl p
      | tuple h => exact ⟨_, _, rfl, fun pq hpq => (hzip hpq).mpr (h pq hpq)⟩
  · rw [equate_plain hsb htb fun ps b h => htuple ⟨ps, b, h⟩, show (s == t) = Ty.equal s t from rfl,
      equal_iff hs]
    constructor
    · rintro rfl
      exact .refl s
    · intro h
      cases h with
      | left => exact absurd rfl hsb
      | right => exact absurd rfl htb
      | refl => rfl
      | tuple => exact absurd ⟨_, _, rfl⟩ htuple
termination_by sizeOf s

/-! ## Types with which passes end -/

/-- Types that a program may be about: with a type they have the types of its parts. -/
structure Family (S : Ty → Prop) : Prop where
  genuine : ∀ {t}, S t → t.Genuine
  bottom : S .bottom
  int : S .int
  bool : S .bool
  parts : S (.tuple ts b) → ∀ t ∈ ts, S t

/-- Of the types that something is known of, only equal ones are taken for equal. -/
def Distinct (S : Ty → Prop) : Prop :=
  ∀ s t, S s → S t → Alike s t → s = .bottom ∨ t = .bottom ∨ s = t

theorem apart_family {S : Ty → Prop} (hS : Family S) (h : Distinct S) : Apart .tupleBlocks S where
  forgives := rfl
  bottom := hS.bottom
  int := hS.int
  bool := hS.bool
  parts := hS.parts
  accepts place ht := (equate_tupleBlocks_iff place (hS.genuine ht) _).mpr (.refl _)
  tells hs ht heq := h _ _ hs ht ((equate_tupleBlocks_iff _ (hS.genuine hs) _).mp heq)
  beq_iff hs _ := equal_iff (hS.genuine hs) _

/-! ## Types that go around -/

theorem run_assign {x : String} {e : Expr} {after : TypeTable} (mid : TypeTable) (u t : Ty)
    (he : (blockExpr c e).run env = .ok (t, mid)) (hu : (get? mid x).getD .bottom = u)
    (hequate : ∀ place, equate c place u t = .ok ())
    (hafter : put mid x (combineTypes t u) = after) (m n : Note) :
    (blockStmt c (.assign [.name x m] e n)).run env = .ok ((), after) := by
  subst hu hafter
  have hstmt : blockStmt c (.assign [.name x m] e n) = (do
      let t ← blockExpr c e
      let u := (← find? x).getD .bottom
      equal c u t (.stmt (.assign [.name x m] e n))
      bind x (combineTypes t u)) := rfl
  rw [hstmt, StateT.run_bind, he]
  change StateT.run (equal c _ t _ >>= fun _ => bind x _) mid = _
  rw [StateT.run_bind, run_equal (hequate _)]
  rfl

/-- Two variables that tuples are assigned to exchange what they have. -/
def exchange (s t : Ty) : List Block :=
  [.mk "start"
    [.assign [.name "swap" {}] (.name "a" {}) {},
      .assign [.name "a" {}] (.allocate (.int 1) s {}) {},
      .assign [.name "a" {}] (.name "b" {}) {},
      .assign [.name "b" {}] (.allocate (.int 1) t {}) {},
      .assign [.name "b" {}] (.name "swap" {}) {},
      .ret (.const (.int 0 0) {}) {}]]

/-- The types of the variables of the program. -/
def exchangeTable (a swap b : Ty) : TypeTable := [("a", a), ("swap", swap), ("b", b)]

theorem run_blockStmts_cons {s : Stmt} {ss : List Stmt} {mid : TypeTable}
    (h : (blockStmt c s).run env = .ok ((), mid)) :
    (blockStmts c (s :: ss)).run env = (blockStmts c ss).run mid := by
  rw [blockStmts, StateT.run_bind, h]
  rfl

theorem run_exchange_of {after : TypeTable} (env1 env2 env3 env4 : TypeTable)
    (h1 : (blockStmt .tupleBlocks
      (.assign [.name "swap" {}] (.name "a" {}) {})).run env = .ok ((), env1))
    (h2 : (blockStmt .tupleBlocks
      (.assign [.name "a" {}] (.allocate (.int 1) s {}) {})).run env1 = .ok ((), env2))
    (h3 : (blockStmt .tupleBlocks
      (.assign [.name "a" {}] (.name "b" {}) {})).run env2 = .ok ((), env3))
    (h4 : (blockStmt .tupleBlocks
      (.assign [.name "b" {}] (.allocate (.int 1) t {}) {})).run env3 = .ok ((), env4))
    (h5 : (blockStmt .tupleBlocks
      (.assign [.name "b" {}] (.name "swap" {}) {})).run env4 = .ok ((), after)) :
    (blocksPass .tupleBlocks (exchange s t)).run env = .ok ((), after) := by
  change StateT.run (blockStmts .tupleBlocks [_, _, _, _, _] >>= _) _ = _
  rw [StateT.run_bind, run_blockStmts_cons h1, run_blockStmts_cons h2, run_blockStmts_cons h3,
    run_blockStmts_cons h4, run_blockStmts_cons h5]
  rfl

section

variable (hs : s ≠ .bottom) (ht : t ≠ .bottom)
include hs ht

/-- At first nothing is known, so that the variables keep the tuples that they are given. -/
theorem run_exchange_first :
    (blocksPass .tupleBlocks (exchange s t)).run [] = .ok ((), exchangeTable s .bottom t) := by
  have hbottom {u v : Ty} (h : u = .bottom ∨ v = .bottom) (place : Culprit) :
      equate .tupleBlocks place u v = .ok () := equate_bottom rfl h place
  have hs' := combineTypes_of_ne hs .bottom
  have ht' := combineTypes_of_ne ht .bottom
  refine run_exchange_of [("a", .bottom), ("swap", .bottom)] [("a", s), ("swap", .bottom)]
    (exchangeTable s .bottom .bottom) (exchangeTable s .bottom t) ?_ ?_ ?_ ?_ ?_
  · exact run_assign [("a", .bottom)] .bottom .bottom rfl rfl (hbottom (.inl rfl)) rfl {} {}
  · exact run_assign _ .bottom s rfl rfl (hbottom (.inl rfl)) (by rw [hs']; rfl) {} {}
  · exact run_assign (exchangeTable s .bottom .bottom) s .bottom rfl rfl
      (hbottom (.inr rfl)) rfl {} {}
  · exact run_assign _ .bottom t rfl rfl (hbottom (.inl rfl)) (by rw [ht']; rfl) {} {}
  · exact run_assign (exchangeTable s .bottom t) t .bottom rfl rfl (hbottom (.inr rfl)) rfl {} {}

theorem run_exchange
    (hall : ∀ {u v : Ty}, u = s ∨ u = t ∨ u = .bottom → v = s ∨ v = t ∨ v = .bottom →
      ∀ place, equate .tupleBlocks place u v = .ok ())
    {a swap b : Ty} (ha : a = s ∨ a = t) (hb : b = s ∨ b = t)
    (hswap : swap = s ∨ swap = t ∨ swap = .bottom) :
    (blocksPass .tupleBlocks (exchange s t)).run (exchangeTable a swap b) =
      .ok ((), exchangeTable b a a) := by
  have hne {u : Ty} (h : u = s ∨ u = t) (v : Ty) : combineTypes u v = u := by
    rcases h with rfl | rfl
    · exact combineTypes_of_ne hs v
    · exact combineTypes_of_ne ht v
  have hin {u : Ty} (h : u = s ∨ u = t) : u = s ∨ u = t ∨ u = .bottom := h.imp_right .inl
  have hs' : s = s ∨ s = t := .inl rfl
  have ht' : t = s ∨ t = t := .inr rfl
  refine run_exchange_of (exchangeTable a a b) (exchangeTable s a b) (exchangeTable b a b)
    (exchangeTable b a t) ?_ ?_ ?_ ?_ ?_
  · exact run_assign _ swap a rfl rfl (hall hswap (hin ha)) (by rw [hne ha]; rfl) {} {}
  · exact run_assign _ a s rfl rfl (hall (hin ha) (hin hs')) (by rw [hne hs']; rfl) {} {}
  · exact run_assign _ s b rfl rfl (hall (hin hs') (hin hb)) (by rw [hne hb]; rfl) {} {}
  · exact run_assign _ b t rfl rfl (hall (hin hb) (hin ht')) (by rw [hne ht']; rfl) {} {}
  · exact run_assign _ t a rfl rfl (hall (hin ht') (hin ha)) (by rw [hne ha]; rfl) {} {}

end

/-- A program that is checked forever, if two types that are taken for equal are not equal. -/
theorem settle_exchange (hs : s ≠ .bottom) (ht : t ≠ .bottom) (hgs : s.Genuine) (hgt : t.Genuine)
    (halike : Alike s t) (hne : s ≠ t) :
    settle (blocksPass .tupleBlocks (exchange s t)) [] = none := by
  have hall : ∀ {u v : Ty}, u = s ∨ u = t ∨ u = .bottom → v = s ∨ v = t ∨ v = .bottom →
      ∀ place, equate .tupleBlocks place u v = .ok () := by
    intro u v hu hv place
    rcases hu with rfl | rfl | rfl
    · rw [equate_tupleBlocks_iff place hgs]
      rcases hv with rfl | rfl | rfl
      · exact .refl _
      · exact halike
      · exact .right _
    · rw [equate_tupleBlocks_iff place hgt]
      rcases hv with rfl | rfl | rfl
      · exact halike.symm
      · exact .refl _
      · exact .right _
    · exact equate_bottom rfl (.inl rfl) place
  let P (env : TypeTable) : Prop := env = [] ∨ ∃ a swap b,
    (a = s ∧ b = t ∨ a = t ∧ b = s) ∧ (swap = s ∨ swap = t ∨ swap = .bottom) ∧
      env = exchangeTable a swap b
  refine settle_eq_none (P := P) ?_ (.inl rfl)
  rintro env (rfl | ⟨a, swap, b, hab, hswap, rfl⟩)
  · exact ⟨_, run_exchange_first hs ht, rfl,
      .inr ⟨s, .bottom, t, .inl ⟨rfl, rfl⟩, .inr (.inr rfl), rfl⟩⟩
  · have ha : a = s ∨ a = t := hab.imp And.left And.left
    have hb : b = s ∨ b = t := (hab.imp And.right And.right).symm
    refine ⟨_, run_exchange hs ht hall ha hb hswap, ?_, .inr ⟨b, a, a, ?_, ?_, rfl⟩⟩
    · have hbeq : (b == a) = false := by
        refine Bool.eq_false_iff.mpr fun h => ?_
        rcases hab with ⟨rfl, rfl⟩ | ⟨rfl, rfl⟩
        · exact hne ((equal_iff hgt _).mp h).symm
        · exact hne ((equal_iff hgs _).mp h)
      simp [same, exchangeTable, get?, hbeq]
    · rcases hab with ⟨rfl, rfl⟩ | ⟨rfl, rfl⟩
      · exact .inr ⟨rfl, rfl⟩
      · exact .inl ⟨rfl, rfl⟩
    · exact ha.imp_right .inl

/-- Every program of blocks with tuples is checked at some time, whatever it does with the tuples of
a family of types, if and only if the type system takes no two of the types for equal that are not.
Then there are at most two passes more than variables. -/
theorem checkBlocks_ends_iff {S : Ty → Prop} (hS : Family S) :
    ((∀ bs n, Allocates .tupleBlocks S (passLeaves bs) →
        ∃ r, (checkBlocks .tupleBlocks (.blocks bs n)).run = some r) ↔ Distinct S) ∧
    (Distinct S → ∀ bs, Allocates .tupleBlocks S (passLeaves bs) →
      ∃ k r, k ≤ (variablesOf (passLeaves bs)).dedup.length + 2 ∧
        Settles (blocksPass .tupleBlocks bs) k [] r) := by
  have hends (h : Distinct S) (bs : List Block) (hbs : Allocates .tupleBlocks S (passLeaves bs)) :=
    exists_settles (apart_family hS h) (monotone_blocksPass (apart_family hS h) rfl bs hbs)
  refine ⟨⟨fun h s t hs ht halike => ?_, fun h bs n hbs => ?_⟩, hends⟩
  · by_contra hne
    obtain ⟨hsb, hrest⟩ := not_or.mp hne
    obtain ⟨htb, hst⟩ := not_or.mp hrest
    have hnever := settle_exchange hsb htb (hS.genuine hs) (hS.genuine ht) halike hst
    have halloc : Allocates .tupleBlocks S (passLeaves (exchange s t)) := by
      rintro - u hu
      rcases mem_pair.mp (show u ∈ [s, t] from hu) with rfl | rfl
      · exact hs
      · exact ht
    obtain ⟨r, hr⟩ := h (exchange s t) {} halloc
    rw [checkBlocks_eq rfl, hnever] at hr
    cases hr
  · obtain ⟨k, r, -, hsettles⟩ := hends h bs hbs
    exact ⟨_, run_checkBlocks rfl hsettles.settle_eq n⟩

/-- Numbers, truth values, and tuples of one and of two numbers. -/
inductive OneOrTwo : Ty → Prop where
  | bottom : OneOrTwo .bottom
  | int : OneOrTwo .int
  | bool : OneOrTwo .bool
  | one : OneOrTwo (.tuple [.int])
  | two : OneOrTwo (.tuple [.int, .int])

theorem checkBlocks_ends_iff_oneOrTwo :
    ∃ bs n, Allocates .tupleBlocks OneOrTwo (passLeaves bs) ∧
      ∀ r, (checkBlocks .tupleBlocks (.blocks bs n)).run ≠ some r := by
  have hfamily : Family OneOrTwo := by
    constructor
    · intro t h
      cases h with
      | bottom => exact .bottom
      | int => exact .int
      | bool => exact .bool
      | one => exact .tuple (by simpa using .int)
      | two => exact .tuple (by simpa using .int)
    · exact .bottom
    · exact .int
    · exact .bool
    · intro ts b h t ht
      cases h with
      | one =>
        rw [mem_singleton] at ht
        exact ht ▸ .int
      | two =>
        rcases mem_pair.mp ht with rfl | rfl <;> exact .int
  by_contra hnone
  have hends : ∀ bs n, Allocates .tupleBlocks OneOrTwo (passLeaves bs) →
      ∃ r, (checkBlocks .tupleBlocks (.blocks bs n)).run = some r := by
    intro bs n hbs
    by_contra h
    exact hnone ⟨bs, n, hbs, fun r hr => h ⟨r, hr⟩⟩
  have hdistinct := (checkBlocks_ends_iff hfamily).1.mp hends
  have halike : Alike (.tuple [.int]) (.tuple [.int, .int]) := by
    refine .tuple fun pq hpq => ?_
    rw [show [Ty.int].zip [Ty.int, Ty.int] = [(.int, .int)] from rfl, mem_singleton] at hpq
    rw [hpq]
    exact .refl .int
  rcases hdistinct _ _ .one .two halike with h | h | h <;> cases h

end CompilerKit.Blocks
