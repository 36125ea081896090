import Mathlib.Data.List.Dedup
import Mathlib.Data.List.Perm.Subperm
import CompilerKit.Proofs.Blocks.Rules

/-!
# The types that a program of blocks is checked with

Where the type system tells types apart, a pass over the blocks only adds to the types of the
variables, and they are soon complete: after the first pass every variable is known, and every pass
after it that changes something finds the type of one more variable. What the passes end with are
the types under which every statement checks, with as little said of the variables as possible.

* `exists_settles`: the passes end, because each finds the type of one more variable.
* `Settles.stays_below`: no pass goes above a solution, so the passes end with the least one.
-/

namespace CompilerKit.Blocks

/-!
## The loop over passes

The blocks of a program are checked in passes until a pass leaves the types of the variables as they
are. The number of passes has no bound of its own, so that the loop may go on forever.
-/

variable {pass : Check Unit} {env : TypeTable} {r : Except CheckError TypeTable}

/-- The loop that begins with a table ends after so many passes, with a result. -/
inductive Settles (pass : Check Unit) : Nat → TypeTable → Except CheckError TypeTable → Prop where
  | refused {env e} (h : pass.run env = .error e) : Settles pass 1 env (.error e)
  | unchanged {env after} (h : pass.run env = .ok ((), after))
      (hsame : Bindings.same after env) : Settles pass 1 env (.ok after)
  | again {env after n r} (h : pass.run env = .ok ((), after))
      (hsame : Bindings.same after env = false) (hrest : Settles pass n after r) :
      Settles pass (n + 1) env r

theorem Settles.settle_eq (h : Settles pass n env r) : settle pass env = some r := by
  induction h with
  | refused h => rw [settle, h]
  | unchanged h hsame =>
    rw [settle, h]
    exact if_pos hsame
  | again h hsame _ ih =>
    rw [settle, h]
    simp only [hsame, Bool.false_eq_true, if_false, ih]

theorem settle_eq_some_iff : settle pass env = some r ↔ ∃ n, Settles pass n env r := by
  constructor
  · -- the loop is the least solution of its equation, so what every turn of it keeps holds of it
    refine settle.partial_correctness pass (fun env r => ∃ n, Settles pass n env r) ?_ env r
    intro loop ih env r h
    split at h
    · next hpass =>
      cases h
      exact ⟨1, .refused hpass⟩
    · next after hpass =>
      split at h
      · next hsame =>
        cases h
        exact ⟨1, .unchanged hpass hsame⟩
      · next hsame =>
        obtain ⟨n, hn⟩ := ih after r h
        exact ⟨n + 1, .again hpass (Bool.eq_false_iff.mpr hsame) hn⟩
  · rintro ⟨n, h⟩
    exact h.settle_eq

/-- The loop does not end if every pass comes from a table of some kind to another one of it. -/
theorem settle_eq_none {P : TypeTable → Prop}
    (hpass : ∀ env, P env → ∃ after, pass.run env = .ok ((), after) ∧
      Bindings.same after env = false ∧ P after)
    (henv : P env) : settle pass env = none := by
  have hnever : ∀ n env r, Settles pass n env r → ¬ P env := by
    intro n env r h
    induction h with
    | refused h =>
      intro hP
      obtain ⟨after, hrun, -⟩ := hpass _ hP
      cases h.symm.trans hrun
    | unchanged h hsame =>
      intro hP
      obtain ⟨after, hrun, hdiff, -⟩ := hpass _ hP
      cases h.symm.trans hrun
      cases hsame.symm.trans hdiff
    | again h _ _ ih =>
      intro hP
      obtain ⟨after, hrun, -, hafter⟩ := hpass _ hP
      cases h.symm.trans hrun
      exact ih hafter
  cases h : settle pass env with
  | none => rfl
  | some r =>
    obtain ⟨n, hn⟩ := settle_eq_some_iff.mp h
    exact absurd henv (hnever n env r hn)

end CompilerKit.Blocks

namespace CompilerKit.Blocks

open Check List Bindings Nat Prod

variable {b m : TypeTable} {S : Ty → Prop} {bs : List Block}
variable {q : String × Ty} {env : TypeTable} {n : Nat} {r : Except CheckError TypeTable}
  {bs' : List Block}

/-! ## Passes end -/

/-- Nothing is known of the type. -/
def isUnknown : Ty → Bool
  | .bottom => true
  | _ => false

/-- The number of variables that nothing is known of. -/
def unknown (env : TypeTable) : Nat := env.countP fun p => isUnknown p.2

theorem isUnknown_of_ne (h : t ≠ .bottom) : isUnknown t = false := by
  cases t with
  | bottom => exact absurd rfl h
  | _ => rfl

/-- A table that comes to know more without more variables knows the type of one more variable. -/
theorem Rises.unknown_lt (h : Rises a b) (hlen : b.length = a.length) :
    b = a ∨ unknown b < unknown a := by
  induction h with
  | nil b => exact .inl (eq_nil_of_length_eq_zero hlen)
  | @cons x s t a b hst _ ih =>
    have hrest := ih (succ.inj hlen)
    simp only [unknown, countP_cons] at hrest ⊢
    rcases hst with rfl | rfl
    · by_cases ht : t = .bottom
      · subst ht
        rcases hrest with rfl | hlt
        · exact .inl rfl
        · exact .inr (by omega)
      · rw [isUnknown_of_ne ht, show isUnknown .bottom = true from rfl, if_neg Bool.false_ne_true,
          if_pos rfl]
        rcases hrest with rfl | hlt <;> omega
    · rcases hrest with rfl | hlt
      · exact .inl rfl
      · exact .inr (by omega)

theorem Rises.length_le (h : Rises a b) : a.length ≤ b.length := by
  induction h with
  | nil b => exact zero_le _
  | cons x _ _ ih => exact succ_le_succ ih

theorem Rises.eq_of_get? (h : Rises a b) (hnodup : (b.map fst).Nodup)
    (hlen : b.length = a.length) (hget : ∀ q ∈ b, get? a q.1 = some q.2) : b = a := by
  induction h with
  | nil b => exact eq_nil_of_length_eq_zero hlen
  | @cons x s t a b _ _ ih =>
    have hhead := hget (x, t) mem_cons_self
    rw [get?, lookup_cons, beq_self_eq_true] at hhead
    cases hhead
    have hrest : ∀ q ∈ b, get? a q.1 = some q.2 := by
      intro q hq
      rw [← get?_cons_of_mem hnodup hq]
      exact hget q (mem_cons_of_mem _ hq)
    rw [ih (nodup_cons.mp hnodup).2 (succ.inj hlen) hrest]

section

variable (hS : Apart c S)
include hS

/-- Tables are compared as lists of pairs are, where one has come from the other. -/
theorem same_iff {after} (henv : Tidy S env) (hafter : Tidy S after) (h : Rises env after) :
    same after env ↔ after = env := by
  rw [same, Bool.and_eq_true, beq_iff_eq, all_eq_true]
  constructor
  · rintro ⟨hlen, hall⟩
    refine h.eq_of_get? hafter.nodup hlen fun q hq => ?_
    have hq' := hall q hq
    dsimp only at hq'
    split at hq'
    · next w hw =>
      have hS1 := hafter.valued q.1 q.2 (get?_of_mem hafter.nodup hq)
      rw [hw, (hS.beq_iff hS1 (henv.valued q.1 w hw)).mp hq']
    · cases hq'
  · rintro rfl
    refine ⟨rfl, fun q hq => ?_⟩
    have hget := get?_of_mem henv.nodup hq
    have ht := henv.valued q.1 q.2 hget
    simp only [hget]
    exact (hS.beq_iff ht ht).mpr rfl

variable {V : List String} {pass : Check Unit} (hpass : Monotone S V Anything pass pass)
include hpass

/-- Once all variables are known, a pass that changes something finds the type of one more. -/
theorem unknown_lt_of_changed {after} (henv : Tidy S env) (hV : ∀ x ∈ V, x ∈ env.map fst)
    (h : pass.run env = .ok ((), after)) (hsame : same after env = false) :
    unknown after < unknown env := by
  obtain ⟨-, hgains⟩ := hpass.gains henv h
  have hsub : after.map fst ⊆ env.map fst := by
    intro x hx
    rcases (hgains.keys x).mp hx with hx | hx
    · exact hx
    · exact hV x hx
  have hle := (subperm_of_subset hgains.tidy.nodup hsub).length_le
  rw [length_map, length_map] at hle
  rcases hgains.rises.unknown_lt (Nat.le_antisymm hle hgains.rises.length_le) with heq | hlt
  · rw [(same_iff hS henv hgains.tidy hgains.rises).mpr heq] at hsame
    cases hsame
  · exact hlt

/-- Once all variables are known, there is at most one pass for each variable that nothing is known
of, and one that changes nothing. -/
theorem exists_settles_known (henv : Tidy S env) (hV : ∀ x ∈ V, x ∈ env.map fst) :
    ∃ n r, n ≤ unknown env + 1 ∧ Settles pass n env r := by
  induction hk : unknown env using Nat.strongRecOn generalizing env with
  | _ k ih =>
    cases h : pass.run env with
    | error e => exact ⟨1, _, le_add_left 1 k, .refused h⟩
    | ok p =>
      obtain ⟨⟨⟩, after⟩ := p
      cases hsame : same after env with
      | true => exact ⟨1, _, le_add_left 1 k, .unchanged h hsame⟩
      | false =>
        have hlt := unknown_lt_of_changed hS hpass henv hV h hsame
        obtain ⟨-, hgains⟩ := hpass.gains henv h
        have hV' : ∀ x ∈ V, x ∈ after.map fst := fun x hx => (hgains.keys x).mpr (.inr hx)
        obtain ⟨n, r, hn, hsettles⟩ := ih _ (hk ▸ hlt) hgains.tidy hV' rfl
        exact ⟨n + 1, r, by omega, .again h hsame hsettles⟩

/-- The first pass comes to know all variables. -/
theorem exists_settles : ∃ n r, n ≤ V.dedup.length + 2 ∧ Settles pass n [] r := by
  have hnil : Tidy S [] := ⟨.nil, fun x t h => by cases h⟩
  cases h : pass.run [] with
  | error e => exact ⟨1, _, by omega, .refused h⟩
  | ok p =>
    obtain ⟨⟨⟩, after⟩ := p
    cases hsame : same after [] with
    | true => exact ⟨1, _, by omega, .unchanged h hsame⟩
    | false =>
      obtain ⟨-, hgains⟩ := hpass.gains hnil h
      have hkeys : ∀ x, x ∈ after.map fst ↔ x ∈ V := by simpa using hgains.keys
      obtain ⟨n, r, hn, hsettles⟩ :=
        exists_settles_known hS hpass hgains.tidy fun x hx => (hkeys x).mpr hx
      have hsub : after.map fst ⊆ V.dedup := fun x hx => mem_dedup.mpr ((hkeys x).mp hx)
      have hlen := (subperm_of_subset hgains.tidy.nodup hsub).length_le
      have hunknown : unknown after ≤ after.length := countP_le_length
      rw [length_map] at hlen
      exact ⟨n + 1, r, by omega, .again h hsame hsettles⟩

/-! ## What passes end with -/

/-- A table that the passes end with is left as it is by a pass. -/
theorem Settles.fixed (h : Settles pass n env r) (henv : Tidy S env) (hr : r = .ok m) :
    Tidy S m ∧ pass.run m = .ok ((), m) := by
  induction h with
  | refused _ => cases hr
  | unchanged h hsame =>
    cases hr
    obtain ⟨-, hgains⟩ := hpass.gains henv h
    have heq := (same_iff hS henv hgains.tidy hgains.rises).mp hsame
    subst heq
    exact ⟨henv, h⟩
  | again h _ _ ih => exact ih (hpass.gains henv h).2.tidy hr

omit hS in
/-- The passes stay below every table that a pass leaves as it is. -/
theorem Settles.stays_below (h : Settles pass n env r) (hm : pass.run m = .ok ((), m))
    (hrel : Related S env m) : ∃ m', r = .ok m' ∧ Related S m' m := by
  induction h with
  | refused h =>
    obtain ⟨_, _, hrun, -⟩ := hpass.below hrel hm
    cases h.symm.trans hrun
  | unchanged h _ =>
    obtain ⟨_, _, hrun, -, hrel'⟩ := hpass.below hrel hm
    cases h.symm.trans hrun
    exact ⟨_, rfl, hrel'⟩
  | again h _ _ ih =>
    obtain ⟨_, _, hrun, -, hrel'⟩ := hpass.below hrel hm
    cases h.symm.trans hrun
    exact ih hrel'

end

/-! ## Solutions -/

/-- Types of the variables under which everything that a pass comes to is checked, so that there is
nothing to add to them. -/
structure Solves (c : TypeSystem) (S : Ty → Prop) (bs : List Block) (m : TypeTable) : Prop where
  tidy : Tidy S m
  bodies : ∀ s ∈ bodies bs, (blockStmt c s).run m = .ok ((), m)
  ending : ∃ s t, ending? bs = some s ∧ (blockTail c s).run m = .ok (t, m)

/-- The result is the least solution, or a refusal if there is none. -/
structure IsLeastOutcome (c : TypeSystem) (S : Ty → Prop) (bs : List Block)
    (r : Except CheckError TypeTable) : Prop where
  solution : ∀ m, r = .ok m → Solves c S bs m
  least : ∀ m m', r = .ok m → Solves c S bs m' → TableBelow m m'
  refused : ∀ e, r = .error e → ¬ ∃ m, Solves c S bs m

/-- A check that comes back to the table that it began with has not left it. -/
theorem Monotone.run_bind_iff {V W α β} {R : α → α → Prop} {Q : β → β → Prop} {x} {f : α → Check β}
    (hx : Monotone S V R x x) (hf : ∀ a b, R a b → Monotone S W Q (f a) (f b)) (hm : Tidy S m) {b} :
    (x >>= f).run m = .ok (b, m) ↔ ∃ a, x.run m = .ok (a, m) ∧ (f a).run m = .ok (b, m) := by
  constructor
  · intro h
    obtain ⟨a, mid, hrun, hrest⟩ := bind_ok h
    obtain ⟨ha, hmid⟩ := hx.gains hm hrun
    obtain ⟨-, hback⟩ := (hf a a ha).gains hmid.tidy hrest
    have heq := hmid.rises.antisymm hback.rises
    subst heq
    exact ⟨a, hrun, hrest⟩
  · rintro ⟨a, hrun, hrest⟩
    rwa [StateT.run_bind, hrun]

theorem run_checkEnding_iff :
    (checkEnding c bs).run m = .ok ((), m) ↔
      ∃ s t, ending? bs = some s ∧ (blockTail c s).run m = .ok (t, m) := by
  rw [checkEnding]
  cases hend : ending? bs with
  | none =>
    constructor
    · intro h
      cases h
    · rintro ⟨s, t, hs, -⟩
      cases hs
  | some s =>
    constructor
    · intro h
      obtain ⟨t, mid, hrun, hrest⟩ := bind_ok h
      cases hrest
      exact ⟨s, t, rfl, hrun⟩
    · rintro ⟨s, t, hs, hrun⟩
      cases hs
      rw [StateT.run_bind, hrun]
      rfl

section

variable (hS : Apart c S) (hc : c.hasArrays = false)
include hS hc

theorem run_blockStmts_iff (hss : Allocates c S (stmtsLeaves ss)) (hm : Tidy S m) :
    (blockStmts c ss).run m = .ok ((), m) ↔ ∀ s ∈ ss, (blockStmt c s).run m = .ok ((), m) := by
  induction ss with
  | nil =>
    exact ⟨fun _ s hs => (not_mem_nil hs).elim, fun _ => rfl⟩
  | cons s ss ih =>
    rw [stmtsLeaves, allocates_append] at hss
    have hs := monotone_blockStmt hS hc s hss.1
    have hrest := monotone_blockStmts hS hc ss hss.2
    rw [blockStmts, hs.run_bind_iff (fun _ _ _ => hrest) hm, forall_mem_cons, ← ih hss.2]
    constructor
    · rintro ⟨_, h⟩
      exact h
    · intro h
      exact ⟨(), h⟩

variable (hbs : Allocates c S (passLeaves bs))
include hbs

theorem solves_iff : Solves c S bs m ↔ Tidy S m ∧ (blocksPass c bs).run m = .ok ((), m) := by
  rw [passLeaves, stmtsLeaves_append, allocates_append] at hbs
  have hbodies := monotone_blockStmts hS hc (bodies bs) hbs.1
  have hend := monotone_checkEnding hS hc bs hbs.2
  have hpass {m : TypeTable} (hm : Tidy S m) : (blocksPass c bs).run m = .ok ((), m) ↔
      (∀ s ∈ bodies bs, (blockStmt c s).run m = .ok ((), m)) ∧
        ∃ s t, ending? bs = some s ∧ (blockTail c s).run m = .ok (t, m) := by
    rw [blocksPass_eq, hbodies.run_bind_iff (fun _ _ _ => hend) hm, ← run_checkEnding_iff,
      ← run_blockStmts_iff hS hc hbs.1 hm]
    constructor
    · rintro ⟨_, h⟩
      exact h
    · intro h
      exact ⟨(), h⟩
  constructor
  · intro h
    exact ⟨h.tidy, (hpass h.tidy).mpr ⟨h.bodies, h.ending⟩⟩
  · rintro ⟨hm, h⟩
    obtain ⟨hstmts, hending⟩ := (hpass hm).mp h
    exact ⟨hm, hstmts, hending⟩

theorem Settles.isLeastOutcome (h : Settles (blocksPass c bs) n [] r) :
    IsLeastOutcome c S bs r := by
  have hpass := monotone_blocksPass hS hc bs hbs
  have hnil : Valued S [] := fun x t hx => by cases hx
  have hleast {m : TypeTable} (hm : Solves c S bs m) : ∃ m', r = .ok m' ∧ Related S m' m := by
    obtain ⟨htidy, hrun⟩ := (solves_iff hS hc hbs).mp hm
    exact h.stays_below hpass hrun ⟨hnil, htidy.valued, fun x s hx => by cases hx⟩
  constructor
  · intro m hr
    exact (solves_iff hS hc hbs).mpr (h.fixed hS hpass ⟨.nil, hnil⟩ hr)
  · rintro m m' rfl hm'
    obtain ⟨_, hr, hrel⟩ := hleast hm'
    cases hr
    exact hrel.below
  · rintro e rfl ⟨m, hm⟩
    obtain ⟨_, hr, -⟩ := hleast hm
    cases hr

end

/-! ## Whole programs -/

/-- A program with the types of its variables. -/
def recorded (bs : List Block) (n : Note) (m : TypeTable) : Program :=
  .blocks bs { n with types := some m.toTerm }

theorem checkBlocks_eq (hc : c.hasFunctions = false) (bs n) :
    (checkBlocks c (.blocks bs n)).run =
      (settle (blocksPass c bs) []).map fun r => r.map (recorded bs n) := by
  have hrun : (checkBlocks c (.blocks bs n)).run =
      (ExceptT.mk (settle (blocksPass c bs) []) >>= fun types =>
        pure (.blocks bs { n with types := some types.toTerm })).run := by
    rw [checkBlocks, hc, if_neg Bool.false_ne_true]
  rw [hrun]
  rcases settle (blocksPass c bs) [] with _ | _ | _ <;> rfl

theorem run_checkBlocks (hc : c.hasFunctions = false) (h : settle (blocksPass c bs) [] = some r)
    (n) : (checkBlocks c (.blocks bs n)).run = some (r.map (recorded bs n)) := by
  rw [checkBlocks_eq hc, h]
  rfl

/-- The types of numbers and truth values, and nothing that is known. -/
inductive Simple : Ty → Prop where
  | bottom : Simple .bottom
  | int : Simple .int
  | bool : Simple .bool

theorem apart_simple : Apart .conditionalBlocks Simple where
  forgives := rfl
  bottom := .bottom
  int := .int
  bool := .bool
  parts h := by cases h
  accepts place h := by cases h <;> rfl
  tells hs ht h := by
    cases hs <;> cases ht <;> cases h <;> simp
  beq_iff hs ht := by
    cases hs <;> cases ht <;> constructor <;> intro h <;> cases h <;> rfl

/-- The blocks before the last one are in another order. -/
def Reordered (bs bs' : List Block) : Prop :=
  ∃ init init' last, bs = init ++ [last] ∧ bs' = init' ++ [last] ∧ init.Perm init'

/-- Both results are refusals, or they say the same of every variable. -/
def SameOutcome : Except CheckError TypeTable → Except CheckError TypeTable → Prop
  | .ok m, .ok m' => ∀ x, get? m x = get? m' x
  | .error _, .error _ => True
  | _, _ => False

theorem Reordered.solves (h : Reordered bs bs') (hm : Solves c S bs' m) : Solves c S bs m := by
  obtain ⟨init, init', last, rfl, rfl, hperm⟩ := h
  refine ⟨hm.tidy, fun s hs => hm.bodies s ?_, ?_⟩
  · exact ((hperm.append_right [last]).flatMap_right body).mem_iff.mp hs
  · have hend := hm.ending
    rw [ending?, getLast?_concat] at hend ⊢
    exact hend

theorem Reordered.symm (h : Reordered bs bs') : Reordered bs' bs := by
  obtain ⟨init, init', last, hbs, hbs', hperm⟩ := h
  exact ⟨init', init, last, hbs', hbs, hperm.symm⟩

theorem TableBelow.get?_eq (h : TableBelow a b) (h' : TableBelow b a) (x) :
    get? a x = get? b x := by
  cases ha : get? a x with
  | some s =>
    obtain ⟨t, ht, hst⟩ := h x s ha
    obtain ⟨_, hs, hts⟩ := h' x t ht
    cases ha.symm.trans hs
    rw [ht, hst.antisymm hts]
  | none =>
    cases hb : get? b x with
    | none => rfl
    | some t =>
      obtain ⟨_, hs, -⟩ := h' x t hb
      cases ha.symm.trans hs

theorem IsLeastOutcome.same (hr : IsLeastOutcome c S bs r) (hr' : IsLeastOutcome c S bs' r')
    (h : Reordered bs bs') : SameOutcome r r' := by
  cases r with
  | ok m =>
    have hm := h.symm.solves (hr.solution m rfl)
    cases r' with
    | ok m' =>
      have hm' := h.solves (hr'.solution m' rfl)
      exact (hr.least m m' rfl hm').get?_eq (hr'.least m' m rfl hm)
    | error e => exact absurd ⟨m, hm⟩ (hr'.refused e rfl)
  | error e =>
    cases r' with
    | ok m' => exact absurd ⟨m', h.solves (hr'.solution m' rfl)⟩ (hr.refused e rfl)
    | error e' => trivial

theorem exists_settles_simple (bs) :
    ∃ k r, k ≤ (variablesOf (passLeaves bs)).dedup.length + 2 ∧
      Settles (blocksPass .conditionalBlocks bs) k [] r ∧
      IsLeastOutcome .conditionalBlocks Simple bs r := by
  have halloc : Allocates .conditionalBlocks Simple (passLeaves bs) := fun h => by cases h
  obtain ⟨k, r, hk, h⟩ :=
    exists_settles apart_simple (monotone_blocksPass apart_simple rfl bs halloc)
  exact ⟨k, r, hk, h, h.isLeastOutcome apart_simple rfl halloc⟩

/-- A program of numbers and truth values is checked in at most two passes more than it has
variables. It is accepted if there are types of its variables under which every statement that is
looked at is checked, and the least ones are recorded. So the order of the blocks before the last
one does not matter. -/
theorem checkBlocks_least (bs : List Block) (n : Note) :
    ∃ k r, k ≤ (variablesOf (passLeaves bs)).dedup.length + 2 ∧
      Settles (blocksPass .conditionalBlocks bs) k [] r ∧
      (checkBlocks .conditionalBlocks (.blocks bs n)).run = some (r.map (recorded bs n)) ∧
      IsLeastOutcome .conditionalBlocks Simple bs r ∧
      ∀ bs', Reordered bs bs' → ∃ r',
        (checkBlocks .conditionalBlocks (.blocks bs' n)).run = some (r'.map (recorded bs' n)) ∧
        SameOutcome r r' := by
  obtain ⟨k, r, hk, h, hr⟩ := exists_settles_simple bs
  refine ⟨k, r, hk, h, run_checkBlocks rfl h.settle_eq n, hr, fun bs' hbs' => ?_⟩
  obtain ⟨k', r', -, h', hr'⟩ := exists_settles_simple bs'
  exact ⟨r', run_checkBlocks rfl h'.settle_eq n, hr.same hr' hbs'⟩

/-- A variable is assigned to from one whose type is found in a later block. -/
def laterTyped : List Block :=
  [.mk "start" [.assign [.name "x" {}] (.name "y" {}) {}, .goto "middle" {}],
    .mk "middle" [.assign [.name "y" {}] (.const (.int 1 0) {}) {}, .goto "end" {}],
    .mk "end" [.ret (.name "x" {}) {}]]

theorem checkBlocks_least_laterTyped :
    ∃ m, (checkBlocks .conditionalBlocks (.blocks laterTyped {})).run =
        some (.ok (recorded laterTyped {} m)) ∧
      TableBelow m [("x", .int), ("y", .int)] := by
  have hsolves : Solves .conditionalBlocks Simple laterTyped [("x", .int), ("y", .int)] := by
    have hempty : Valued Simple [] := fun x t ht => by cases ht
    have hvalued : Valued Simple [("x", .int), ("y", .int)] := (hempty.put "x" .int).put "y" .int
    exact (solves_iff apart_simple rfl fun h => by cases h).mpr ⟨⟨by decide, hvalued⟩, rfl⟩
  obtain ⟨k, r, -, -, hrun, hr, -⟩ := checkBlocks_least laterTyped {}
  cases r with
  | error e => exact absurd ⟨_, hsolves⟩ (hr.refused e rfl)
  | ok m => exact ⟨m, hrun, hr.least m _ rfl hsolves⟩

/-- Where a program of numbers and truth values is accepted, all statements but the last ones of the
blocks are checked under the types that are recorded, and so is the last one of the last block. The
last ones of the other blocks are not looked at: the program is accepted with the same types
whatever they are. -/
theorem checkBlocks_covers {bs : List Block} {n : Note} {q : Program}
    (h : (checkBlocks .conditionalBlocks (.blocks bs n)).run = some (.ok q)) :
    ∃ m, q = recorded bs n m ∧
      (∀ b ∈ bs, (blockStmts .conditionalBlocks (body b)).run m = .ok ((), m)) ∧
      (∃ s t, ending? bs = some s ∧ (blockTail .conditionalBlocks s).run m = .ok (t, m)) ∧
      ∀ init init' last, bs = init ++ [last] → init'.map body = init.map body →
        (checkBlocks .conditionalBlocks (.blocks (init' ++ [last]) n)).run =
          some (.ok (recorded (init' ++ [last]) n m)) := by
  obtain ⟨k, r, -, hsettles, hr⟩ := exists_settles_simple bs
  rw [run_checkBlocks rfl hsettles.settle_eq n] at h
  cases r with
  | error e => cases h
  | ok m =>
    cases h
    have hm := hr.solution m rfl
    refine ⟨m, rfl, fun b hb => ?_, hm.ending, ?_⟩
    · have hbody : ∀ s ∈ body b, s ∈ bodies bs := fun s hs => mem_flatMap.mpr ⟨b, hb, hs⟩
      rw [run_blockStmts_iff apart_simple rfl (fun h => by cases h) hm.tidy]
      exact fun s hs => hm.bodies s (hbody s hs)
    · rintro init init' last rfl hinit
      have hpass : blocksPass .conditionalBlocks (init' ++ [last]) =
          blocksPass .conditionalBlocks (init ++ [last]) := by
        have hbodies : bodies (init' ++ [last]) = bodies (init ++ [last]) := by
          simp only [bodies, flatMap_def, map_append, hinit]
        rw [blocksPass_eq, blocksPass_eq, hbodies, checkEnding_concat, checkEnding_concat]
      exact run_checkBlocks rfl (hpass ▸ hsettles.settle_eq) n

/-- A number is compared with a truth value at the end of the first block. -/
def mixedJump : List Block :=
  [.mk "start" [.ite (.compare (.const (.int 1 0) {}) [.eq] [.const (.bool true) {}] {})
      [.goto "end" {}] [.goto "end" {}] {}],
    .mk "end" [.ret (.const (.int 0 0) {}) {}]]

theorem checkBlocks_covers_mixedJump :
    (∃ m, (checkBlocks .conditionalBlocks (.blocks mixedJump {})).run =
        some (.ok (recorded mixedJump {} m)) ∧
      ∃ s t, ending? mixedJump = some s ∧ (blockTail .conditionalBlocks s).run m = .ok (t, m)) ∧
    ∃ l code s e, .mk l code ∈ mixedJump ∧ code.getLast? = some s ∧
      ∀ m, (blockTail .conditionalBlocks s).run m = .error e := by
  have hsettles : Settles (blocksPass .conditionalBlocks mixedJump) 1 [] (.ok []) :=
    .unchanged rfl rfl
  have hrun := run_checkBlocks rfl hsettles.settle_eq {}
  obtain ⟨m, hq, -, hend, -⟩ := checkBlocks_covers hrun
  exact ⟨⟨m, hq ▸ hrun, hend⟩, _, _, _, _, List.mem_cons_self, rfl, fun m => rfl⟩

end CompilerKit.Blocks
