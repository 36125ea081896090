import CompilerKit.Proofs.Functions.Program
import CompilerKit.Proofs.Loops.Sound

/-!
# Typed stores of the language of functions

A world says which type each sequence of the heap has, and under which table each environment is
typed. It only grows: what is new gets a type, and what is there keeps its own. The operations of
evaluation keep a store that fits a world.
-/

namespace CompilerKit.Functions

open Run Bindings Array EStateM Vars

/-! ## Worlds -/

/-- The types of sequences, the tables of environments, and the environment of the main program. -/
structure World where
  seqs : Nat → Option Ty
  envs : Nat → Option TypeTable
  top : Nat

variable {p i : Nat} {v : Value} {t : Ty} {ps ts : List Ty} {vs : List Value} {s : Sequence}
  {env : Env} {Γ Δ : TypeTable} {x : String} {d : Def}

namespace World

/-- The second world has what the first one has. -/
structure Grows (w w' : World) : Prop where
  seqs : ∀ p t, w.seqs p = some t → w'.seqs p = some t
  envs : ∀ i Γ, w.envs i = some Γ → w'.envs i = some Γ
  top : w'.top = w.top

variable {w w' w'' : World}

theorem Grows.refl (w : World) : w.Grows w := ⟨fun _ _ h => h, fun _ _ h => h, rfl⟩

theorem Grows.trans (h : w.Grows w') (h' : w'.Grows w'') : w.Grows w'' where
  seqs p t hp := h'.seqs p t (h.seqs p t hp)
  envs i Γ hi := h'.envs i Γ (h.envs i Γ hi)
  top := h'.top.trans h.top

/-- The world with a type for one more sequence. -/
def withSeq (w : World) (p : Nat) (t : Ty) : World :=
  { w with seqs := fun q => if q = p then some t else w.seqs q }

/-- The world with a table for one more environment. -/
def withEnv (w : World) (i : Nat) (Γ : TypeTable) : World :=
  { w with envs := fun j => if j = i then some Γ else w.envs j }

theorem of_extended {f : Nat → Option α} (h : (if j = i then some a else f j) = some b) :
    j = i ∧ a = b ∨ j ≠ i ∧ f j = some b := by
  split at h
  · exact .inl ⟨‹_›, Option.some.inj h⟩
  · exact .inr ⟨‹_›, h⟩

end World

/-! ## Values -/

/-- Values of a type. A function is one of the program, in the environment of the main program.
Statements that come to their end without returning give a zero. -/
inductive HasTy (ds : List Def) (w : World) : Value → Ty → Prop where
  | int (i : Int) (id) : HasTy ds w (.int i id) .int
  | bool (b) : HasTy ds w (.bool b) .bool
  | none : HasTy ds w .none .void
  | zero (id) : HasTy ds w (.int 0 id) .void
  | seq {p : Nat} {t : Ty} (ht : IsAggregate t) (hp : w.seqs p = some t) : HasTy ds w (.seq p) t
  | function {d : Def} (hd : d ∈ ds) (id) : HasTy ds w (d.value w.top id) d.type

/-- Values of types, one by one. -/
inductive HasTys (ds : List Def) (w : World) : List Value → List Ty → Prop where
  | nil : HasTys ds w [] []
  | cons {v : Value} {vs : List Value} {t : Ty} {ts : List Ty} (hv : HasTy ds w v t)
      (hvs : HasTys ds w vs ts) : HasTys ds w (v :: vs) (t :: ts)

/-- The type of a cell of an aggregate. -/
def cellType? : Ty → Nat → Option Ty
  | .tuple ts _, i => ts[i]?
  | .list t, _ => some t
  | _, _ => none

/-- A sequence whose cells have the types that the type of the sequence gives them. -/
structure SeqTyped (ds : List Def) (w : World) (s : Sequence) (t : Ty) : Prop where
  isList : s.isList
  size : ∀ ts b, t = .tuple ts b → s.cells.size = ts.length
  cells : ∀ i v, s.cells[i]? = some v → ∃ u, cellType? t i = some u ∧ HasTy ds w v u

/-- The variables of an environment that have a type have values of it. -/
def EnvTyped (ds : List Def) (w : World) (env : Env) (Γ : TypeTable) : Prop :=
  ∀ x v t, get? env x = some v → get? Γ x = some t → HasTy ds w v t

section

variable {ds : List Def} {w w' : World}

theorem HasTy.mono (h : HasTy ds w v t) (hw : w.Grows w') : HasTy ds w' v t := by
  cases h with
  | int i id => exact .int i id
  | bool b => exact .bool b
  | none => exact .none
  | zero id => exact .zero id
  | seq ht hp => exact .seq ht (hw.seqs _ _ hp)
  | function hd id =>
    rw [← hw.top]
    exact .function hd id

theorem HasTy.exists_def (h : HasTy ds w v (.function ps r b)) :
    ∃ d ∈ ds, ∃ id, v = d.value w.top id ∧ d.params.map Prod.snd = ps ∧ d.result = r := by
  generalize hfun : Ty.function ps r b = t at h
  cases h with
  | @function d hd id =>
    cases hfun
    exact ⟨d, hd, id, rfl, rfl, rfl⟩
  | seq ht =>
    subst hfun
    cases ht
  | _ => cases hfun

theorem HasTy.exists_int (h : HasTy ds w v .int) : ∃ i id, v = .int i id := by
  cases h with
  | int i id => exact ⟨i, id, rfl⟩
  | seq ht => cases ht

theorem HasTy.ofKind {k : Loops.Kind} (h : Loops.OfKind k v) : HasTy ds w v k.ty := by
  cases h with
  | int i id => exact .int i id
  | bool b => exact .bool b

theorem HasTy.isInt (h : HasTy ds w v .int) : Loops.OfKind .int v := by
  obtain ⟨i, id, rfl⟩ := h.exists_int
  exact .int i id

theorem HasTy.exists_bool (h : HasTy ds w v .bool) : ∃ b, v = .bool b := by
  cases h with
  | bool b => exact ⟨b, rfl⟩
  | seq ht => cases ht

theorem HasTys.mono (h : HasTys ds w vs ts) (hw : w.Grows w') : HasTys ds w' vs ts := by
  induction h with
  | nil => exact .nil
  | cons hv _ ih => exact .cons (hv.mono hw) ih

theorem HasTys.get (h : HasTys ds w vs ts) (hv : vs[i]? = some v) :
    ∃ t, ts[i]? = some t ∧ HasTy ds w v t := by
  induction h generalizing i with
  | nil => cases hv
  | cons hhead _ ih =>
    cases i with
    | zero =>
      cases hv
      exact ⟨_, rfl, hhead⟩
    | succ i => exact ih hv

theorem HasTys.length_eq (h : HasTys ds w vs ts) : vs.length = ts.length := by
  induction h with
  | nil => rfl
  | cons _ _ ih => rw [List.length_cons, List.length_cons, ih]

theorem SeqTyped.mono (h : SeqTyped ds w s t) (hw : w.Grows w') :
    SeqTyped ds w' s t where
  isList := h.isList
  size := h.size
  cells i v hv := by
    obtain ⟨u, hu, hvu⟩ := h.cells i v hv
    exact ⟨u, hu, hvu.mono hw⟩

theorem EnvTyped.mono (h : EnvTyped ds w env Γ) (hw : w.Grows w') :
    EnvTyped ds w' env Γ := fun x v t hx ht => (h x v t hx ht).mono hw

theorem EnvTyped.put (h : EnvTyped ds w env Γ) (hx : get? Γ x = some t)
    (hv : HasTy ds w v t) : EnvTyped ds w (put env x v) Γ := by
  intro y u s hy hs
  rw [get?_put] at hy
  split at hy
  · next hyx =>
    rw [beq_iff_eq.mp hyx, hx] at hs
    cases hy
    cases hs
    exact hv
  · exact h y u s hy hs

end

/-! ## Stores -/

/-- The names that a program gives values to, in the main program or in a function. -/
def IsVariable (ss : List Stmt) (x : String) : Prop :=
  x ∈ assigned (stmtsParts ss) ∨ x ∈ ss.filterMap definedName? ∨
    ∃ d ∈ defs ss, x ∈ d.names ∨ x ∈ assigned (stmtsParts d.body)

/-- The store is typed by the world, for a program under the table of its main program. -/
structure Fits (table : TypeTable) (ss : List Stmt) (w : World) (σ : Store) : Prop where
  seqs : ∀ p t, w.seqs p = some t → ∃ s, σ.heap[p]? = some s ∧ SeqTyped (defs ss) w s t
  envs : ∀ i Γ, w.envs i = some Γ → ∃ env, σ.envs[i]? = some env ∧ EnvTyped (defs ss) w env Γ
  main : w.envs w.top = some table
  /-- The main program has no variables but those of the table. -/
  names : ∀ env x v, σ.envs[w.top]? = some env → get? env x = some v → ∃ t, get? table x = some t
  known : ∀ i Γ x t, w.envs i = some Γ → get? Γ x = some t → IsVariable ss x

/-- A failure that the type system does not prevent. -/
inductive Excused (ss : List Stmt) : RunError → Prop where
  /-- The run is longer than the number of steps that it is looked at for. -/
  | outOfFuel : Excused ss (.fault .outOfFuel)
  | trapped : Excused ss .indexOutOfBounds
  /-- Positions count from the end when negative, and only the other end is checked. -/
  | outOfRange : Excused ss (.fault .outOfRange)
  | input (h : Vars.IsInputError e) : Excused ss e
  /-- A variable is read that has no value yet. -/
  | unassigned {x : String} (hx : IsVariable ss x) :
      Excused ss (.fault (.missingKey (Text.quote x)))

/-- The result of an operation: what it should give, in a store that fits a larger world, or a
failure that is excused. -/
inductive Kept (table : TypeTable) (ss : List Stmt) (w : World) {α : Type}
    (P : World → α → Prop) : EStateM.Result RunError Store α → Prop where
  | ok {w'} (hw : w.Grows w') (ha : P w' a) (hσ : Fits table ss w' σ) : Kept table ss w P (.ok a σ)
  | error (he : Excused ss e) : Kept table ss w P (.error e σ)

section

variable {table : TypeTable} {ss : List Stmt} {w : World} {σ : Store}

namespace Kept

variable {α β : Type} {P Q : World → α → Prop}

theorem mono (h : Kept table ss w P r) (hPQ : ∀ w' a, P w' a → Q w' a) : Kept table ss w Q r := by
  cases h with
  | ok hw ha hσ => exact .ok hw (hPQ _ _ ha) hσ
  | error he => exact .error he

theorem bind {x : Run α} {f : α → Run β} {R : World → β → Prop}
    (hx : Kept table ss w P (x.run σ))
    (hf : ∀ a w' σ', w.Grows w' → P w' a → Fits table ss w' σ' →
      Kept table ss w' R ((f a).run σ')) :
    Kept table ss w R ((x >>= f).run σ) := by
  rw [run_bind]
  generalize x.run σ = r at hx
  cases hx with
  | error he => exact .error he
  | @ok a σ' w' hw ha hσ =>
    have hnext := hf a w' σ' hw ha hσ
    dsimp only
    generalize (f a).run σ' = r at hnext
    cases hnext with
    | ok hw' hb hσ' => exact .ok (hw.trans hw') hb hσ'
    | error he => exact .error he

end Kept

namespace Fits

variable (hσ : Fits table ss w σ)
include hσ

theorem congr (hheap : σ'.heap = σ.heap) (henvs : σ'.envs = σ.envs) : Fits table ss w σ' where
  seqs := by
    rw [hheap]
    exact hσ.seqs
  envs := by
    rw [henvs]
    exact hσ.envs
  main := hσ.main
  names := by
    rw [henvs]
    exact hσ.names
  known := hσ.known

theorem envs_lt (hi : w.envs i = some Γ) : i < σ.envs.size := by
  obtain ⟨env, henv, -⟩ := hσ.envs i Γ hi
  exact (Array.getElem?_eq_some_iff.mp henv).1

theorem grows_withSeq (t) : w.Grows (w.withSeq σ.heap.size t) where
  seqs p u hp := by
    obtain ⟨s, hs, -⟩ := hσ.seqs p u hp
    have hlt := (Array.getElem?_eq_some_iff.mp hs).1
    exact (if_neg (Nat.ne_of_lt hlt)).trans hp
  envs _ _ h := h
  top := rfl

theorem grows_withEnv (Γ) : w.Grows (w.withEnv σ.envs.size Γ) where
  seqs _ _ h := h
  envs _ _ hi := (if_neg (Nat.ne_of_lt (hσ.envs_lt hi))).trans hi
  top := rfl

theorem push (hs : SeqTyped (defs ss) w s t) :
    Fits table ss (w.withSeq σ.heap.size t) { σ with heap := σ.heap.push s } := by
  have hgrows := hσ.grows_withSeq t
  refine ⟨fun p u hp => ?_, fun i Γ hi => ?_, hσ.main, hσ.names, hσ.known⟩
  · obtain ⟨rfl, rfl⟩ | ⟨hsize, hp⟩ := World.of_extended hp
    · exact ⟨s, getElem?_push_size, hs.mono hgrows⟩
    · obtain ⟨s', hs', htyped⟩ := hσ.seqs p u hp
      refine ⟨s', ?_, htyped.mono hgrows⟩
      rwa [getElem?_push, if_neg hsize]
  · obtain ⟨env, henv, htyped⟩ := hσ.envs i Γ hi
    exact ⟨env, henv, htyped.mono hgrows⟩

theorem pushEnv (henv : EnvTyped (defs ss) w env Γ)
    (hΓ : ∀ x t, get? Γ x = some t → IsVariable ss x) :
    Fits table ss (w.withEnv σ.envs.size Γ) { σ with envs := σ.envs.push env } := by
  have hgrows := hσ.grows_withEnv Γ
  have hne : w.top ≠ σ.envs.size := Nat.ne_of_lt (hσ.envs_lt hσ.main)
  refine ⟨fun p t hp => ?_, fun i Δ hi => ?_, hgrows.envs _ _ hσ.main, fun env' x v henv' hx => ?_,
    fun i Δ x t hi hx => ?_⟩
  · obtain ⟨s, hs, htyped⟩ := hσ.seqs p t hp
    exact ⟨s, hs, htyped.mono hgrows⟩
  · obtain ⟨rfl, rfl⟩ | ⟨hsize, hi⟩ := World.of_extended hi
    · exact ⟨env, getElem?_push_size, henv.mono hgrows⟩
    · obtain ⟨env', henv', htyped⟩ := hσ.envs i Δ hi
      refine ⟨env', ?_, htyped.mono hgrows⟩
      rwa [getElem?_push, if_neg hsize]
  · change (σ.envs.push env)[w.top]? = some env' at henv'
    rw [getElem?_push, if_neg hne] at henv'
    exact hσ.names env' x v henv' hx
  · obtain ⟨-, rfl⟩ | ⟨-, hi⟩ := World.of_extended hi
    · exact hΓ x t hx
    · exact hσ.known i Δ x t hi hx

end Fits

/-! ## Operations -/

/-- An operation that gives a value of the type. -/
abbrev KeptTy (table : TypeTable) (ss : List Stmt) (w : World) (t : Ty) :
    EStateM.Result RunError Store Value → Prop :=
  Kept table ss w fun w v => HasTy (defs ss) w v t

/-- An operation that gives nothing. -/
abbrev KeptUnit (table : TypeTable) (ss : List Stmt) (w : World) :
    EStateM.Result RunError Store Unit → Prop :=
  Kept table ss w fun _ _ => True

section Operations

/-- A cell of an aggregate, at a position that may be counted from the end. -/
inductive CellAt : Ty → Int → Ty → Prop where
  | part {ts b k t} (hk : HasPart ts k t) : CellAt (.tuple ts b) k t
  | item (t : Ty) (k : Int) : CellAt (.list t) k t

theorem CellAt.isAggregate (h : CellAt t k u) : IsAggregate t := by
  cases h with
  | part => exact .tuple _ _
  | item => exact .list _

theorem SeqTyped.cellType (hs : SeqTyped (defs ss) w s t) (hcell : CellAt t k u)
    (hp : Value.position s.cells.size k = .ok p) : cellType? t p = some u := by
  cases hcell with
  | part hk =>
    obtain ⟨q, hq, hu⟩ := hk
    rw [hs.size _ _ rfl, hq] at hp
    cases hp
    exact hu
  | item => rfl

theorem position_error (h : Value.position n k = .error f) : f = .outOfRange := by
  unfold Value.position at h
  split at h <;> split at h <;> cases h <;> rfl

theorem SeqTyped.set (hs : SeqTyped (defs ss) w s t) (hq : cellType? t q = some u)
    (hc : HasTy (defs ss) w c u) : SeqTyped (defs ss) w { s with cells := s.cells.set! q c } t where
  isList := hs.isList
  size ts b ht := by
    rw [set!_eq_setIfInBounds, size_setIfInBounds]
    exact hs.size ts b ht
  cells i v hv := by
    rw [set!_eq_setIfInBounds, getElem?_setIfInBounds] at hv
    split at hv
    · next hqi =>
      subst hqi
      split at hv
      · cases hv
        exact ⟨u, hq, hc⟩
      · cases hv
    · exact hs.cells i v hv

/-- Arguments for parameters of the types, as far as both go. -/
def ArgsTyped (ds : List Def) (w : World) (vs : List Value) (ts : List Ty) : Prop :=
  ∀ (i : Nat) v t, vs[i]? = some v → ts[i]? = some t → HasTy ds w v t

theorem HasTys.argsTyped (hvs : HasTys ds w vs ts) (hts : ∀ p ∈ ts.zip ps, p.1 = p.2) :
    ArgsTyped ds w vs ps := by
  intro i v p hv hp
  obtain ⟨t, ht, htyped⟩ := hvs.get hv
  have hmem : (t, p) ∈ ts.zip ps := List.mem_of_getElem? (List.getElem?_zip_eq_some.mpr ⟨ht, hp⟩)
  obtain rfl : t = p := hts _ hmem
  exact htyped

theorem nodup_keys_zip {xs : List String} (h : xs.Nodup) (vs : List Value) :
    ((xs.zip vs).map Prod.fst).Nodup := by
  rw [List.zip_eq_zip_take_min, List.map_fst_zip (by simp)]
  exact h.sublist (List.take_sublist _ _)

variable (hσ : Fits table ss w σ)
include hσ

/-- What an operation leaves alone stays typed. -/
theorem kept_plainly {α : Type} {P : α → Prop} {Q : World → α → Prop}
    {r : EStateM.Result RunError Store α} (h : Loops.Plainly σ P r) (hPQ : ∀ a, P a → Q w a) :
    Kept table ss w Q r := by
  cases h with
  | ok ha hheap henvs => exact .ok (.refl w) (hPQ _ ha) (hσ.congr hheap henvs)
  | error he _ => exact .error (.input he)

theorem keptTy_plainly {k : Loops.Kind} {r : EStateM.Result RunError Store Value}
    (h : Loops.Plainly σ (Loops.OfKind k) r) : KeptTy table ss w k.ty r :=
  kept_plainly hσ h fun _ hv => .ofKind hv

theorem kept_lookup (hi : w.envs i = some Γ) (hx : get? Γ x = some t) :
    KeptTy table ss w t ((lookup i x).run σ) := by
  obtain ⟨env, henv, htyped⟩ := hσ.envs i Γ hi
  rw [lookup, run_bind, run_envAt henv]
  cases hget : get? env x with
  | none =>
    simp only [hget]
    exact .error (.unassigned (hσ.known i Γ x t hi hx))
  | some v =>
    simp only [hget]
    exact .ok (.refl w) (htyped x v t hget hx) hσ

theorem kept_compareValues {op} (hop : isComparison op) (ht : Compares op t) {x y}
    (hx : HasTy (defs ss) w x t) (hy : HasTy (defs ss) w y t) :
    KeptTy table ss w .bool
      ((do pure (.bool (← compareValues .functions op x y)) : Run Value).run σ) := by
  -- values of any one type are compared for equality; the other comparisons are between numbers
  rcases ht with hany | rfl
  · cases op with
    | eq | notEq | same => exact .ok (.refl w) (.bool _) hσ
    | _ => cases hany
  · obtain ⟨i, id, rfl⟩ := hx.exists_int
    obtain ⟨j, id', rfl⟩ := hy.exists_int
    cases op with
    | eq | notEq | lt | le | gt | ge | same => exact .ok (.refl w) (.bool _) hσ
    | _ => cases hop

theorem kept_assign (hi : w.envs i = some Γ) (hx : get? Γ x = some t)
    (hv : HasTy (defs ss) w v t) : KeptUnit table ss w ((assign i x v).run σ) := by
  obtain ⟨env, henv, htyped⟩ := hσ.envs i Γ hi
  have hlt := hσ.envs_lt hi
  have hget (j : Nat) : (σ.envs.set! i (put env x v))[j]? =
      if i = j then some (put env x v) else σ.envs[j]? := by
    rw [set!_eq_setIfInBounds, getElem?_setIfInBounds, if_pos hlt]
  rw [assign, run_bind, run_envAt henv]
  refine .ok (.refl w) trivial ⟨hσ.seqs, fun j Δ hj => ?_, hσ.main, fun env' y u henv' hy => ?_,
    hσ.known⟩
  · by_cases hij : i = j
    · subst hij
      rw [hi] at hj
      cases hj
      exact ⟨_, (hget i).trans (if_pos rfl), htyped.put hx hv⟩
    · obtain ⟨env', henv', htyped'⟩ := hσ.envs j Δ hj
      exact ⟨env', ((hget j).trans (if_neg hij)).trans henv', htyped'⟩
  · have henv' := (hget w.top).symm.trans henv'
    by_cases hij : i = w.top
    · subst hij
      rw [if_pos rfl] at henv'
      cases henv'
      obtain rfl : Γ = table := Option.some.inj (hi.symm.trans hσ.main)
      rw [get?_put] at hy
      split at hy
      · next hyx =>
        rw [beq_iff_eq.mp hyx]
        exact ⟨t, hx⟩
      · exact hσ.names env y u henv hy
    · rw [if_neg hij] at henv'
      exact hσ.names env' y u henv' hy

/-! ## Sequences -/

theorem kept_newList (ht : IsAggregate t) (hvs : SeqTyped (defs ss) w ⟨true, vs.toArray⟩ t) :
    KeptTy table ss w t ((newList vs).run σ) :=
  .ok (hσ.grows_withSeq t) (.seq ht (if_pos rfl)) (hσ.push hvs)

theorem Fits.setSeq (hp : w.seqs p = some t) (hs : σ.heap[p]? = some s)
    (hs' : SeqTyped (defs ss) w s' t) : Fits table ss w { σ with heap := σ.heap.set! p s' } := by
  have hlt := (Array.getElem?_eq_some_iff.mp hs).1
  refine ⟨fun q u hq => ?_, hσ.envs, hσ.main, hσ.names, hσ.known⟩
  have hget : (σ.heap.set! p s')[q]? = if p = q then some s' else σ.heap[q]? := by
    rw [set!_eq_setIfInBounds, getElem?_setIfInBounds, if_pos hlt]
  by_cases hpq : p = q
  · subst hpq
    rw [hp] at hq
    cases hq
    exact ⟨s', hget.trans (if_pos rfl), hs'⟩
  · obtain ⟨s'', hs'', htyped⟩ := hσ.seqs q u hq
    exact ⟨s'', (hget.trans (if_neg hpq)).trans hs'', htyped⟩

section

variable (hv : HasTy (defs ss) w v t)
include hv

theorem exists_sequence (ht : IsAggregate t) :
    ∃ p s, v = .seq p ∧ w.seqs p = some t ∧ σ.heap[p]? = some s ∧ SeqTyped (defs ss) w s t := by
  cases hv with
  | @seq p _ _ hp =>
    obtain ⟨s, hs, htyped⟩ := hσ.seqs p t hp
    exact ⟨p, s, rfl, hp, hs, htyped⟩
  | _ => cases ht

theorem kept_len (ht : IsAggregate t) :
    KeptTy table ss w .int ((do number (← plainLen v)).run σ) := by
  obtain ⟨p, s, rfl, -, hs, -⟩ := exists_sequence hσ hv ht
  rw [run_bind, run_plainLen hs]
  exact keptTy_plainly hσ (Loops.plainly_number σ s.cells.size)

theorem kept_checkIndex (ht : IsAggregate t) (k id) :
    KeptUnit table ss w ((checkIndex v (.int k id)).run σ) := by
  obtain ⟨p, s, rfl, -, hs, -⟩ := exists_sequence hσ hv ht
  rw [checkIndex, run_bind, run_plainLen hs]
  change Kept table ss w _ ((if Value.holds .lt (some (compare k s.cells.size)) then pure ()
    else throw .indexOutOfBounds : Run Unit).run σ)
  split
  · exact .ok (.refl w) trivial hσ
  · exact .error .trapped

theorem kept_item (hcell : CellAt t k u) (id) :
    KeptTy table ss w u ((plainItem v (.int k id)).run σ) := by
  obtain ⟨p, s, rfl, -, hs, htyped⟩ := exists_sequence hσ hv hcell.isAggregate
  have hitem : Value.item σ.heap (.seq p) (.int k id) = Value.itemOf s.cells (.int k id) := by
    rw [Value.item, hs]
  change Kept table ss w _ ((ofExcept (Value.item σ.heap (.seq p) (.int k id))).run σ)
  rw [hitem]
  simp only [Value.itemOf, Value.asInt?, bind, Except.bind]
  cases hp : Value.position s.cells.size k with
  | error f =>
    rw [position_error hp]
    exact .error .outOfRange
  | ok q =>
    cases hq : s.cells[q]? with
    | none =>
      simp only [hq]
      exact .error .outOfRange
    | some c =>
      simp only [hq]
      obtain ⟨u', hu', hc⟩ := htyped.cells q c hq
      rw [htyped.cellType hcell hp] at hu'
      cases hu'
      exact .ok (.refl w) hc hσ

theorem kept_setItem (hcell : CellAt t k u) (id) (hc : HasTy (defs ss) w c u) :
    KeptUnit table ss w ((plainSetItem v (.int k id) c).run σ) := by
  obtain ⟨p, s, rfl, hseq, hs, htyped⟩ := exists_sequence hσ hv hcell.isAggregate
  have hset : Value.setItem σ.heap (.seq p) (.int k id) c =
      (Value.position s.cells.size k >>= fun q =>
        pure (σ.heap.set! p { s with cells := s.cells.set! q c })) := by
    rw [Value.setItem, hs]
    simp only [htyped.isList, if_true]
    rfl
  change Kept table ss w _ ((ofExcept (Value.setItem σ.heap (.seq p) (.int k id) c) >>= fun h =>
    modify fun σ => { σ with heap := h }).run σ)
  rw [hset]
  cases hp : Value.position s.cells.size k with
  | error f =>
    rw [position_error hp]
    exact .error .outOfRange
  | ok q =>
    have hset := htyped.set (htyped.cellType hcell hp) hc
    exact .ok (.refl w) trivial (hσ.setSeq hseq hs hset)

end

/-! ## Calls -/

theorem envTyped_enter (hΔ : Enters table Δ d) (hdistinct : d.names.Nodup)
    (hvs : ArgsTyped (defs ss) w vs (d.params.map Prod.snd)) (henv : σ.envs[w.top]? = some env) :
    EnvTyped (defs ss) w (putAll env (d.names.zip vs)) Δ := by
  intro x v t hx ht
  rw [get?_putAll env (nodup_keys_zip hdistinct vs), Option.or_eq_some_iff] at hx
  rcases hx with hx | ⟨-, hx⟩
  · obtain ⟨i, hi⟩ := List.mem_iff_getElem?.mp (mem_of_get? hx)
    obtain ⟨hxi, hvi⟩ := List.getElem?_zip_eq_some.mp hi
    rw [Def.names, List.getElem?_map, Option.map_eq_some_iff] at hxi
    obtain ⟨⟨y, u⟩, hp, rfl⟩ := hxi
    have hu := hΔ.params y u (List.mem_of_getElem? hp)
    obtain rfl : u = t := Option.some.inj (hu.symm.trans ht)
    refine hvs i v u hvi ?_
    rw [List.getElem?_map, hp]
    rfl
  · obtain ⟨s, hs⟩ := hσ.names env x v henv hx
    obtain rfl := hΔ.agree x t s ht hs
    obtain ⟨env', henv', htyped⟩ := hσ.envs w.top table hσ.main
    rw [henv] at henv'
    cases henv'
    exact htyped x v t hx hs

theorem kept_enter (hp : TypedProgram table ss) (hd : d ∈ defs ss) (hΔ : Enters table Δ d)
    (hdistinct : d.names.Nodup) (hvs : ArgsTyped (defs ss) w vs (d.params.map Prod.snd)) :
    Kept table ss w (fun w i => w.envs i = some Δ) ((enter w.top (.names d.names) vs).run σ) := by
  obtain ⟨env, henv, -⟩ := hσ.envs w.top table hσ.main
  rw [enter, run_bind, run_envAt henv]
  have hknown : ∀ x t, get? Δ x = some t → IsVariable ss x := by
    intro x t hx
    rcases hΔ.known x t hx with ⟨s, hs⟩ | hx
    · exact (hp.known x s hs).imp_right .inl
    · exact .inr (.inr ⟨d, hd, hx⟩)
  have henv' := envTyped_enter hσ hΔ hdistinct hvs henv
  refine .ok (hσ.grows_withEnv Δ) ?_ (hσ.pushEnv henv' hknown)
  exact if_pos rfl

end Operations

end

end CompilerKit.Functions
