import CompilerKit.Proofs.Calls
import CompilerKit.Proofs.Extension.Forms

/-!
# Operations of two languages side by side

A run in a language and the run of the same program in the next one go through the same stores. Both
may stop, and then they stop alike, but for the bounds of indices: they are not checked in the
language of tuples, checked from the language of arrays on, and not checked where the language of
values of unknown type reads an item.
-/

namespace CompilerKit

open Run List Bindings EStateM Array Value

/-- The position of the sequence that a value stands for. -/
def Value.base? : Value → Option Nat
  | .seq p => some p
  | .closure cells _ _ => cells.base?
  | _ => .none

namespace Extension

variable {v n : Value} {p : Nat} {i : Int} {b' : Bool} {heap : Heap}

/-- The first run stops with `e` in `σ` where the second one stops with `e'` in `σ'`. -/
inductive Stops (l l' : Language) : RunError → Store → RunError → Store → Prop where
  | alike (e σ) : Stops l l' e σ e σ
  /-- The message says which language it is. -/
  | noArity (v : Value) (σ) : Stops l l' (.noArity l v) σ (.noArity l' v) σ
  /-- The first language checks the index of an item that is read, the second does not. -/
  | unchecked (hl : l = .lambdas) (hl' : l' = .anys) (σ) :
      Stops l l' .indexOutOfBounds σ (.fault .outOfRange) σ
  /-- The second language checks the index of an item that is read, the first does not. -/
  | checkedRead (hl : l = .tuples) (hl' : l' = .arrays) (σ) :
      Stops l l' (.fault .outOfRange) σ .indexOutOfBounds σ
  /-- The second language checks the index of an item that is written, before it evaluates the new
  item. The first one goes on until it stops there or in the item. -/
  | checkedWrite {e e' σ σ'} (hl : l = .tuples) (hl' : l' = .arrays)
      (he' : e' = .indexOutOfBounds ∨ e' = .fault .wrongKind) (hkeep : Keeps σ' σ) :
      Stops l l' e σ e' σ'

/-- The ends of two runs from a store: both give the same, of which `P` holds, in the same store, or
both stop. -/
inductive Follows (l l' : Language) {α : Type} (P : Store → α → Prop) (σ : Store) :
    EStateM.Result RunError Store α → EStateM.Result RunError Store α → Prop where
  | ok {a τ} (hkeep : Keeps σ τ) (hτ : Tidy l τ) (ha : P τ a) : Follows l l' P σ (.ok a τ) (.ok a τ)
  | error {e e' τ τ'} (hkeep : Keeps σ τ) (h : Stops l l' e τ e' τ') :
      Follows l l' P σ (.error e τ) (.error e' τ')

/-- A program in the two languages, from a store. -/
abbrev Together (l l' : Language) {α : Type} (P : Store → α → Prop) (σ : Store)
    (x : Language → Run α) : Prop :=
  Follows l l' P σ ((x l).run σ) ((x l').run σ)

variable {l l' : Language} {α β : Type} {P : Store → α → Prop} {Q : Store → β → Prop} {σ : Store}
variable {f : Heap → α}

namespace Follows

variable {x x' y y' : Run α} {b : Bool}

theorem bind {f f' : α → Run β} (h : Follows l l' P σ (x.run σ) (x'.run σ))
    (hf : ∀ a τ, Keeps σ τ → Tidy l τ → P τ a → Follows l l' Q τ ((f a).run τ) ((f' a).run τ)) :
    Follows l l' Q σ ((x >>= f).run σ) ((x' >>= f').run σ) := by
  rw [run_bind, run_bind]
  generalize x.run σ = r at h
  generalize x'.run σ = r' at h
  cases h with
  | error hkeep h => exact .error hkeep h
  | @ok a τ hkeep hτ ha =>
    have hnext := hf a τ hkeep hτ ha
    change Follows l l' Q σ ((f a).run τ) ((f' a).run τ)
    generalize (f a).run τ = r at hnext
    generalize (f' a).run τ = r' at hnext
    cases hnext with
    | error hkeep' h => exact .error (hkeep.trans hkeep') h
    | ok hkeep' hυ hb => exact .ok (hkeep.trans hkeep') hυ hb

theorem fails (e) : Together l l' P σ fun _ => throw e :=
  .error (.refl σ) (.alike e σ)

theorem given (hb : b) (hb' : b') (h : Follows l l' P σ (x.run σ) (x'.run σ)) :
    Follows l l' P σ ((if b then x else y).run σ) ((if b' then x' else y').run σ) := by
  rwa [if_pos hb, if_pos hb']

theorem otherwise (hb : b = false) (hb' : b' = false) (h : Follows l l' P σ (y.run σ) (y'.run σ)) :
    Follows l l' P σ ((if b then x else y).run σ) ((if b' then x' else y').run σ) := by
  rwa [hb, hb']

theorem ite (hx : Follows l l' P σ (x.run σ) (x'.run σ))
    (hy : Follows l l' P σ (y.run σ) (y'.run σ)) :
    Follows l l' P σ ((if b then x else y).run σ) ((if b then x' else y').run σ) := by
  cases b with
  | true => exact hx
  | false => exact hy

theorem fresh {a : α} {next : Nat} (hσ : Tidy l σ) (ha : P { σ with next } a) :
    Follows l l' P σ (.ok a { σ with next }) (.ok a { σ with next }) :=
  have hkeep : Keeps σ { σ with next } := .of_eq rfl (Nat.le_refl _) rfl
  .ok hkeep (hσ.congr hkeep rfl rfl) ha

theorem ofExcept {x : Except Fault α} (hσ : Tidy l σ) (h : ∀ a, x = .ok a → P σ a) :
    Together l l' P σ fun _ => Run.ofExcept x := by
  cases x with
  | error f => exact fails (.fault f)
  | ok a => exact .ok (.refl σ) hσ (h a rfl)

theorem withHeap {g g' : α → Run β}
    (h : Follows l l' Q σ ((g (f σ.heap)).run σ) ((g' (f σ.heap)).run σ)) :
    Follows l l' Q σ ((withHeap f >>= g).run σ) ((withHeap f >>= g').run σ) := h

theorem askHeap (hσ : Tidy l σ) (h : P σ (f σ.heap)) :
    Together l l' P σ fun _ => Run.withHeap f :=
  .ok (.refl σ) hσ h

end Follows

namespace Next

variable {x x' y y' : Run α} (hnext : Next l l') (hk : decide (k ≤ l.level))
  (h : Follows l l' P σ (x.run σ) (x'.run σ))
include hnext h

theorem untagged : Follows l l' P σ ((if l.isDynamic then y else x).run σ)
    ((if l'.isDynamic then y' else x').run σ) :=
  .otherwise hnext.plain_left.2.1 hnext.plain_right.2.1 h

include hk

/-- A rule for a feature that the first language has. -/
theorem given : Follows l l' P σ ((if decide (k ≤ l.level) then x else y).run σ)
    ((if decide (k ≤ l'.level) then x' else y').run σ) :=
  .given hk (hnext.has hk) h

theorem source : Follows l l' P σ ((if decide (k ≤ l.level) && !l.isBlocks then x else y).run σ)
    ((if decide (k ≤ l'.level) && !l'.isBlocks then x' else y').run σ) :=
  .given (by rw [hk, hnext.plain_left.1]; rfl) (by rw [hnext.has hk, hnext.plain_right.1]; rfl) h

end Next

/-! ## Numbers, input and output -/

section

variable (hσ : Tidy l σ)
include hσ

theorem follows_number (i) : Together l l' (Plain l) σ fun _ => number i :=
  .fresh hσ (.int i σ.next)

theorem follows_numberOf (x : Except Fault Int) :
    Together l l' (Plain l) σ fun _ => (do number (← ofExcept x)) := by
  refine (Follows.ofExcept (P := fun _ _ => True) hσ fun _ _ => trivial).bind fun i τ _ hτ _ => ?_
  exact follows_number hτ i

theorem follows_readInt : Together l l' (Plain l) σ fun _ => readInt := by
  have houtput : σ.console.readInt.2.output = σ.console.output :=
    congrArg (fun r => r.2.output) (Console.readInt_congr (c := σ.console) rfl)
  rw [Together, Vars.run_readInt]
  generalize σ.console.readInt = r at houtput
  rcases r with ⟨f | i, console⟩
  · exact .error (.of_eq rfl (Nat.le_refl _) houtput) (.alike _ _)
  · have hkeep (next : Nat) : Keeps σ { σ with console, next } := .of_eq rfl (Nat.le_refl _) houtput
    dsimp only
    split
    · exact .ok (hkeep σ.next) (hσ.congr (hkeep σ.next) rfl rfl) (.int i sharedId)
    · exact .ok (hkeep (σ.next + 1)) (hσ.congr (hkeep (σ.next + 1)) rfl rfl) (.int i σ.next)

theorem follows_print (v) : Together l l' (fun _ _ => True) σ fun _ => print v := by
  rw [Together, Vars.run_print]
  cases v.text σ.heap with
  | error m => exact .error (.refl σ) (.alike _ _)
  | ok s =>
    have hkeep : Keeps σ { σ with console := σ.console.write s } :=
      ⟨(Keeps.refl σ).seqs, Nat.le_refl _, s, rfl⟩
    exact .ok hkeep (hσ.congr hkeep rfl rfl) trivial

theorem follows_arithValues (hl : l.isBlocks = false) (hl' : l'.isBlocks = false) (x y) :
    Together l l' (Plain l) σ (arithValues · op x y) := by
  cases op with
  | add => exact follows_numberOf hσ (x.addWord y)
  | sub => exact follows_numberOf hσ (x.subWord y)
  | _ => exact .otherwise hl hl' (follows_numberOf hσ (x.mulWord y))

theorem follows_compareValues (hop : l.hasCompare op) (hop' : l'.hasCompare op) (x y) :
    Together l l' (fun _ _ => True) σ (compareValues · op x y) := by
  cases op with
  | eq => exact Follows.askHeap (f := fun h => x.equal h y) hσ trivial
  | notEq => exact Follows.askHeap (f := fun h => !x.equal h y) hσ trivial
  | lt | le | gt | ge => exact .withHeap (.ofExcept hσ fun _ _ => trivial)
  | same => exact .given hop hop' (.askHeap (f := fun h => x.same h y) hσ trivial)
  | _ => cases hop

/-! ## Variables and functions -/

theorem follows_envAt (f i) :
    Together l l' (fun τ env => ∀ x v, get? env x = some v → Plain l τ v) σ
      fun _ => envAt f i := by
  cases henv : σ.envs[i]? with
  | none =>
    have hrun : (envAt f i).run σ = .error (.fault f) σ := by
      rw [envAt, run_bind, run_get]
      simp only [henv]
      rfl
    rw [Together, hrun]
    exact .error (.refl σ) (.alike _ _)
  | some env =>
    rw [Together, Vars.run_envAt henv]
    exact .ok (.refl σ) hσ (hσ.envs i env henv)

theorem follows_lookup (i x) : Together l l' (Plain l) σ fun _ => lookup i x := by
  refine (follows_envAt hσ .wrongKind i).bind fun env τ _ hτ henv => ?_
  cases hx : get? env x with
  | none => exact .fails _
  | some v => exact .ok (.refl τ) hτ (henv x v hx)

theorem follows_assign (hv : Plain l σ v) (i x) :
    Together l l' (fun _ _ => True) σ fun _ => assign i x v := by
  refine (follows_envAt hσ .wrongKind i).bind fun env τ hkeep hτ henv => ?_
  exact .ok (.setEnv τ i _) (hτ.setEnv (Plain.put henv (hv.mono hkeep))) trivial

theorem follows_newFunction (hl : l.hasFunctions) (hss : l.hasStmts ss) (f ps i) :
    Together l l' (Plain l) σ fun _ => newFunction f ps (.stmts ss) i :=
  .fresh hσ (.function f ps i σ.next hl hss)

theorem follows_newClosure (hl : l.hasLambdas) (hcells : Plain l σ cells)
    (harity : Plain l σ arity) :
    Together l l' (Plain l) σ fun _ => newClosure cells arity := by
  have hkeep : Keeps σ { σ with next := σ.next + 1 } := .of_eq rfl (Nat.le_refl _) rfl
  exact .fresh hσ (.closure σ.next hl (hcells.mono hkeep) (harity.mono hkeep))

theorem follows_enter (hargs : ∀ v ∈ args, Plain l σ v) (i ps) :
    Together l l' (fun _ _ => True) σ fun _ => enter i ps args := by
  refine (follows_envAt hσ .missingPart i).bind fun env τ hkeep hτ henv => ?_
  have hargs (v : Value) (hv : v ∈ args) : Plain l τ v := (hargs v hv).mono hkeep
  have hnew (υ : Store) (hkeep' : Keeps τ υ) (hυ : Tidy l υ) (bound : Env)
      (hbound : ∀ p ∈ bound, p.2 ∈ args) :
      Together l l' (fun _ _ => True) υ fun _ => newEnv (putAll env bound) := by
    refine .ok (.pushEnv υ _) (hυ.pushEnv ?_) trivial
    exact Plain.putAll (fun x v hx => (henv x v hx).mono hkeep')
      fun p hp => (hargs p.2 (hbound p hp)).mono hkeep'
  have hkeys : Together l l' (fun _ bound => ∀ p ∈ bound, p.2 ∈ args) τ
      fun _ => Run.ofExcept (do bindKeys (← ps.keys) args) := by
    refine .ofExcept hτ fun bound h => ?_
    obtain ⟨ks, -, hbound⟩ := ok_of_bind h
    exact bindKeys_mem hbound
  cases ps with
  | names xs => exact hnew τ (.refl τ) hτ _ fun p hp => (of_mem_zip hp).2
  | _ => exact hkeys.bind fun bound υ hkeep' hυ hbound => hnew υ hkeep' hυ bound hbound

theorem follows_valueArity (hv : Plain l σ v) :
    Together l l' (Plain l) σ (valueArity · v) := by
  cases hv with
  | function f ps i id =>
    refine (Follows.ofExcept (P := fun _ _ => True) hσ fun _ _ => trivial).bind fun n τ _ hτ _ => ?_
    exact follows_number hτ n
  | closure id _ _ harity => exact .ok (.refl σ) hσ harity
  | _ => exact .error (.refl σ) (.noArity _ σ)

theorem follows_arityValue (ht : isCount t) : Together l l' (Plain l) σ fun _ => arityValue t := by
  unfold isCount at ht
  split at ht
  · exact .ok (.refl σ) hσ (.int _ sharedId)
  · cases ht

/-! ## Sequences -/

theorem follows_newList (hvs : ∀ v ∈ vs, Plain l σ v) :
    Together l l' (Plain l) σ fun _ => newList vs := by
  refine .ok (.push σ _) (hσ.push fun v hv => hvs v (by simpa using hv)) (.seq ?_)
  simp

theorem follows_emptyCells (t) : Together l l' (Plain l) σ fun _ => emptyCells t := by
  have hcells (i : Int) : Together l l' (Plain l) σ fun _ => (do
      newList (replicate (← ofExcept (repeatCount i)).toNat .none)) := by
    refine (Follows.ofExcept (P := fun _ _ => True) hσ fun _ _ => trivial).bind fun n τ _ hτ _ => ?_
    refine follows_newList hτ fun v hv => ?_
    rw [eq_of_mem_replicate hv]
    exact .none
  cases t with
  | scalar c => cases hc : c.asInt? with
    | none =>
      simp only [emptyCells, hc]
      exact .fails _
    | some i =>
      simp only [emptyCells, hc]
      exact hcells i
  | _ => exact .fails _

theorem follows_plainLen (v) : Together l l' (Plain l) σ fun _ => (do number (← plainLen v)) := by
  have hlen : Together l l' (fun _ _ => True) σ fun _ => plainLen v :=
    .withHeap (.ofExcept hσ fun _ _ => trivial)
  exact hlen.bind fun n τ _ hτ _ => follows_number hτ n

end

/-! ## Items -/

theorem Plain.of_base?_none (hv : Plain l σ v) (h : v.base? = .none) (heap : Heap) (n c) :
    v.len heap = .error .wrongKind ∧ v.item heap n = .error .wrongKind ∧
      v.setItem heap n c = .error .wrongKind := by
  induction hv with
  | seq => cases h
  | closure _ _ _ _ hcells => exact hcells h
  | _ => exact ⟨rfl, rfl, rfl⟩

/-- An aggregate has the items of the sequence that it stands for. -/
theorem Plain.of_base?_some (hv : Plain l σ v) (h : v.base? = some p) :
    p < σ.heap.size ∧ ∀ heap n c, v.len heap = len heap (.seq p) ∧
      v.item heap n = item heap (.seq p) n ∧
      v.setItem heap n c = Value.setItem heap (.seq p) n c := by
  induction hv with
  | seq hp =>
    cases h
    exact ⟨hp, fun _ _ _ => ⟨rfl, rfl, rfl⟩⟩
  | closure _ _ _ _ hcells => exact hcells h
  | _ => cases h

theorem Plain.ordered_none (hn : Plain l σ n) (h : n.asInt? = .none) (heap : Heap) (k : Nat) :
    n.ordered heap .lt (.int k 0) = .error .wrongKind := by
  cases hn with
  | int | bool => cases h
  | _ => rfl

theorem Plain.ordered_some (hn : Plain l σ n) (h : n.asInt? = some i) (heap : Heap) (k : Nat) :
    n.ordered heap .lt (.int k 0) = .ok (decide (i < k)) := by
  have hint (i : Int) : holds .lt (some (compare i k)) = decide (i < k) := by
    rw [Bool.eq_iff_iff, decide_eq_true_iff, ← Int.compare_eq_lt]
    cases compare i (k : Int) <;> simp [holds]
  cases hn with
  | int | bool =>
    cases h
    exact congrArg Except.ok (hint _)
  | _ => cases h

/-- An index that is not below the length of a sequence is outside of it. -/
theorem position_of_le {size : Nat} (h : size ≤ i) : position size i = .error .outOfRange := by
  unfold position
  rw [if_pos (by omega), if_neg (by omega)]

/-- How an index stands to an aggregate: the check of the index passes; or one of them is of the
wrong kind; or the index is above the bounds. -/
inductive Reach (σ : Store) (v n : Value) : Prop where
  | within (hcheck : (checkIndex v n).run σ = .ok () σ)
  | wrong (hcheck : (checkIndex v n).run σ = .error (.fault .wrongKind) σ)
      (hitem : v.item σ.heap n = .error .wrongKind)
      (hset : ∀ τ c, Keeps σ τ → ∃ f, v.setItem τ.heap n c = .error f)
  | above (hcheck : (checkIndex v n).run σ = .error .indexOutOfBounds σ)
      (hitem : v.item σ.heap n = .error .outOfRange)
      (hset : ∀ τ c, Keeps σ τ → ∃ f, v.setItem τ.heap n c = .error f)

theorem run_checkIndex_of_len (h : v.len σ.heap = .ok k) :
    (checkIndex v n).run σ = (ofExcept (n.ordered σ.heap .lt (.int k 0)) >>= fun below =>
      if below then pure () else throw .indexOutOfBounds).run σ := by
  have hlen : (plainLen v).run σ = .ok k σ := by
    change (ofExcept (v.len σ.heap)).run σ = _
    rw [h]
    rfl
  rw [checkIndex, run_bind, hlen]
  rfl

theorem seq_wrong (hn : n.asInt? = .none) (heap : Heap) (c) :
    item heap (.seq p) n = .error .wrongKind ∧
      Value.setItem heap (.seq p) n c = .error .wrongKind := by
  constructor
  · rw [item]
    split
    · rw [itemOf, hn]
    · rfl
  · rw [Value.setItem]
    split
    · split
      · rw [hn]
      · rfl
    · rfl

variable {c : Value}

theorem seq_above {s} (hn : n.asInt? = some i) (hi : s.cells.size ≤ i) (hs : heap[p]? = some s)
    (c) :
    item heap (.seq p) n = .error .outOfRange ∧
      ∃ f, Value.setItem heap (.seq p) n c = .error f := by
  constructor
  · rw [item, hs]
    simp only [itemOf, hn, position_of_le hi]
    rfl
  · rw [Value.setItem, hs]
    simp only [hn, position_of_le hi]
    split
    · exact ⟨_, rfl⟩
    · exact ⟨_, rfl⟩

theorem Plain.reach (hv : Plain l σ v) (hn : Plain l σ n) : Reach σ v n := by
  cases hbase : v.base? with
  | none =>
    obtain ⟨hlen, hitem, -⟩ := hv.of_base?_none hbase σ.heap n n
    refine .wrong ?_ hitem fun τ c _ => ⟨_, (hv.of_base?_none hbase τ.heap n c).2.2⟩
    change (ofExcept (v.len σ.heap) >>= _ : Run Unit).run σ = _
    rw [hlen]
    rfl
  | some p =>
    obtain ⟨hp, hseq⟩ := hv.of_base?_some hbase
    have hs := Array.getElem?_eq_getElem hp
    have hlen : v.len σ.heap = .ok σ.heap[p].cells.size := by
      rw [(hseq σ.heap n n).1, len, hs]
    cases hi : n.asInt? with
    | none =>
      refine .wrong ?_ ?_ fun τ c _ => ⟨.wrongKind, ?_⟩
      · rw [run_checkIndex_of_len hlen, hn.ordered_none hi]
        rfl
      · rw [(hseq σ.heap n n).2.1]
        exact (seq_wrong hi σ.heap n).1
      · rw [(hseq τ.heap n c).2.2]
        exact (seq_wrong hi τ.heap c).2
    | some i =>
      have hcheck : (checkIndex v n).run σ =
          (if decide (i < σ.heap[p].cells.size) then pure () else throw .indexOutOfBounds
            : Run Unit).run σ := by
        rw [run_checkIndex_of_len hlen, hn.ordered_some hi]
        rfl
      by_cases hlt : i < σ.heap[p].cells.size
      · rw [decide_eq_true hlt] at hcheck
        exact .within hcheck
      · rw [decide_eq_false hlt] at hcheck
        refine .above hcheck ?_ fun τ c hkeep => ?_
        · rw [(hseq σ.heap n n).2.1]
          exact (seq_above hi (by omega) hs n).1
        · obtain ⟨t, ht, hsize⟩ := hkeep.seqs p _ hs
          rw [(hseq τ.heap n c).2.2]
          exact (seq_above hi (by omega) ht c).2

theorem run_plainItem_of_error {f} (h : v.item σ.heap n = .error f) :
    (plainItem v n).run σ = .error (.fault f) σ := by
  change (ofExcept (v.item σ.heap n)).run σ = _
  rw [h]
  rfl

theorem run_plainSetItem_of_error {f} (h : v.setItem σ.heap n c = .error f) :
    (plainSetItem v n c).run σ = .error (.fault f) σ := by
  change (ofExcept (v.setItem σ.heap n c) >>= fun heap =>
    modify fun σ => { σ with heap := heap } : Run Unit).run σ = _
  rw [h]
  rfl

section

variable (hσ : Tidy l σ) (hv : Plain l σ v)
include hσ hv

theorem Tidy.item (h : v.item σ.heap n = .ok c) : Plain l σ c := by
  cases hbase : v.base? with
  | none =>
    rw [(hv.of_base?_none hbase σ.heap n n).2.1] at h
    cases h
  | some p =>
    obtain ⟨hp, hseq⟩ := hv.of_base?_some hbase
    have hs := Array.getElem?_eq_getElem hp
    rw [(hseq σ.heap n n).2.1, Value.item, hs] at h
    simp only [itemOf] at h
    split at h
    · cases h
    · obtain ⟨q, -, hq⟩ := ok_of_bind h
      split at hq
      · next hc =>
        cases hq
        exact hσ.cells p _ hs c (mem_of_getElem? hc)
      · cases hq

theorem Tidy.setItem (hc : Plain l σ c) (h : v.setItem σ.heap n c = .ok heap) :
    Keeps σ { σ with heap } ∧ Tidy l { σ with heap } := by
  cases hbase : v.base? with
  | none =>
    rw [(hv.of_base?_none hbase σ.heap n c).2.2] at h
    cases h
  | some p =>
    obtain ⟨hp, hseq⟩ := hv.of_base?_some hbase
    have hs := Array.getElem?_eq_getElem hp
    rw [(hseq σ.heap n c).2.2, Value.setItem, hs] at h
    dsimp only at h
    split at h
    · split at h
      · cases h
      · obtain ⟨q, -, hq⟩ := ok_of_bind h
        cases hq
        exact ⟨.set hs (by simp), hσ.set hs hc⟩
    · cases h

theorem follows_plainItem (n) : Together l l' (Plain l) σ fun _ => plainItem v n :=
  .withHeap (.ofExcept hσ fun _ h => hσ.item hv h)

theorem follows_plainSetItem (hc : Plain l σ c) (n) :
    Together l l' (fun _ _ => True) σ fun _ => plainSetItem v n c := by
  refine .withHeap ?_
  cases h : v.setItem σ.heap n c with
  | error f => exact .fails (.fault f)
  | ok heap =>
    obtain ⟨hkeep, htidy⟩ := hσ.setItem hv hc h
    exact .ok hkeep htidy trivial

variable (hn : Plain l σ n)
include hn

theorem follows_checkIndex : Together l l' (fun _ _ => True) σ fun _ => checkIndex v n := by
  cases hv.reach hn with
  | within hcheck =>
    rw [Together, hcheck]
    exact .ok (.refl σ) hσ trivial
  | wrong hcheck | above hcheck =>
    rw [Together, hcheck]
    exact .error (.refl σ) (.alike _ σ)

theorem follows_checkedItem :
    Together l l' (Plain l) σ fun _ => (do checkIndex v n; plainItem v n) :=
  (follows_checkIndex hσ hv hn).bind fun _ _ hkeep hτ _ => follows_plainItem hτ (hv.mono hkeep) n

/-- Only the second language checks the index of an item that is read. -/
theorem follows_newCheck (hl : l = .tuples) (hl' : l' = .arrays) :
    Follows l l' (Plain l) σ ((plainItem v n).run σ)
      ((do checkIndex v n; plainItem v n : Run Value).run σ) := by
  rw [run_bind]
  cases hv.reach hn with
  | within hcheck =>
    rw [hcheck]
    exact follows_plainItem hσ hv n
  | wrong hcheck hitem =>
    rw [hcheck, run_plainItem_of_error hitem]
    exact .error (.refl σ) (.alike _ σ)
  | above hcheck hitem =>
    rw [hcheck, run_plainItem_of_error hitem]
    exact .error (.refl σ) (.checkedRead hl hl' σ)

/-- Only the first language checks the index of an item that is read. -/
theorem follows_noCheck (hl : l = .lambdas) (hl' : l' = .anys) :
    Follows l l' (Plain l) σ ((do checkIndex v n; plainItem v n : Run Value).run σ)
      ((plainItem v n).run σ) := by
  rw [run_bind]
  cases hv.reach hn with
  | within hcheck =>
    rw [hcheck]
    exact follows_plainItem hσ hv n
  | wrong hcheck hitem =>
    rw [hcheck, run_plainItem_of_error hitem]
    exact .error (.refl σ) (.alike _ σ)
  | above hcheck hitem =>
    rw [hcheck, run_plainItem_of_error hitem]
    exact .error (.refl σ) (.unchecked hl hl' σ)

theorem follows_checkedWrite {f g : Unit → Run α}
    (hx : ∀ τ, Keeps σ τ → Tidy l τ → Follows l l' (Plain l) τ (x.run τ) (y.run τ))
    (hf : ∀ τ, Keeps σ τ → Tidy l τ → Follows l l' P τ ((f ()).run τ) ((g ()).run τ)) :
    Follows l l' P σ
      ((do checkIndex v n; let c ← x; let r ← plainSetItem v n c; f r : Run α).run σ)
      ((do checkIndex v n; let c ← y; let r ← plainSetItem v n c; g r : Run α).run σ) := by
  refine (follows_checkIndex hσ hv hn).bind fun _ τ hkeep hτ _ => ?_
  refine (hx τ hkeep hτ).bind fun c υ hkeep' hυ hc => ?_
  have hkeep := hkeep.trans hkeep'
  refine (follows_plainSetItem hυ (hv.mono hkeep) hc n).bind fun _ φ hkeep'' hφ _ => ?_
  exact hf φ (hkeep.trans hkeep'') hφ

end

/-- Only the second language checks the index of an item that is written, before the new item is
evaluated. Where the check fails, the first one cannot write the item either: the sequence keeps its
length while the item is evaluated. -/
theorem follows_newCheckedWrite (hl : l = .tuples) (hl' : l' = .arrays) (hv : Plain l σ v)
    (hn : Plain l σ n) {f f' : Unit → Run α} (hx : Follows l l' (Plain l) σ (x.run σ) (x'.run σ))
    (hf : ∀ τ, Keeps σ τ → Tidy l τ → Follows l l' P τ ((f ()).run τ) ((f' ()).run τ)) :
    Follows l l' P σ ((do let c ← x; let r ← plainSetItem v n c; f r : Run α).run σ)
      ((do checkIndex v n; let c ← x'; let r ← plainSetItem v n c; f' r : Run α).run σ) := by
  -- what the first run does when the second one has stopped at the check
  have hstops (e' : RunError) (he' : e' = .indexOutOfBounds ∨ e' = .fault .wrongKind)
      (hset : ∀ τ c, Keeps σ τ → ∃ f, v.setItem τ.heap n c = .error f) :
      Follows l l' P σ ((do let c ← x; let r ← plainSetItem v n c; f r : Run α).run σ)
        (.error e' σ) := by
    rw [run_bind]
    generalize x.run σ = r at hx
    generalize x'.run σ = r' at hx
    cases hx with
    | error hkeep => exact .error hkeep (.checkedWrite hl hl' he' hkeep)
    | @ok c τ hkeep =>
      obtain ⟨m, hm⟩ := hset τ c hkeep
      change Follows l l' P σ ((plainSetItem v n c >>= f).run τ) (.error e' σ)
      rw [run_bind, run_plainSetItem_of_error hm]
      exact .error hkeep (.checkedWrite hl hl' he' hkeep)
  rw [run_bind (checkIndex v n)]
  cases hv.reach hn with
  | wrong hcheck _ hset =>
    rw [hcheck]
    exact hstops _ (.inr rfl) hset
  | above hcheck _ hset =>
    rw [hcheck]
    exact hstops _ (.inl rfl) hset
  | within hcheck =>
    rw [hcheck]
    refine hx.bind fun c τ hkeep hτ hc => ?_
    refine (follows_plainSetItem hτ (hv.mono hkeep) hc n).bind fun _ υ hkeep' hυ _ => ?_
    exact hf υ (hkeep.trans hkeep') hυ

end Extension

end CompilerKit
