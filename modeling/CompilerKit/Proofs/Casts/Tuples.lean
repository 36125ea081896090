import CompilerKit.Proofs.Casts.Wrappers

/-!
# Tuples there and back

A tuple that is cast to the unknown type and back is a proxy of a proxy of the tuple. Reading an
item of it casts the item there and back, which makes the same of the item.

* `Mirrors.run_getItem`: an item of the mirror of a tuple is the mirror of the item.
* `HasTy.run_walk`: so is what is found along any path of positions, by induction on the path.
-/

namespace CompilerKit.Casts

open Run List Value

/-- The types of numbers and of truth values, with their tags. -/
inductive Scalar : Ty → String → Prop where
  | int : Scalar .int "int"
  | bool : Scalar .bool "bool"
  | hostInt : Scalar (.host .int) "int"
  | hostBool : Scalar (.host .bool) "bool"

/-- Numbers, truth values and tagged values, with their types. -/
inductive IsItem : Value → Ty → Prop where
  | int (k id) {t} (ht : Scalar t "int") : IsItem (.int k id) t
  | bool (b) {t} (ht : Scalar t "bool") : IsItem (.bool b) t
  | any (payload tag id) : IsItem (.tagged payload tag id) .any

/-- Values of the types that are built from numbers, truth values and the unknown type by tuples.
A tuple is a list of as many items as its type has parts. -/
inductive HasTy (h : Heap) : Value → Ty → Prop where
  | item (hv : IsItem v t) : HasTy h v t
  | tuple (b) (hp : h[p]? = some ⟨true, cells⟩) (hsize : cells.size = ts.length)
      (hcells : ∀ (j : Nat) u t, cells[j]? = some u → ts[j]? = some t → HasTy h u t) :
      HasTy h (.seq p) (.tuple ts b)

variable {σ τ : Store} {v w a u : Value} {t : Ty} {ts : List Ty} {n j : Nat} {k : Int} {b : Bool}

theorem HasTy.mono (h : HasTy σ.heap v t) (hτ : Grown σ τ) : HasTy τ.heap v t := by
  induction h with
  | item hv => exact .item hv
  | tuple b hp hsize _ ih => exact .tuple b (hτ.heap _ _ hp) hsize ih

/-! ## Proxies of tuples -/

/-- A proxy of a tuple that casts the items from some types to others. -/
inductive Layer (σ : Store) (ps qs : List Ty) (v : Value) : Value → Prop where
  | mk (id) (hr : σ.heap[r]? = some ⟨true, reads⟩) (hsize : reads.size = (ps.zip qs).length)
      (hreads : ∀ (j : Nat) pq, (ps.zip qs)[j]? = some pq → ∃ f, reads[j]? = some f ∧ Caster σ pq.1
        pq.2 f)
      : Layer σ ps qs v (.proxiedTuple v (.seq r) id)

theorem Layer.mono (h : Layer σ ps qs v w) (hτ : Grown σ τ) : Layer τ ps qs v w := by
  cases h with
  | mk id hr hsize hreads =>
    refine .mk id (hτ.heap _ _ hr) hsize fun j pq hj => ?_
    obtain ⟨f, hf, hcast⟩ := hreads j pq hj
    exact ⟨f, hf, hcast.mono hτ⟩

theorem run_casters (x : String) (pqs : List (Ty × Ty)) (σ : Store) :
    ∃ fs τ, (pqs.mapM fun pq => castFunction x pq.1 pq.2).run σ = .ok fs τ ∧ Grown σ τ ∧
      fs.length = pqs.length ∧
      ∀ (j : Nat) pq, pqs[j]? = some pq → ∃ f, fs[j]? = some f ∧ Caster τ pq.1 pq.2 f := by
  induction pqs generalizing σ with
  | nil => exact ⟨[], σ, rfl, .refl σ, rfl, fun j pq hj => by cases hj⟩
  | cons pq pqs ih =>
    obtain ⟨f, σ1, hf, hcast, hσ1⟩ := run_castFunction x pq.1 pq.2 σ
    obtain ⟨fs, τ, hfs, hτ, hlen, hcasts⟩ := ih σ1
    refine ⟨f :: fs, τ, ?_, hσ1.trans hτ, congrArg (· + 1) hlen, fun j pq' hj => ?_⟩
    · rw [mapM_cons, run_next hf, run_next hfs]
      rfl
    · cases j with
      | zero =>
        cases hj
        exact ⟨f, rfl, hcast.mono hτ⟩
      | succ j => exact hcasts j pq' hj

theorem run_wrapTuple (v ps qs σ) :
    ∃ w τ, (wrapTuple v ps qs).run σ = .ok w τ ∧ Grown σ τ ∧ Layer τ ps qs v w := by
  have hname : Grown σ { σ with fresh := σ.fresh + 1 } := .of_eq rfl rfl rfl
  obtain ⟨fs, σ1, hfs, hσ1, hlen, hcasts⟩ :=
    run_casters (freshName "x" σ.fresh) (ps.zip qs) { σ with fresh := σ.fresh + 1 }
  have hpush : Grown σ1 { σ1 with heap := σ1.heap.push ⟨true, fs.toArray⟩, next := σ1.next + 1 } :=
    (Grown.push σ1 ⟨true, fs.toArray⟩).trans (.of_eq rfl rfl rfl)
  have hrun : (wrapTuple v ps qs).run σ =
      .ok (.proxiedTuple v (.seq σ1.heap.size) σ1.next)
        { σ1 with heap := σ1.heap.push ⟨true, fs.toArray⟩, next := σ1.next + 1 } := by
    exact (run_next rfl).trans ((run_next hfs).trans rfl)
  refine ⟨_, _, hrun, (hname.trans hσ1).trans hpush, .mk _ Array.getElem?_push_size ?_ ?_⟩
  · rw [size_toArray, hlen]
  · intro j pq hj
    obtain ⟨f, hf, hcast⟩ := hcasts j pq hj
    exact ⟨f, by simpa using hf, hcast.mono hpush⟩

theorem run_plainItem (hp : σ.heap[p]? = some s) (hk : position s.cells.size k = .ok j)
    (hu : s.cells[j]? = some u) (id) : (plainItem (.seq p) (.int k id)).run σ = .ok u σ := by
  have hitem : item σ.heap (.seq p) (.int k id) = .ok u := by
    simp only [item, hp, itemOf, asInt?, hk, bind, Except.bind, hu]
  change (ofExcept (item σ.heap (.seq p) (.int k id))).run σ = _
  rw [hitem]
  rfl

theorem Layer.run_getItem (h : Layer σ ps qs v w) {pq id}
    (hk : position (ps.zip qs).length k = .ok j) (hj : (ps.zip qs)[j]? = some pq)
    (hu : (getItem .casts (n + 5) v (.int k id)).run σ = .ok u τ) (hτ : Grown σ τ) :
    ∃ env, (getItem .casts (n + 6) w (.int k id)).run σ =
      (castValue .casts u pq.1 pq.2).run { τ with envs := τ.envs.push env } := by
  cases h with
  | @mk r reads _ hr hsize hreads =>
    obtain ⟨f, hf, hcast⟩ := hreads j pq hj
    rw [← hsize] at hk
    obtain ⟨env, henv⟩ := (hcast.mono hτ).run_apply u
    exact ⟨env, (run_next (run_plainItem hr hk hf id)).trans ((run_next hu).trans henv)⟩

/-! ## There and back -/

theorem run_inject (ht : Scalar t tag) (v σ) :
    (castValue .casts v t .any).run σ =
      .ok (.tagged v (sharedText tag) σ.next) { σ with next := σ.next + 1 } := by
  cases ht <;> rfl

theorem run_project (ht : Scalar t tag) (v id σ) :
    (castValue .casts (.tagged v (sharedText tag) id) .any t).run σ = .ok v σ := by
  cases ht <;> rfl

theorem IsItem.run_box (h : IsItem v t) (σ) :
    ∃ a τ, (castValue .casts v t .any).run σ = .ok a τ ∧ Grown σ τ ∧
      ∀ υ, (castValue .casts a .any t).run υ = .ok v υ := by
  cases h with
  | int _ _ ht | bool _ ht =>
    exact ⟨_, _, run_inject ht _ σ, .of_eq rfl rfl rfl, run_project ht _ _⟩
  | any payload tag id => exact ⟨_, σ, rfl, .refl σ, fun _ => rfl⟩

/-- What casting a value to the unknown type gives. -/
inductive Boxed (σ : Store) (v : Value) : Ty → Value → Prop where
  | item {t : Ty} {a : Value} (hv : IsItem v t)
      (hback : ∀ τ, (castValue .casts a .any t).run τ = .ok v τ) : Boxed σ v t a
  | tuple {ts : List Ty} {w : Value} (b : Bool) (id) (hw : Layer σ ts (ts.map fun _ => .any) v w) :
      Boxed σ v (.tuple ts b) (.tagged w (sharedText "tuple") id)

/-- What casting a value to the unknown type and back gives. -/
inductive Mirrors (σ : Store) (v : Value) : Ty → Value → Prop where
  | item {t : Ty} (hv : IsItem v t) : Mirrors σ v t v
  | tuple {ts w w'} (b : Bool) (hw : Layer σ ts (ts.map fun _ => .any) v w)
      (hw' : Layer σ (ts.map fun _ => .any) ts w w') : Mirrors σ v (.tuple ts b) w'

theorem Boxed.mono (h : Boxed σ v t a) (hτ : Grown σ τ) : Boxed τ v t a := by
  cases h with
  | item hv hback => exact .item hv hback
  | tuple b id hw => exact .tuple b id (hw.mono hτ)

theorem Mirrors.mono (h : Mirrors σ v t w) (hτ : Grown σ τ) : Mirrors τ v t w := by
  cases h with
  | item hv => exact .item hv
  | tuple b hw hw' => exact .tuple b (hw.mono hτ) (hw'.mono hτ)

theorem HasTy.run_box (h : HasTy σ.heap v t) :
    ∃ a τ, (castValue .casts v t .any).run σ = .ok a τ ∧ Grown σ τ ∧ Boxed τ v t a := by
  cases h with
  | item hv =>
    obtain ⟨a, τ, hrun, hτ, hback⟩ := hv.run_box σ
    exact ⟨a, τ, hrun, hτ, .item hv hback⟩
  | @tuple p cells ts b =>
    obtain ⟨w, σ1, hrun, hσ1, hw⟩ := run_wrapTuple (.seq p) ts (ts.map fun _ => .any) σ
    have hnext : Grown σ1 { σ1 with next := σ1.next + 1 } := .of_eq rfl rfl rfl
    exact ⟨.tagged w (sharedText "tuple") σ1.next, _, (run_next hrun).trans rfl, hσ1.trans hnext,
      .tuple b _ (hw.mono hnext)⟩

theorem Boxed.run_unbox (h : Boxed σ v t a) :
    ∃ w τ, (castValue .casts a .any t).run σ = .ok w τ ∧ Grown σ τ ∧ Mirrors τ v t w := by
  cases h with
  | item hv hback => exact ⟨v, σ, hback σ, .refl σ, .item hv⟩
  | @tuple ts w b id hw =>
    obtain ⟨w', τ, hrun, hτ, hw'⟩ := run_wrapTuple w (ts.map fun _ => .any) ts σ
    exact ⟨w', τ, hrun, hτ, .tuple b (hw.mono hτ) hw'⟩

/-! ## Reading -/

theorem IsItem.not_tuple : ¬ IsItem v (.tuple ts b) := by
  intro h
  cases h with
  | int k id ht => cases ht
  | bool c ht => cases ht

theorem HasTy.exists_cells (h : HasTy σ.heap v (.tuple ts b)) :
    ∃ p cells, v = .seq p ∧ σ.heap[p]? = some ⟨true, cells⟩ ∧ cells.size = ts.length ∧
      ∀ (j : Nat) u t, cells[j]? = some u → ts[j]? = some t → HasTy σ.heap u t := by
  cases h with
  | item hv => exact hv.not_tuple.elim
  | tuple _ hp hsize hcells => exact ⟨_, _, rfl, hp, hsize, hcells⟩

theorem zip_anys (hj : ts[j]? = some t) :
    (ts.zip (ts.map fun _ => Ty.any))[j]? = some (t, .any) ∧
      ((ts.map fun _ => Ty.any).zip ts)[j]? = some (.any, t) := by
  have hany : (ts.map fun _ => Ty.any)[j]? = some .any := by
    rw [getElem?_map, hj]
    rfl
  exact ⟨getElem?_zip_eq_some.mpr ⟨hj, hany⟩, getElem?_zip_eq_some.mpr ⟨hany, hj⟩⟩

theorem HasTy.exists_item (h : HasTy σ.heap v (.tuple ts b)) (hk : position ts.length k = .ok j)
    (hj : ts[j]? = some t) (id) :
    ∃ u, HasTy σ.heap u t ∧
      ∀ τ n, Grown σ τ → (getItem .casts (n + 1) v (.int k id)).run τ = .ok u τ := by
  obtain ⟨p, cells, rfl, hp, hsize, hcells⟩ := h.exists_cells
  have hlt : j < cells.size := hsize ▸ (List.getElem?_eq_some_iff.mp hj).1
  have hu : cells[j]? = some cells[j] := Array.getElem?_eq_getElem hlt
  exact ⟨cells[j], hcells j _ t hu hj,
    fun τ n hτ => run_plainItem (hτ.heap p _ hp) (hsize ▸ hk) hu id⟩

/-- An item of a tuple that has been cast there and back is the item of the tuple, cast there and
back. -/
theorem Mirrors.run_getItem (h : Mirrors σ v (.tuple ts b) w) {id}
    (hk : position ts.length k = .ok j) (hj : ts[j]? = some t) (htyped : HasTy σ.heap u t)
    (hu : ∀ n, (getItem .casts (n + 1) v (.int k id)).run σ = .ok u σ) (n) :
    ∃ u' τ, (getItem .casts (n + 7) w (.int k id)).run σ = .ok u' τ ∧ Grown σ τ ∧
      Mirrors τ u t u' := by
  obtain ⟨hthere, hback⟩ := zip_anys hj
  cases h with
  | item hv => exact hv.not_tuple.elim
  | tuple _ hw hw' =>
    obtain ⟨env, hfirst⟩ := hw.run_getItem (by simpa using hk) hthere (hu (n + 4)) (.refl σ)
    have henv := Grown.pushEnv σ env
    obtain ⟨a, σ1, hbox, hσ1, ha⟩ := (htyped.mono henv).run_box
    obtain ⟨env', hsecond⟩ := hw'.run_getItem (by simpa using hk) hback (hfirst.trans hbox)
      (henv.trans hσ1)
    have henv' := Grown.pushEnv σ1 env'
    obtain ⟨u', τ, hunbox, hτ, hu'⟩ := (ha.mono henv').run_unbox
    exact ⟨u', τ, hsecond.trans hunbox, ((henv.trans hσ1).trans henv').trans hτ, hu'⟩

theorem HasTy.run_lenOf (h : HasTy σ.heap v (.tuple ts b)) (hτ : Grown σ τ) (n) :
    (lenOf .casts (n + 1) v).run τ = .ok ts.length τ := by
  obtain ⟨p, cells, rfl, hp, hsize, -⟩ := h.exists_cells
  rw [← hsize]
  exact Vars.run_plainLen (hτ.heap p _ hp)

theorem Mirrors.run_lenOf (h : Mirrors σ v (.tuple ts b) w) (hv : HasTy σ.heap v (.tuple ts b))
    (n) : (lenOf .casts (n + 3) w).run σ = .ok ts.length σ := by
  cases h with
  | item hv => exact hv.not_tuple.elim
  | tuple _ hw hw' =>
    cases hw
    cases hw'
    exact hv.run_lenOf (.refl σ) n

/-- The type at the end of a path of indices that are all in range. -/
def typeAt? : Ty → List Int → Option Ty
  | t, [] => some t
  | .tuple ts _, k :: ks => match position ts.length k with
    | .ok j => ts[j]?.bind (typeAt? · ks)
    | .error _ => none
  | _, _ => none

/-- The lengths of the tuples on a path of indices, and the item at its end. -/
def walk (n : Nat) : Value → List Int → Run (List Nat × Value)
  | v, [] => pure ([], v)
  | v, k :: ks => do
    let len ← lenOf .casts n v
    let u ← getItem .casts n v (.int k sharedId)
    let found ← walk n u ks
    pure (len :: found.1, found.2)

theorem typeAt?_cons {u} (h : typeAt? t (k :: ks) = some u) :
    ∃ ts b j t', t = .tuple ts b ∧ position ts.length k = .ok j ∧ ts[j]? = some t' ∧
      typeAt? t' ks = some u := by
  unfold typeAt? at h
  split at h
  · next heq => cases heq
  · next heq =>
    cases heq
    split at h
    · next j hj =>
      obtain ⟨t', ht', hu⟩ := Option.bind_eq_some_iff.mp h
      exact ⟨_, _, j, t', rfl, hj, ht', hu⟩
    · cases h
  · cases h

theorem run_walk_cons {len x lens υ} (hlen : (lenOf .casts n v).run σ = .ok len σ)
    (hu : (getItem .casts n v (.int k sharedId)).run σ = .ok u τ)
    (hx : (walk n u ks).run τ = .ok (lens, x) υ) :
    (walk n v (k :: ks)).run σ = .ok (len :: lens, x) υ := by
  rw [walk, run_next hlen, run_next hu, run_next hx]
  rfl

/-- A walk in a value goes alike in all later stores, and in what the value is cast there and back
to. -/
theorem HasTy.run_walk (hv : HasTy σ.heap v t) (n) {path u} (hpath : typeAt? t path = some u) :
    ∃ lens x, HasTy σ.heap x u ∧ ∀ τ, Grown σ τ → (walk (n + 7) v path).run τ = .ok (lens, x) τ ∧
      ∀ w, Mirrors τ v t w → ∃ y υ, (walk (n + 7) w path).run τ = .ok (lens, y) υ ∧ Grown τ υ ∧
        Mirrors υ x u y := by
  induction path generalizing v t with
  | nil =>
    cases hpath
    exact ⟨[], v, hv, fun τ hτ => ⟨rfl, fun w hw => ⟨w, τ, rfl, .refl τ, hw⟩⟩⟩
  | cons k ks ih =>
    obtain ⟨ts, b, j, t', rfl, hk, hj, hpath⟩ := typeAt?_cons hpath
    obtain ⟨x, hx, hread⟩ := hv.exists_item hk hj sharedId
    obtain ⟨lens, y, hy, hwalk⟩ := ih hx hpath
    refine ⟨ts.length :: lens, y, hy, fun τ hτ => ⟨?_, fun w hw => ?_⟩⟩
    · exact run_walk_cons (hv.run_lenOf hτ _) (hread τ _ hτ) (hwalk τ hτ).1
    · obtain ⟨x', τ', hx', hτ', hmirror⟩ :=
        hw.run_getItem hk hj (hx.mono hτ) (fun n => hread τ n hτ) n
      obtain ⟨y', υ, hy', hυ, hmirror'⟩ := (hwalk τ' (hτ.trans hτ')).2 x' hmirror
      exact ⟨y', υ, run_walk_cons (hw.run_lenOf (hv.mono hτ) _) hx' hy', hτ'.trans hυ, hmirror'⟩

/-- A value that has been cast to the unknown type and back is read like the value itself, at any
later time: on every path of indices that are in range the tuples have the same lengths, and a path
that does not end at a tuple ends at the same number, truth value or tagged value. -/
theorem tuple_there_and_back (hv : HasTy σ.heap v t) :
    ∃ w σ', (do castValue .casts (← castValue .casts v t .any) .any t : Run Value).run σ =
        .ok w σ' ∧ Grown σ σ' ∧
      ∀ (τ : Store) (path : List Int) (u : Ty) (n : Nat), Grown σ' τ → typeAt? t path = some u →
        7 ≤ n → ∃ lens x y υ, (walk n v path).run τ = .ok (lens, x) τ ∧ HasTy τ.heap x u ∧
          (walk n w path).run τ = .ok (lens, y) υ ∧ Grown τ υ ∧
          ((∀ us b, u ≠ .tuple us b) → y = x) ∧
          ∀ us b, u = .tuple us b → (lenOf .casts n x).run υ = .ok us.length υ ∧
            (lenOf .casts n y).run υ = .ok us.length υ := by
  obtain ⟨a, σ₁, hbox, hσ₁, ha⟩ := hv.run_box
  obtain ⟨w, σ', hunbox, hσ', hw⟩ := ha.run_unbox
  refine ⟨w, σ', ?_, hσ₁.trans hσ', fun τ path u n hτ hpath hn => ?_⟩
  · rwa [run_next hbox]
  · obtain ⟨n, rfl⟩ := Nat.exists_eq_add_of_le' hn
    have hgrown := (hσ₁.trans hσ').trans hτ
    obtain ⟨lens, x, hx, hwalk⟩ := hv.run_walk n hpath
    obtain ⟨hplain, hcast⟩ := hwalk τ hgrown
    obtain ⟨y, υ, hy, hυ, hmirror⟩ := hcast w (hw.mono hτ)
    refine ⟨lens, x, y, υ, hplain, hx.mono hgrown, hy, hυ, fun hu => ?_, ?_⟩
    · cases hmirror with
      | item => rfl
      | tuple b => exact absurd rfl (hu _ b)
    · rintro us b rfl
      exact ⟨hx.run_lenOf (hgrown.trans hυ) _, hmirror.run_lenOf (hx.mono (hgrown.trans hυ)) _⟩

/-- A tuple in a tuple, with a value of unknown type. -/
def nestedTuples : Heap :=
  #[⟨true, #[.bool true, .tagged (.seq 0) (sharedText "tuple") 0]⟩, ⟨true, #[.int 7 0, .seq 0]⟩]

theorem tuple_there_and_back_nested :
    ∃ w σ' lens x υ, (do
        let a ← castValue .casts (.seq 1) (.tuple [.int, .tuple [.bool, .any]]) .any
        castValue .casts a .any (.tuple [.int, .tuple [.bool, .any]]) : Run Value).run
          { heap := nestedTuples } = .ok w σ' ∧
      (walk 7 (.seq 1) [1, -1]).run σ' = .ok (lens, x) σ' ∧
      (walk 7 w [1, -1]).run σ' = .ok (lens, x) υ := by
  have hinner : HasTy nestedTuples (.seq 0) (.tuple [.bool, .any]) := by
    refine .tuple false rfl rfl fun j u t hu ht => ?_
    rcases j with _ | _ | j <;> cases ht <;> cases hu
    · exact .item (.bool true .bool)
    · exact .item (.any _ _ _)
  have houter : HasTy nestedTuples (.seq 1) (.tuple [.int, .tuple [.bool, .any]]) := by
    refine .tuple false rfl rfl fun j u t hu ht => ?_
    rcases j with _ | _ | j <;> cases ht <;> cases hu
    · exact .item (.int 7 0 .int)
    · exact hinner
  obtain ⟨w, σ', hrun, -, hread⟩ := tuple_there_and_back (σ := { heap := nestedTuples }) houter
  obtain ⟨lens, x, y, υ, hx, -, hy, -, hleaf, -⟩ :=
    hread σ' [1, -1] .any 7 (.refl σ') rfl (Nat.le_refl 7)
  rw [hleaf fun us b h => by cases h] at hy
  exact ⟨w, σ', lens, x, υ, hrun, hx, hy⟩

end CompilerKit.Casts
