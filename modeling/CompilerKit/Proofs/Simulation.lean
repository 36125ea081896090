/-!
# Runs side by side

A computation with a state ends with a result or with an error, in a state. Two computations are
compared by a relation between their states: from related states they end alike, and what they end
with is related again.
-/

namespace CompilerKit

open EStateM

variable {ε σ τ α β γ δ : Type} {a : α} {s : σ} {f : α → StateT σ (Except ε) β} {r : β × σ}

/-- Two runs end alike: with results and states in the relation `Q`, or with the same error and
states in the relation `E`. -/
inductive Alike (Q : α → β → σ → τ → Prop) (E : ε → σ → τ → Prop) :
    Result ε σ α → Result ε τ β → Prop where
  | ok {a b s t} (h : Q a b s t) : Alike Q E (.ok a s) (.ok b t)
  | error {e s t} (h : E e s t) : Alike Q E (.error e s) (.error e t)

/-- From states in the relation `P` the two computations end alike. -/
def Sim (P : σ → τ → Prop) (x : EStateM ε σ α) (y : EStateM ε τ β)
    (Q : α → β → σ → τ → Prop) (E : ε → σ → τ → Prop) : Prop :=
  ∀ s t, P s t → Alike Q E (x.run s) (y.run t)

theorem Alike.mono {Q Q' : α → β → σ → τ → Prop} {E E' : ε → σ → τ → Prop} {r r'}
    (h : Alike Q E r r') (hQ : ∀ a b s t, Q a b s t → Q' a b s t)
    (hE : ∀ e s t, E e s t → E' e s t) : Alike Q' E' r r' := by
  cases h with
  | ok h => exact .ok (hQ _ _ _ _ h)
  | error h => exact .error (hE _ _ _ h)

namespace Sim

variable {P P' : σ → τ → Prop} {Q Q' : α → β → σ → τ → Prop} {R : γ → δ → σ → τ → Prop}
  {E E' : ε → σ → τ → Prop} {x : EStateM ε σ α}

theorem pure (h : ∀ s t, P s t → Q a b s t) :
    Sim P (Pure.pure a) (Pure.pure b) Q E :=
  fun s t hst => .ok (h s t hst)

theorem throw (h : ∀ s t, P s t → E e s t) :
    Sim P (throw e) (throw e) Q E :=
  fun s t hst => .error (h s t hst)

theorem modifyGet {f : σ → α × σ} {g : τ → β × τ}
    (h : ∀ s t, P s t → Q (f s).1 (g t).1 (f s).2 (g t).2) :
    Sim P (modifyGet f) (modifyGet g) Q E :=
  fun s t hst => .ok (h s t hst)

theorem bind {f : α → EStateM ε σ γ} {g : β → EStateM ε τ δ} (hxy : Sim P x y Q E)
    (hfg : ∀ a b, Sim (Q a b) (f a) (g b) R E) : Sim P (x >>= f) (y >>= g) R E := by
  intro s t hst
  have h := hxy s t hst
  rw [run_bind, run_bind]
  generalize x.run s = r at h
  generalize y.run t = r' at h
  cases h with
  | ok h => exact hfg _ _ _ _ h
  | error h => exact .error h

theorem mono (h : Sim P x y Q E) (hP : ∀ s t, P' s t → P s t)
    (hQ : ∀ a b s t, Q a b s t → Q' a b s t) (hE : ∀ e s t, E e s t → E' e s t) :
    Sim P' x y Q' E' :=
  fun s t hst => (h s t (hP s t hst)).mono hQ hE

/-- Computations that never stop with an error may be followed by any that do. -/
theorem of_no_error (h : Sim P x y Q (fun _ _ _ => False)) : Sim P x y Q E :=
  h.mono (fun _ _ h => h) (fun _ _ _ _ h => h) fun _ _ _ h => h.elim

theorem run_ok (h : Sim P x y Q E) (hst : P s t) (hrun : x.run s = .ok a s') :
    ∃ b t', y.run t = .ok b t' ∧ Q a b s' t' := by
  have hend := h s t hst
  rw [hrun] at hend
  generalize y.run t = r' at hend
  cases hend with
  | ok h => exact ⟨_, _, rfl, h⟩

end Sim

/-- The two computations keep the relation `R` and give the same result or the same error. -/
def Lockstep (R : σ → τ → Prop) (x : EStateM ε σ α) (y : EStateM ε τ α) : Prop :=
  Sim R x y (fun a b s t => b = a ∧ R s t) (fun _ => R)

namespace Lockstep

variable {R : σ → τ → Prop} {x : EStateM ε σ α}

theorem pure (a) : Lockstep R (Pure.pure a : EStateM ε σ α) (Pure.pure a) :=
  Sim.pure fun _ _ h => ⟨rfl, h⟩

theorem throw (e) : Lockstep R (throw e : EStateM ε σ α) (throw e) := Sim.throw fun _ _ h => h

theorem modifyGet {f : σ → α × σ} {g : τ → α × τ}
    (h : ∀ s t, R s t → (g t).1 = (f s).1 ∧ R (f s).2 (g t).2) :
    Lockstep R (modifyGet f : EStateM ε σ α) (modifyGet g) :=
  Sim.modifyGet h

theorem modify {f : σ → σ} {g : τ → τ} (h : ∀ s t, R s t → R (f s) (g t)) :
    Lockstep R (modify f : EStateM ε σ PUnit) (modify g) :=
  Sim.modifyGet fun s t hst => ⟨rfl, h s t hst⟩

theorem bind {f : α → EStateM ε σ β} {g : α → EStateM ε τ β} (hxy : Lockstep R x y)
    (hfg : ∀ a, Lockstep R (f a) (g a)) : Lockstep R (x >>= f) (y >>= g) := by
  refine Sim.bind hxy fun a b s t h => ?_
  obtain ⟨rfl, h⟩ := h
  exact hfg _ s t h

end Lockstep

/-! ## Computations that give a result -/

variable {x : Except ε α}

theorem ok_of_bind {f : α → Except ε β} (h : x >>= f = .ok b) : ∃ a, x = .ok a ∧ f a = .ok b := by
  cases x with
  | error e => cases h
  | ok a => exact ⟨a, rfl, h⟩

theorem of_bind_ok {f : α → Except ε β} (hx : x = .ok a) (hf : f a = .ok b) : x >>= f = .ok b := by
  rwa [hx]

theorem bind_ok {x} (h : (x >>= f).run s = .ok r) :
    ∃ a t, x.run s = .ok (a, t) ∧ (f a).run t = .ok r := by
  obtain ⟨p, hp, hr⟩ := ok_of_bind h
  exact ⟨p.1, p.2, hp, hr⟩

theorem lift_ok (h : (liftM x : StateT σ (Except ε) α).run s = .ok (a, t)) : x = .ok a ∧ t = s := by
  cases x with
  | error e => cases h
  | ok b => cases h; exact ⟨rfl, rfl⟩

theorem bind_lift_ok (h : (liftM x >>= f).run s = .ok r) :
    ∃ a, x = .ok a ∧ (f a).run s = .ok r := by
  obtain ⟨a, t, hlift, hf⟩ := bind_ok h
  obtain ⟨hx, rfl⟩ := lift_ok hlift
  exact ⟨a, hx, hf⟩

theorem run_next {x} {f : α → EStateM ε σ β} {t} (h : x.run s = .ok a t) :
    (x >>= f).run s = (f a).run t := by
  rw [run_bind, h]

theorem next_ok {x} {f : α → EStateM ε σ β} (h : (x >>= f).run s = .ok b t) :
    ∃ a u, x.run s = .ok a u ∧ (f a).run u = .ok b t := by
  rw [run_bind] at h
  split at h
  · next a u hx => exact ⟨a, u, hx, h⟩
  · cases h

theorem run_bind_ok {x t} (h : x.run s = .ok (a, t)) : (x >>= f).run s = (f a).run t := by
  rw [StateT.run_bind, h]
  rfl

end CompilerKit
