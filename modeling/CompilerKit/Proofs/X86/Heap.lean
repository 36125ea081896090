import CompilerKit.Proofs.X86.Log

/-!
# The size of the heap

A heap that is set up and then made larger on request starts at one place for good, and its size is
doubled until the request fits. So every request is met, unless the heap has no bytes at all: no
doubling makes that one larger.
-/

namespace CompilerKit.X86

open Emulation Bindings Machine

variable {m m' : Machine} {n : Int}

/-! ## Growth -/

/-- From a positive size growth ends, at the first size with room: half of it was too small. -/
theorem grow_pos (current needed : Int) {space} (h : 0 < space) :
    ∃ size, grow current needed space = some size ∧ needed ≤ size - current ∧
      (size = space ∨ size < 2 * (current + needed)) := by
  rw [grow]
  by_cases hshort : space - current < needed
  · rw [if_pos hshort, if_pos h]
    obtain ⟨size, hsize, hfits, hlast⟩ := grow_pos current needed (show 0 < space * 2 by omega)
    exact ⟨size, hsize, hfits, .inr (by omega)⟩
  · rw [if_neg hshort]
    exact ⟨space, rfl, by omega, .inl rfl⟩
termination_by (needed - (space - current)).toNat
decreasing_by omega

/-- No size at all stays as it is, so growth never ends. -/
theorem grow_zero (h : 0 < n) : grow 0 n 0 = none := by
  rw [grow, if_pos (by omega), if_neg (by omega)]

theorem grow_cases {size : Int} (hsize : 0 ≤ size) (n : Int) :
    (size = 0 ∧ 0 < n) ∧ grow size n size = none ∨ ¬ (size = 0 ∧ 0 < n) ∧
      ∃ size', grow size n size = some size' ∧ size + n ≤ size' ∧
        (size' = size ∨ size' < 2 * (size + n)) := by
  by_cases hzero : size = 0 ∧ 0 < n
  · obtain ⟨rfl, hpos⟩ := hzero
    exact .inl ⟨⟨rfl, hpos⟩, grow_zero hpos⟩
  · refine .inr ⟨hzero, ?_⟩
    by_cases hpos : 0 < size
    · obtain ⟨size', hgrow, hfits, hlast⟩ := grow_pos size n hpos
      exact ⟨size', hgrow, by omega, hlast⟩
    · refine ⟨size, ?_, by omega, .inl rfl⟩
      rw [grow, if_neg (by omega)]

/-! ## Machines with a heap -/

/-- The heap of the machine has so many bytes. -/
structure HasHeap (m : Machine) (size : Int) : Prop where
  start : get? m.globals "fromspace_begin" = some (.word heapStart)
  stop : get? m.globals "fromspace_end" = some (.word (heapStart + size))

theorem HasHeap.resized {size size' : Int} (hm : HasHeap m size)
    (h : m'.globals = put m.globals "fromspace_end" (.word (heapStart + size'))) :
    HasHeap m' size' := by
  constructor <;> rw [h, get?_put]
  · exact hm.start
  · rfl

/-- The machine has set up its heap, has made it larger any number of times, and has not changed it
in any other way. -/
inductive Prepared : Machine → Prop where
  | setUp {m m' roots heap} (hroots : m.register "rdi" = .word roots)
      (hheap : m.register "rsi" = .word heap) (hroots₀ : 0 ≤ roots) (hheap₀ : 0 ≤ heap)
      (h : setUp.run m = .ok () m') : Prepared m'
  | collect {m m' : Machine} {n : Int} (hm : Prepared m) (hn : m.register "rsi" = .word n)
      (hn₀ : 0 ≤ n) (h : collect.run m = .ok () m') : Prepared m'
  | other {m m' : Machine} (hm : Prepared m) (h : m'.globals = m.globals) : Prepared m'

/-- The second machine has what the first has, but for what reading and the log leave behind. -/
structure Kept (m m' : Machine) : Prop where
  globals : m'.globals = m.globals
  memory : m'.memory = m.memory
  logging : m'.logging = m.logging
  register : ∀ r, m'.register r = m.register r

theorem Kept.trans {m₁ m₂ m₃} (h : Kept m₁ m₂) (h' : Kept m₂ m₃) : Kept m₁ m₃ :=
  ⟨h'.globals.trans h.globals, h'.memory.trans h.memory, h'.logging.trans h.logging,
    fun r => (h'.register r).trans (h.register r)⟩

theorem run_readNamed_kept (m r) :
    ∃ m', Kept m m' ∧ (readNamed r).run m = .ok (m.register r) m' := by
  have hregister := register_touch m { name := r }
  obtain ⟨registers, tokens, htouch⟩ := touch_eq m { name := r }
  refine ⟨m.touch { name := r }, ⟨?_, ?_, ?_, hregister⟩, rfl⟩ <;> rw [htouch]

theorem run_log_kept (m : Machine) (s) : ∃ m', Kept m m' ∧ (log s).run m = .ok () m' := by
  by_cases h : m.logging = true
  · exact ⟨{ m with console := m.console.write (s ++ "\n") }, ⟨rfl, rfl, rfl, fun r => rfl⟩,
      congrArg (EStateM.Result.ok ()) (if_pos h)⟩
  · exact ⟨m, ⟨rfl, rfl, rfl, fun r => rfl⟩, run_log (Bool.eq_false_iff.mpr h) s⟩

theorem kept_logState (h : logState.run m = .ok () m') : Kept m m' := by
  unfold logState at h
  rw [EStateM.run_bind, EStateM.run_get] at h
  dsimp only at h
  split at h
  · split at h <;> cases h
    exact ⟨rfl, rfl, rfl, fun r => rfl⟩
  · cases h
    exact ⟨rfl, rfl, rfl, fun r => rfl⟩

theorem run_globalCell {x c} (h : get? m.globals x = some c) : (globalCell x).run m = .ok c m := by
  unfold globalCell
  rw [EStateM.run_bind, EStateM.run_get]
  dsimp only
  rw [h]
  rfl

/-- A call comes down to the size that growth ends with, if it does. -/
theorem run_collect (hn : m.register "rsi" = .word n) (hm : HasHeap m size) :
    ∃ m₁, Kept m m₁ ∧
      (∀ size', grow size n size = some size' → collect.run m =
        logState.run (m₁.setGlobal "fromspace_end" (.word (heapStart + size')))) ∧
      (grow size n size = none → collect.run m = .error (.fault .outOfFuel) m₁) := by
  obtain ⟨m₁, h₁, hread⟩ := run_readNamed_kept m "rsi"
  obtain ⟨m₂, h₂, hlog⟩ := run_log_kept m₁
    ("CALL TO collect: need " ++ (m.register "rsi").text ++ " bytes")
  have hkept := h₁.trans h₂
  have hstart := run_globalCell (hkept.globals ▸ hm.start)
  have hstop := run_globalCell (hkept.globals ▸ hm.stop)
  have hsize : heapStart + size - heapStart = size := by omega
  refine ⟨m₂, hkept, ?_⟩
  unfold collect
  rw [run_next hread, run_next hlog, run_next hstart, run_next hstop, hn]
  simp only [wordOf, Cell.word?, pure_bind, hsize]
  constructor
  · intro size' h
    rw [h]
    rfl
  · intro h
    rw [h]
    rfl

theorem Prepared.hasHeap (hm : Prepared m) : ∃ size, 0 ≤ size ∧ HasHeap m size := by
  induction hm with
  | @setUp m m' roots heap hroots hheap _ hheap₀ h =>
    refine ⟨heap, hheap₀, ?_⟩
    obtain ⟨m₁, h₁, hread⟩ := run_readNamed_kept m "rdi"
    obtain ⟨m₂, h₂, hread'⟩ := run_readNamed_kept m₁ "rsi"
    obtain ⟨m₃, h₃, hlog⟩ := run_log_kept m₂
      ("CALL TO initialize: " ++ (m.register "rdi").text ++ ", " ++ (m₁.register "rsi").text)
    unfold X86.setUp at h
    rw [run_next hread, run_next hread', run_next hlog, hroots, h₁.register, hheap] at h
    simp only [wordOf, Cell.word?, pure_bind] at h
    have hglobals := (kept_logState h).globals
    constructor <;> rw [hglobals] <;> exact get?_putAll _ (by simp) _
  | @collect m m' n hm hn hn₀ h ih =>
    obtain ⟨size, hsize, hheap⟩ := ih
    obtain ⟨m₁, hkept, hsome, hnone⟩ := run_collect hn hheap
    obtain ⟨_, hgrow⟩ | ⟨_, size', hgrow, hfits, _⟩ := grow_cases hsize n
    · rw [hnone hgrow] at h
      cases h
    · rw [hsome size' hgrow] at h
      have hglobals := (kept_logState h).globals
      exact ⟨size', by omega, hheap.resized (hglobals.trans (congrArg (put · _ _) hkept.globals))⟩
  | other _ h ih =>
    obtain ⟨size, hsize, hm⟩ := ih
    exact ⟨size, hsize, h ▸ hm.start, h ▸ hm.stop⟩

/-- A request for more bytes on a heap without any is never met. Every other request is met, in less
than twice the bytes that there have to be, and only the end of the heap changes. -/
theorem collect_room (hm : Prepared m) (hshown : m.logging = true → m.Shown)
    (hn : m.register "rsi" = .word n) (blocks enter) :
    ∃ size, HasHeap m size ∧
      (size = 0 ∧ 0 < n → grow size n size = none ∧
        ∃ m', (callLabel blocks enter "collect").run m = .error (.fault .outOfFuel) m') ∧
      (¬ (size = 0 ∧ 0 < n) →
        ∃ m' size', (callLabel blocks enter "collect").run m = .ok () m' ∧ HasHeap m' size' ∧
          size + n ≤ size' ∧ (size' = size ∨ size' < 2 * (size + n)) ∧
          ∀ x ≠ "fromspace_end", get? m'.globals x = get? m.globals x) := by
  obtain ⟨size, hsize, hheap⟩ := hm.hasHeap
  obtain ⟨m₁, hkept, hsome, hnone⟩ := run_collect hn hheap
  refine ⟨size, hheap, ?_⟩
  obtain ⟨hzero, hgrow⟩ | ⟨hzero, size', hgrow, hfits⟩ := grow_cases hsize n
  · exact ⟨fun _ => ⟨hgrow, m₁, hnone hgrow⟩, fun h => absurd hzero h⟩
  · refine ⟨fun h => absurd h hzero, fun _ => ?_⟩
    have hshown' (hlogging : m₁.logging = true) : m₁.Shown := by
      rw [Shown, hkept.memory]
      exact hshown (hkept.logging ▸ hlogging)
    obtain ⟨s, hrun⟩ := run_logState_shown
      (m := m₁.setGlobal "fromspace_end" (.word (heapStart + size'))) hshown'
    have hglobals := congrArg (put · "fromspace_end" (.word (heapStart + size'))) hkept.globals
    refine ⟨_, size', (hsome size' hgrow).trans hrun, hheap.resized hglobals, hfits.1, hfits.2, ?_⟩
    intro x hx
    exact (congrArg (get? · x) hglobals).trans
      ((get?_put _ _ _ _).trans (if_neg (by simpa using hx)))

/-- A heap of 8 bytes gets 24 more. -/
theorem collect_room_eight :
    let m : Machine := {
      registers := [("rsi", .word 24)]
      globals := [("rootstack_begin", .word 2000), ("rootstack_end", .word 2000),
        ("free_ptr", .word 100000), ("fromspace_begin", .word 100000),
        ("fromspace_end", .word 100008)] }
    Prepared m ∧ ∃ m' size, (callLabel [] (fun _ => pure ()) "collect").run m = .ok () m' ∧
      HasHeap m' size ∧ 32 ≤ size := by
  intro m
  have hm : Prepared m := .other
    (.setUp (m := { registers := [("rdi", .word 0), ("rsi", .word 8)] })
    rfl rfl (by decide) (by decide) rfl) rfl
  obtain ⟨size, hheap, -, hroom⟩ :=
    collect_room hm (fun h => absurd h Bool.false_ne_true) rfl [] fun _ => pure ()
  have hsize : (100008 : Int) = 100000 + size := Cell.word.inj (Option.some.inj hheap.stop)
  obtain ⟨m', size', hrun, hheap', hfits, -⟩ := hroom (by omega)
  exact ⟨hm, m', size', hrun, hheap', by omega⟩

end CompilerKit.X86
