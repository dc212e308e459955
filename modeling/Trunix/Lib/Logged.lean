import Mathlib

/-!
# Computations with a log

A computation that may stop and that writes a log on the way.  What was written before it
stopped stays in the log.
-/

set_option autoImplicit false

namespace Trunix.Lib

universe u v

structure Logged (ω : Type v) (ε : Type v) (α : Type u) where
  log : List ω
  result : Except ε α

namespace Logged

variable {ω ε : Type v} {α β : Type u}

def pure (a : α) : Logged ω ε α := ⟨[], .ok a⟩

def bind (x : Logged ω ε α) (f : α → Logged ω ε β) : Logged ω ε β :=
  match x.result with
  | .error e => ⟨x.log, .error e⟩
  | .ok a => ⟨x.log ++ (f a).log, (f a).result⟩

instance : Monad (Logged ω ε) where
  pure := pure
  bind := bind

def silent (x : Except ε α) : Logged ω ε α := ⟨[], x⟩

@[simp] theorem log_pure (a : α) : (Pure.pure a : Logged ω ε α).log = [] := rfl

@[simp] theorem result_pure (a : α) : (Pure.pure a : Logged ω ε α).result = .ok a := rfl

@[simp] theorem log_silent (x : Except ε α) : (silent x : Logged ω ε α).log = [] := rfl

@[simp] theorem result_silent (x : Except ε α) : (silent x : Logged ω ε α).result = x := rfl

theorem result_bind (x : Logged ω ε α) (f : α → Logged ω ε β) :
    (x >>= f).result = x.result >>= fun a => (f a).result := by
  cases found : x.result with
  | error e =>
      have same : x >>= f = ⟨x.log, .error e⟩ := by
        show bind x f = _
        rw [bind, found]
      rw [same]
      rfl
  | ok a =>
      have same : x >>= f = ⟨x.log ++ (f a).log, (f a).result⟩ := by
        show bind x f = _
        rw [bind, found]
      rw [same]
      rfl

theorem log_bind_ok {x : Logged ω ε α} {a : α} (done : x.result = .ok a) (f : α → Logged ω ε β) :
    (x >>= f).log = x.log ++ (f a).log := by
  show (bind x f).log = _
  rw [bind, done]

theorem log_bind_error {x : Logged ω ε α} {e : ε} (stopped : x.result = .error e)
    (f : α → Logged ω ε β) : (x >>= f).log = x.log := by
  show (bind x f).log = _
  rw [bind, stopped]

def All (P : ω → Prop) (x : Logged ω ε α) : Prop := ∀ t ∈ x.log, P t

section All

variable {P : ω → Prop}

@[simp] theorem all_pure (a : α) : All P (Pure.pure a : Logged ω ε α) := by
  intro t mem
  cases mem

@[simp] theorem all_silent (x : Except ε α) : All P (silent x : Logged ω ε α) := by
  intro t mem
  cases mem

/-- The second part counts only where the first one gets to it. -/
theorem all_bind {x : Logged ω ε α} {f : α → Logged ω ε β} :
    All P (x >>= f) ↔ All P x ∧ ∀ a, x.result = .ok a → All P (f a) := by
  unfold All
  cases done : x.result with
  | error e =>
      rw [log_bind_error done]
      constructor
      · intro first
        exact ⟨first, fun a ended => by cases ended⟩
      · intro both
        exact both.1
  | ok a =>
      rw [log_bind_ok done]
      constructor
      · intro all
        have first : ∀ t ∈ x.log, P t := fun t mem => all t (List.mem_append_left _ mem)
        have second : ∀ t ∈ (f a).log, P t := fun t mem => all t (List.mem_append_right _ mem)
        exact ⟨first, fun a' same => by cases same; exact second⟩
      · rintro ⟨first, next⟩ t mem
        rcases List.mem_append.mp mem with inFirst | inNext
        · exact first t inFirst
        · exact next a rfl t inNext

theorem all_bind_ok {x : Logged ω ε α} {a : α} (done : x.result = .ok a) {f : α → Logged ω ε β} :
    All P (x >>= f) ↔ All P x ∧ All P (f a) := by
  rw [all_bind]
  constructor
  · rintro ⟨first, next⟩
    exact ⟨first, next a done⟩
  · rintro ⟨first, second⟩
    refine ⟨first, fun a' done' => ?_⟩
    rw [done] at done'
    cases done'
    exact second

theorem all_bind_pure {x : Logged ω ε α} {g : α → β} :
    All P (x >>= fun a => Pure.pure (g a)) ↔ All P x := by
  rw [all_bind]
  simp only [all_pure, implies_true, and_true]

theorem all_silent_bind {x : Except ε α} {f : α → Logged ω ε β} :
    All P (silent x >>= f) ↔ ∀ a, x = .ok a → All P (f a) := by
  rw [all_bind]
  simp only [all_silent, true_and, result_silent]

end All

end Logged

end Trunix.Lib
