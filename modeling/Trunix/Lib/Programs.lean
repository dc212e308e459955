import Trunix.Lib.Run

/-!
# Programs over an interface

A program makes calls and goes on with their answers.  A server says what a call does to
its state; the same program runs on every server of the interface.  When one server
simulates another one call by call, every program that keeps to the allowed calls has the
same answers, and the same end, on both.
-/

set_option autoImplicit false

namespace Trunix.Lib

universe u

inductive Prog (ι : Type u) (ο : ι → Type u) (α : Type u) : Type u where
  | done (a : α)
  | call (i : ι) (next : ο i → Prog ι ο α)

variable {ι : Type u} {ο : ι → Type u} {α β σ τ ε : Type u}

def Prog.bind : Prog ι ο α → (α → Prog ι ο β) → Prog ι ο β
  | .done a, f => f a
  | .call i next, f => .call i fun o => (next o).bind f

instance : Monad (Prog ι ο) where
  pure := .done
  bind := .bind

/-- What a call answers and does to the state; it may stop instead. -/
abbrev Server (ι : Type u) (ο : ι → Type u) (σ ε : Type u) := (i : ι) → σ → Except ε (ο i × σ)

def Prog.run (S : Server ι ο σ ε) : Prog ι ο α → σ → Except ε (α × σ)
  | .done a, s => .ok (a, s)
  | .call i next, s => S i s >>= fun r => (next r.1).run S r.2

@[simp] theorem Prog.run_pure (S : Server ι ο σ ε) (a : α) (s : σ) :
    (pure a : Prog ι ο α).run S s = .ok (a, s) := rfl

@[simp] theorem Prog.run_bind (S : Server ι ο σ ε) (p : Prog ι ο α) (f : α → Prog ι ο β) :
    ∀ s : σ, (p >>= f).run S s = p.run S s >>= fun r => (f r.1).run S r.2 := by
  induction p with
  | done a => intro s; rfl
  | call i next ih =>
      intro s
      change (S i s >>= fun r => (next r.1 >>= f).run S r.2) = _
      cases first : S i s with
      | error e => simp only [run, first, error_bind]
      | ok r => simp only [run, first, ok_bind, ih]

/-! ## Pre- and postconditions -/

/-- From `s` on the program makes allowed calls only, and when it ends `Q` holds. -/
def Prog.Meets (S : Server ι ο σ ε) (allowed : σ → ι → Prop) (Q : α → σ → Prop) : Prog ι ο α → σ → Prop
  | .done a, s => Q a s
  | .call i next, s => allowed s i ∧ ∀ r, S i s = .ok r → (next r.1).Meets S allowed Q r.2

section Meets

variable {S : Server ι ο σ ε} {allowed : σ → ι → Prop} {Q Q' : α → σ → Prop}

theorem Prog.Meets.bind {Q : β → σ → Prop} {p : Prog ι ο α} {f : α → Prog ι ο β} : ∀ {s : σ},
    p.Meets S allowed (fun a s => (f a).Meets S allowed Q s) s → (p >>= f).Meets S allowed Q s := by
  induction p with
  | done a => intro s h; exact h
  | call i next ih => intro s h; exact ⟨h.1, fun r answer => ih r.1 (h.2 r answer)⟩

theorem Prog.Meets.mono {p : Prog ι ο α} : ∀ {s : σ}, p.Meets S allowed Q s →
    (∀ a s', p.run S s = .ok (a, s') → Q a s' → Q' a s') → p.Meets S allowed Q' s := by
  induction p with
  | done a => intro s h weaker; exact weaker a s rfl h
  | call i next ih =>
      intro s h weaker
      refine ⟨h.1, fun r answer => ih r.1 (h.2 r answer) fun a s' run post => weaker a s' ?_ post⟩
      rw [Prog.run, answer, ok_bind]
      exact run

theorem Prog.Meets.of_run {p : Prog ι ο α} {a : α} {s' : σ} : ∀ {s : σ}, p.Meets S allowed Q s →
    p.run S s = .ok (a, s') → Q a s' := by
  induction p with
  | done b =>
      intro s h run
      cases run
      exact h
  | call i next ih =>
      intro s h run
      obtain ⟨r, answer, later⟩ := bind_eq_ok.mp run
      exact ih r.1 (h.2 r answer) later

end Meets

/-! ## Simulation -/

inductive Agree (R : τ → σ → Prop) : Except ε (α × τ) → Except ε (α × σ) → Prop where
  | ok {a : α} {t : τ} {s : σ} (related : R t s) : Agree R (.ok (a, t)) (.ok (a, s))
  | error (e : ε) : Agree R (.error e) (.error e)

theorem Agree.of_ok {R : τ → σ → Prop} {x : Except ε (α × τ)} {a : α} {s : σ} (h : Agree R x (.ok (a, s))) :
    ∃ t, x = .ok (a, t) ∧ R t s := by
  cases h with
  | ok related => exact ⟨_, rfl, related⟩

theorem Agree.of_ok_left {R : τ → σ → Prop} {y : Except ε (α × σ)} {a : α} {t : τ}
    (h : Agree R (.ok (a, t)) y) : ∃ s, y = .ok (a, s) ∧ R t s := by
  cases h with
  | ok related => exact ⟨_, rfl, related⟩

/-- The server `T` simulates `S` on the allowed calls. -/
def Simulates (S : Server ι ο σ ε) (T : Server ι ο τ ε) (allowed : σ → ι → Prop) (R : τ → σ → Prop) : Prop :=
  ∀ (i : ι) (t : τ) (s : σ), R t s → allowed s i → Agree R (T i t) (S i s)

/-- Programs do not tell the servers apart. -/
theorem Simulates.run {S : Server ι ο σ ε} {T : Server ι ο τ ε} {allowed : σ → ι → Prop} {R : τ → σ → Prop}
    {Q : α → σ → Prop} (h : Simulates S T allowed R) (p : Prog ι ο α) : ∀ {t : τ} {s : σ}, R t s →
    p.Meets S allowed Q s → Agree R (p.run T t) (p.run S s) := by
  induction p with
  | done a => intro t s related _; exact .ok related
  | call i next ih =>
      intro t s related meets
      have first := h i t s related meets.1
      have later := meets.2
      rw [Prog.run, Prog.run]
      generalize T i t = answer at first
      generalize S i s = answer' at first later
      cases first with
      | error e => exact .error e
      | @ok o t' s' related' => exact ih o related' (later (o, s') rfl)

theorem Prog.meets_true {S : Server ι ο σ ε} (p : Prog ι ο α) :
    ∀ s : σ, p.Meets S (fun _ _ => True) (fun _ _ => True) s := by
  induction p with
  | done a => intro s; trivial
  | call i next ih => intro s; exact ⟨trivial, fun r _ => ih r.1 r.2⟩

end Trunix.Lib
