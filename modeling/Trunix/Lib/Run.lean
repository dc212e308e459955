import Mathlib

/-!
# Runs of a fallible machine

`step s a` is what the machine does on operation `a` in state `s`; it may stop
instead of returning.  `Runs step allowed s t` says that `t` is reached from `s` by
finitely many operations, each of which returns and is allowed in the state it
starts from.  The rules at the end carry an invariant and a measure along such a run.
-/

set_option autoImplicit false

namespace Trunix.Lib

universe u v w

variable {σ : Type u} {α : Type v} {ε : Type w}

/-! ## Sequencing -/

@[simp] theorem ok_bind {β γ : Type u} (b : β) (f : β → Except ε γ) :
    (Except.ok b >>= f) = f b := rfl

@[simp] theorem error_bind {β γ : Type u} (e : ε) (f : β → Except ε γ) :
    (Except.error e >>= f) = .error e := rfl

theorem bind_eq_ok {β γ : Type u} {x : Except ε β} {f : β → Except ε γ} {c : γ} :
    (x >>= f) = .ok c ↔ ∃ b, x = .ok b ∧ f b = .ok c := by
  cases x with
  | error e => simp
  | ok b => simp

theorem bind_congr_ok {β γ : Type u} {x : Except ε β} {f g : β → Except ε γ}
    (same : ∀ b, x = .ok b → f b = g b) : (x >>= f) = (x >>= g) := by
  cases x with
  | error e => rfl
  | ok b => exact same b rfl

theorem exists_eq_ok {β : Type u} {x : Except ε β} (h : x.toBool = true) : ∃ b, x = .ok b := by
  cases x with
  | error e => cases h
  | ok b => exact ⟨b, rfl⟩

theorem ok_of_toOption {β : Type u} {x : Except ε β} {b : β} (h : x.toOption = some b) :
    x = .ok b := by
  cases x with
  | error e => cases h
  | ok c =>
      cases h
      rfl

theorem mapError_eq_ok {ε' β : Type u} {g : ε → ε'} {x : Except ε β} {b : β}
    (h : x.mapError g = .ok b) : x = .ok b := by
  cases x with
  | error e => cases h
  | ok c => exact congrArg Except.ok (Except.ok.inj h)

/-- `x` stops only as `E` allows, and what it returns satisfies `Q`. -/
def Returns {β : Type u} (E : ε → Prop) (Q : β → Prop) : Except ε β → Prop
  | .ok b => Q b
  | .error e => E e

theorem Returns.ok {β : Type u} {E : ε → Prop} {Q : β → Prop} {b : β} (h : Q b) :
    Returns E Q (.ok b) := h

theorem Returns.intro {β : Type u} {E : ε → Prop} {Q R : β → Prop} {x : Except ε β}
    (stops : Returns E R x) (returns : ∀ b, x = .ok b → Q b) : Returns E Q x := by
  cases x with
  | error e => exact stops
  | ok b => exact returns b rfl

theorem Returns.bind {β γ : Type u} {E : ε → Prop} {Q : β → Prop} {R : γ → Prop}
    {x : Except ε β} {f : β → Except ε γ} (h : Returns E Q x) (next : ∀ b, Q b → Returns E R (f b)) :
    Returns E R (x >>= f) := by
  cases x with
  | error e => exact h
  | ok b => exact next b h

theorem Returns.mono {β : Type u} {E : ε → Prop} {Q R : β → Prop} {x : Except ε β}
    (h : Returns E Q x) (weaker : ∀ b, Q b → R b) : Returns E R x := by
  cases x with
  | error e => exact h
  | ok b => exact weaker b h

theorem Returns.of_ok {β : Type u} {E : ε → Prop} {Q : β → Prop} {x : Except ε β} {b : β}
    (h : Returns E Q x) (done : x = .ok b) : Q b := by
  rw [done] at h
  exact h

theorem Returns.of_error {β : Type u} {E : ε → Prop} {Q : β → Prop} {x : Except ε β} {e : ε}
    (h : Returns E Q x) (done : x = .error e) : E e := by
  rw [done] at h
  exact h

/-! ## Runs -/

inductive Runs (step : σ → α → Except ε σ) (allowed : σ → α → Prop) (s : σ) : σ → Prop where
  | refl : Runs step allowed s s
  | snoc {t t' : σ} (a : α) (run : Runs step allowed s t) (ok : allowed t a)
      (done : step t a = .ok t') : Runs step allowed s t'

variable {step : σ → α → Except ε σ} {allowed allowed' : σ → α → Prop} {s t : σ}

theorem Runs.invariant (I : σ → Prop) (run : Runs step allowed s t) (init : I s)
    (keep : ∀ t a t', I t → allowed t a → step t a = .ok t' → I t') : I t := by
  induction run with
  | refl => exact init
  | snoc a _ ok done ih => exact keep _ a _ ih ok done

theorem Runs.mono (run : Runs step allowed s t) (weaker : ∀ t a, allowed t a → allowed' t a) :
    Runs step allowed' s t := by
  induction run with
  | refl => exact .refl
  | snoc a _ ok done ih => exact .snoc a ih (weaker _ a ok) done

theorem Runs.trans {u : σ} (run : Runs step allowed s t) (later : Runs step allowed t u) :
    Runs step allowed s u := by
  induction later with
  | refl => exact run
  | snoc a _ ok done ih => exact .snoc a ih ok done

theorem Runs.of_foldlM {ops : List α} (ok : ∀ a ∈ ops, ∀ t, allowed t a) :
    ∀ {s : σ}, ops.foldlM step s = .ok t → Runs step allowed s t := by
  induction ops with
  | nil =>
      intro s done
      cases done
      exact .refl
  | cons a rest ih =>
      intro s done
      rw [List.foldlM_cons, bind_eq_ok] at done
      obtain ⟨s₁, first, later⟩ := done
      have head : Runs step allowed s s₁ := .snoc a .refl (ok a List.mem_cons_self s) first
      exact head.trans (ih (fun b mem => ok b (List.mem_cons_of_mem _ mem)) later)

/-- A quantity that no step of a reachable state increases, and that a step keeps
exactly when it is `tight`, has its first value at the end of a run precisely when
some run of tight steps leads there. -/
theorem Runs.kept_iff (f : σ → Nat) (tight : σ → α → Prop)
    (keep : ∀ t a t', Runs step allowed s t → allowed t a → step t a = .ok t' →
      f t' ≤ f t ∧ (f t' = f t ↔ tight t a))
    (run : Runs step allowed s t) :
    f t ≤ f s ∧ (f t = f s ↔ Runs step (fun t a => allowed t a ∧ tight t a) s t) := by
  have tightRun : ∀ t, Runs step (fun t a => allowed t a ∧ tight t a) s t → f t = f s := by
    intro t run
    induction run with
    | refl => rfl
    | snoc a before ok done ih =>
        have reached := before.mono (fun _ _ both => both.1)
        exact ((keep _ a _ reached ok.1 done).2.mpr ok.2).trans ih
  induction run with
  | refl => exact ⟨Nat.le_refl _, iff_of_true rfl .refl⟩
  | @snoc t t' a before ok done ih =>
      obtain ⟨le, iff⟩ := keep t a t' before ok done
      refine ⟨Nat.le_trans le ih.1, fun same => ?_, tightRun t'⟩
      have sameBefore : f t = f s := Nat.le_antisymm ih.1 (same ▸ le)
      exact .snoc a (ih.2.mp sameBefore) ⟨ok, iff.mp (same.trans sameBefore.symm)⟩ done

/-- `P` holds wherever the run of the operations of a list starts one of them. -/
def Along (step : σ → α → Except ε σ) (P : σ → α → Prop) : σ → List α → Prop
  | _, [] => True
  | s, a :: rest => P s a ∧ ∀ t, step s a = .ok t → Along step P t rest

theorem Along.of_forall {P : σ → α → Prop} (all : ∀ s a, P s a) : ∀ {ops : List α} {s : σ},
    Along step P s ops := by
  intro ops
  induction ops with
  | nil => intro s; trivial
  | cons a rest ih => intro s; exact ⟨all s a, fun _ _ => ih⟩

/-- Two properties that agree where an invariant holds, which the second one keeps, in a run
all of whose operations satisfy `R`. -/
theorem along_iff_of {P Q R : σ → α → Prop} (I : σ → Prop)
    (same : ∀ s a, I s → R s a → (P s a ↔ Q s a))
    (keep : ∀ s t a, I s → Q s a → step s a = .ok t → I t) :
    ∀ {ops : List α} (s : σ), I s → Along step R s ops → (Along step P s ops ↔ Along step Q s ops) := by
  intro ops
  induction ops with
  | nil => intro s _ _; exact Iff.rfl
  | cons a rest ih =>
      rintro s inv ⟨here, along⟩
      have first := same s a inv here
      have kept := fun met t done => ih t (keep s t a inv met done) (along t done)
      constructor
      · rintro ⟨p, later⟩
        have q := first.mp p
        exact ⟨q, fun t done => (kept q t done).mp (later t done)⟩
      · rintro ⟨q, later⟩
        exact ⟨first.mpr q, fun t done => (kept q t done).mpr (later t done)⟩

theorem along_iff {P Q : σ → α → Prop} (I : σ → Prop) {ops : List α}
    (same : ∀ s a, I s → (P s a ↔ Q s a)) (keep : ∀ s t a, I s → Q s a → step s a = .ok t → I t)
    (s : σ) (start : I s) : Along step P s ops ↔ Along step Q s ops :=
  along_iff_of I (fun s a inv _ => same s a inv) keep s start
    (Along.of_forall (P := fun _ _ => True) fun _ _ => trivial)

theorem Along.reached {P : σ → α → Prop} {a : α} {after : List α} : ∀ {before : List α} {s t : σ},
    Along step P s (before ++ a :: after) → before.foldlM step s = .ok t → P t a := by
  intro before
  induction before with
  | nil =>
      intro s t along done
      cases done
      exact along.1
  | cons b rest ih =>
      intro s t along done
      rw [List.foldlM_cons, bind_eq_ok] at done
      obtain ⟨s₁, first, later⟩ := done
      exact ih (along.2 s₁ first) later

end Trunix.Lib
