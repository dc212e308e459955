import Mathlib

/-!
# Copying a range cell by cell

`copyUp` copies `n` cells from `s` to `d` with the lowest cell first, `copyDown` with the
highest one first.  The ranges may overlap.  A copy in the direction that reads a cell
before it is overwritten moves the range; in the other direction the target repeats its
own beginning, so that the copy is right exactly when the source repeats at the distance
of the two ranges.
-/

set_option autoImplicit false

namespace Trunix.Lib

universe u

variable {β : Type u}

def copyUp : Nat → Nat → Nat → (Nat → β) → Nat → β
  | 0, _, _, m => m
  | n + 1, d, s, m => copyUp n (d + 1) (s + 1) (Function.update m d (m s))

def copyDown : Nat → Nat → Nat → (Nat → β) → Nat → β
  | 0, _, _, m => m
  | n + 1, d, s, m => copyDown n d s (Function.update m (d + n) (m (s + n)))

/-- The `n` cells at `d` hold what was at `s`, and nothing else has changed. -/
def Moved (m m' : Nat → β) (d s n : Nat) : Prop :=
  (∀ i < n, m' (d + i) = m (s + i)) ∧ ∀ x, x ∉ Set.Ico d (d + n) → m' x = m x

/-- Cells of the range that are `k` apart hold the same. -/
def Repeats (m : Nat → β) (s n k : Nat) : Prop := ∀ i, i + k < n → m (s + i) = m (s + (i + k))

theorem Repeats.zero (m : Nat → β) (s n : Nat) : Repeats m s n 0 := fun _ _ => rfl

theorem Repeats.of_le {m : Nat → β} {s n k : Nat} (apart : n ≤ k) : Repeats m s n k := by
  intro i lt
  omega

/-! ## What is not written -/

theorem copyUp_outside : ∀ {n d x : Nat} (s : Nat) (m : Nat → β), x < d ∨ d + n ≤ x →
    copyUp n d s m x = m x := by
  intro n
  induction n with
  | zero => intro d x s m _; rfl
  | succ n ih =>
      intro d x s m out
      rw [copyUp, ih (s + 1) _ (by omega), Function.update_of_ne (by omega)]

theorem copyDown_outside : ∀ {n d x : Nat} (s : Nat) (m : Nat → β), x < d ∨ d + n ≤ x →
    copyDown n d s m x = m x := by
  intro n
  induction n with
  | zero => intro d x s m _; rfl
  | succ n ih =>
      intro d x s m out
      rw [copyDown, ih s _ (by omega), Function.update_of_ne (by omega)]

theorem outside_of_not_mem {d n x : Nat} (out : x ∉ Set.Ico d (d + n)) : x < d ∨ d + n ≤ x := by
  rw [Set.mem_Ico] at out
  omega

/-- What holds of every source cell holds of every target cell, whatever the overlap. -/
theorem copyUp_all {P : β → Prop} : ∀ (n d s : Nat) (m : Nat → β), (∀ i < n, P (m (s + i))) →
    ∀ i < n, P (copyUp n d s m (d + i)) := by
  intro n
  induction n with
  | zero => intro d s m _ i lt; exact absurd lt (Nat.not_lt_zero i)
  | succ n ih =>
      intro d s m all i lt
      have first : P (m s) := all 0 (Nat.succ_pos n)
      have kept : ∀ j < n, P (Function.update m d (m s) (s + 1 + j)) := by
        intro j ltJ
        by_cases same : s + 1 + j = d
        · rw [same, Function.update_self]
          exact first
        · rw [Function.update_of_ne same, Nat.add_assoc, Nat.add_comm 1 j]
          exact all (j + 1) (by omega)
      rw [copyUp]
      cases i with
      | zero =>
          rw [copyUp_outside _ _ (.inl (by omega)), Nat.add_zero, Function.update_self]
          exact first
      | succ i =>
          have index : d + (i + 1) = d + 1 + i := by omega
          rw [index]
          exact ih (d + 1) (s + 1) _ kept i (by omega)

/-! ## The safe direction -/

/-- A copy to lower addresses may start at its lowest cell. -/
theorem copyUp_eq : ∀ (n d s : Nat) (m : Nat → β), d ≤ s ∨ s + n ≤ d →
    ∀ i < n, copyUp n d s m (d + i) = m (s + i) := by
  intro n
  induction n with
  | zero => intro d s m _ i lt; exact absurd lt (Nat.not_lt_zero i)
  | succ n ih =>
      intro d s m safe i lt
      rw [copyUp]
      cases i with
      | zero =>
          rw [copyUp_outside _ _ (.inl (by omega))]
          exact Function.update_self d (m s) m
      | succ i =>
          have later := ih (d + 1) (s + 1) (Function.update m d (m s)) (by omega) i (by omega)
          have index : d + (i + 1) = d + 1 + i := by omega
          have index' : s + (i + 1) = s + 1 + i := by omega
          rw [index, later, index', Function.update_of_ne (by omega)]

theorem copyDown_eq : ∀ (n d s : Nat) (m : Nat → β), s ≤ d ∨ d + n ≤ s →
    ∀ i < n, copyDown n d s m (d + i) = m (s + i) := by
  intro n
  induction n with
  | zero => intro d s m _ i lt; exact absurd lt (Nat.not_lt_zero i)
  | succ n ih =>
      intro d s m safe i lt
      rw [copyDown]
      by_cases last : i = n
      · rw [copyDown_outside _ _ (.inr (by omega)), last]
        exact Function.update_self (d + n) (m (s + n)) m
      · have later := ih d s (Function.update m (d + n) (m (s + n))) (by omega) i (by omega)
        rw [later, Function.update_of_ne (by omega)]

/-! ## The other direction -/

theorem copyUp_self : ∀ (n d s : Nat) (m : Nat → β), s < d →
    ∀ i < n, copyUp n d s m (d + i) = copyUp n d s m (s + i) := by
  intro n
  induction n with
  | zero => intro d s m _ i lt; exact absurd lt (Nat.not_lt_zero i)
  | succ n ih =>
      intro d s m below i lt
      rw [copyUp]
      cases i with
      | zero =>
          rw [copyUp_outside _ _ (.inl (by omega)), copyUp_outside _ _ (.inl (by omega)), Nat.add_zero,
            Nat.add_zero, Function.update_self, Function.update_of_ne (by omega)]
      | succ i =>
          have later := ih (d + 1) (s + 1) (Function.update m d (m s)) (by omega) i (by omega)
          have index : d + (i + 1) = d + 1 + i := by omega
          have index' : s + (i + 1) = s + 1 + i := by omega
          rw [index, index', later]

theorem copyDown_self : ∀ (n d s : Nat) (m : Nat → β), d < s →
    ∀ i < n, copyDown n d s m (d + i) = copyDown n d s m (s + i) := by
  intro n
  induction n with
  | zero => intro d s m _ i lt; exact absurd lt (Nat.not_lt_zero i)
  | succ n ih =>
      intro d s m below i lt
      rw [copyDown]
      by_cases last : i = n
      · rw [copyDown_outside _ _ (.inr (by omega)), copyDown_outside _ _ (.inr (by omega)), last,
          Function.update_self, Function.update_of_ne (by omega)]
      · exact ih d s (Function.update m (d + n) (m (s + n))) below i (by omega)

/-! ## When a copy moves its range -/

theorem copyUp_moved {m : Nat → β} {d s n : Nat} :
    Moved m (copyUp n d s m) d s n ↔ d ≤ s ∨ Repeats m s n (d - s) := by
  constructor
  · intro moved
    rcases Nat.lt_or_ge s d with below | le
    · refine .inr fun i lt => ?_
      -- the cell `d + i` is also the cell `s + (i + (d - s))`
      have same := copyUp_self n d s m below (i + (d - s)) lt
      have cell : s + (i + (d - s)) = d + i := by omega
      rw [moved.1 _ lt, cell, moved.1 i (by omega)] at same
      rw [cell]
      exact same.symm
    · exact .inl le
  · intro safe
    refine ⟨?_, fun x out => copyUp_outside s m (outside_of_not_mem out)⟩
    rcases Nat.lt_or_ge s d with below | le
    · have repeats : Repeats m s n (d - s) := safe.resolve_left (Nat.not_le.mpr below)
      intro i
      induction i using Nat.strong_induction_on with
      | h i ih =>
          intro lt
          rw [copyUp_self n d s m below i lt]
          rcases Nat.lt_or_ge i (d - s) with early | late
          · exact copyUp_outside s m (.inl (by omega))
          · have cell : s + i = d + (i - (d - s)) := by omega
            have back : i - (d - s) + (d - s) = i := by omega
            have turn := repeats (i - (d - s)) (by omega)
            rw [back] at turn
            rw [cell, ih (i - (d - s)) (by omega) (by omega), turn, ← cell]
    · exact copyUp_eq n d s m (.inl le)

theorem copyDown_moved {m : Nat → β} {d s n : Nat} :
    Moved m (copyDown n d s m) d s n ↔ s ≤ d ∨ Repeats m s n (s - d) := by
  constructor
  · intro moved
    rcases Nat.lt_or_ge d s with below | le
    · refine .inr fun i lt => ?_
      have same := copyDown_self n d s m below i (by omega)
      have cell : s + i = d + (i + (s - d)) := by omega
      rw [moved.1 i (by omega), cell, moved.1 _ lt] at same
      rw [cell]
      exact same
    · exact .inl le
  · intro safe
    refine ⟨?_, fun x out => copyDown_outside s m (outside_of_not_mem out)⟩
    rcases Nat.lt_or_ge d s with below | le
    · have repeats : Repeats m s n (s - d) := safe.resolve_left (Nat.not_le.mpr below)
      -- from the top: what is left above a cell gets smaller
      have fromTop : ∀ j i, j = n - i → i < n → copyDown n d s m (d + i) = m (s + i) := by
        intro j
        induction j using Nat.strong_induction_on with
        | h j ih =>
            intro i left lt
            rw [copyDown_self n d s m below i lt]
            rcases Nat.lt_or_ge (i + (s - d)) n with early | late
            · have cell : s + i = d + (i + (s - d)) := by omega
              have turn := repeats i early
              rw [cell, ih (n - (i + (s - d))) (by omega) (i + (s - d)) rfl early, ← turn, cell]
            · exact copyDown_outside s m (.inr (by omega))
      exact fun i lt => fromTop (n - i) i rfl lt
    · exact copyDown_eq n d s m (.inl le)

theorem Moved.unique {m m₁ m₂ : Nat → β} {d s n : Nat} (h : Moved m m₁ d s n) (h' : Moved m m₂ d s n) :
    m₁ = m₂ := by
  funext x
  by_cases inside : x ∈ Set.Ico d (d + n)
  · rw [Set.mem_Ico] at inside
    have index : x = d + (x - d) := by omega
    rw [index, h.1 _ (by omega), h'.1 _ (by omega)]
  · rw [h.2 x inside, h'.2 x inside]

end Trunix.Lib
