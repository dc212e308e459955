import Mathlib

/-!
# Reversing a list in place

Two indices move towards each other and the entries under them are exchanged.  The part
of the list between them ends up reversed, and nothing else changes.
-/

set_option autoImplicit false

namespace Trunix.Lib

universe u

variable {α : Type u}

def swap [Inhabited α] (s : List α) (i j : Nat) : List α :=
  (s.set i (s.getD j default)).set j (s.getD i default)

/-- The loop; `fuel` bounds the number of rounds. -/
def reverseLoop [Inhabited α] : Nat → List α → Nat → Nat → List α
  | 0, s, _, _ => s
  | fuel + 1, s, j, i => if j < i then reverseLoop fuel (swap s i j) (j + 1) (i - 1) else s

theorem swap_ends [Inhabited α] (pre mid post : List α) (x y : α) :
    swap (pre ++ (x :: (mid ++ [y]) ++ post)) (pre.length + (mid.length + 1)) pre.length =
      pre ++ (y :: (mid ++ [x]) ++ post) := by
  simp [swap, List.getD_eq_getElem?_getD]

/-- The part between the two indices is reversed. -/
theorem reverseLoop_eq [Inhabited α] : ∀ (fuel : Nat) (pre mid post : List α), mid.length ≤ fuel →
    reverseLoop fuel (pre ++ (mid ++ post)) pre.length (pre.length + mid.length - 1) =
      pre ++ (mid.reverse ++ post) := by
  intro fuel
  induction fuel with
  | zero =>
      intro pre mid post short
      rw [List.length_eq_zero_iff.mp (Nat.le_zero.mp short)]
      rfl
  | succ fuel ih =>
      intro pre mid post short
      induction mid using List.bidirectionalRec with
      | nil =>
          have stop : ¬ pre.length < pre.length + ([] : List α).length - 1 := by simp
          rw [reverseLoop, if_neg stop]
          rfl
      | singleton x =>
          have stop : ¬ pre.length < pre.length + [x].length - 1 := by simp
          rw [reverseLoop, if_neg stop]
          rfl
      | cons_append x mid y _ =>
          have size : (x :: (mid ++ [y])).length = mid.length + 2 := by simp
          have last : pre.length + (x :: (mid ++ [y])).length - 1 = pre.length + (mid.length + 1) := by
            omega
          have apart : pre.length < pre.length + (mid.length + 1) := by omega
          rw [reverseLoop, last, if_pos apart, swap_ends]
          have inner := ih (pre ++ [y]) mid (x :: post) (by omega)
          have length : (pre ++ [y]).length = pre.length + 1 := by simp
          have next : pre.length + 1 + mid.length - 1 = pre.length + (mid.length + 1) - 1 := by omega
          rw [length, next] at inner
          simpa using inner

end Trunix.Lib
