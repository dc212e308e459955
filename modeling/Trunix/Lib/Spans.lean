import Mathlib

/-!
# Families of disjoint spans

A span is the half-open range `[start a, start a + len a)`.  Spans that are apart
from each other and lie between two bounds have lengths that add up to at most the
distance of the bounds.
-/

set_option autoImplicit false

namespace Trunix.Lib

universe u

variable {ι : Type u} (start len : ι → Nat)

def SpansApart (a b : ι) : Prop :=
  ∀ x, start a ≤ x → x < start a + len a → start b ≤ x → start b + len b ≤ x

theorem spansApart_of_order {a b : ι}
    (order : start a + len a ≤ start b ∨ start b + len b ≤ start a) :
    SpansApart start len a b := by
  intro x _ _ _
  omega

def covered : List ι → Finset Nat
  | [] => ∅
  | a :: rest => Finset.Ico (start a) (start a + len a) ∪ covered rest

theorem mem_covered {x : Nat} : ∀ {L : List ι},
    x ∈ covered start len L ↔ ∃ a ∈ L, start a ≤ x ∧ x < start a + len a := by
  intro L
  induction L with
  | nil => simp [covered]
  | cons a rest ih => simp [covered, ih]

theorem card_covered : ∀ {L : List ι}, L.Pairwise (SpansApart start len) →
    (covered start len L).card = (L.map len).sum := by
  intro L
  induction L with
  | nil => intro _; rfl
  | cons a rest ih =>
      intro apart
      obtain ⟨head, tail⟩ := List.pairwise_cons.mp apart
      have disjoint : Disjoint (Finset.Ico (start a) (start a + len a))
          (covered start len rest) := by
        rw [Finset.disjoint_left]
        intro x inHead inTail
        obtain ⟨b, mem, lo, hi⟩ := (mem_covered start len).mp inTail
        rw [Finset.mem_Ico] at inHead
        have := head b mem x inHead.1 inHead.2 lo
        omega
      rw [covered, Finset.card_union_of_disjoint disjoint, ih tail, Nat.card_Ico]
      simp

theorem sum_len_le {lo hi : Nat} {L : List ι} (apart : L.Pairwise (SpansApart start len))
    (inside : ∀ a ∈ L, lo ≤ start a ∧ start a + len a ≤ hi) : (L.map len).sum ≤ hi - lo := by
  rw [← card_covered start len apart, ← Nat.card_Ico]
  apply Finset.card_le_card
  intro x mem
  obtain ⟨a, memA, low, high⟩ := (mem_covered start len).mp mem
  have bounds := inside a memA
  rw [Finset.mem_Ico]
  omega

/-- Disjoint spans between two bounds whose lengths add up to the distance of the
bounds leave no gap. -/
theorem covered_eq_Ico {lo hi : Nat} {L : List ι} (apart : L.Pairwise (SpansApart start len))
    (inside : ∀ a ∈ L, lo ≤ start a ∧ start a + len a ≤ hi) (full : hi - lo ≤ (L.map len).sum) :
    covered start len L = Finset.Ico lo hi := by
  apply Finset.eq_of_subset_of_card_le
  · intro x mem
    obtain ⟨a, memA, low, high⟩ := (mem_covered start len).mp mem
    have bounds := inside a memA
    rw [Finset.mem_Ico]
    omega
  · rw [card_covered start len apart, Nat.card_Ico]
    exact full

/-- Only as many nonempty disjoint spans fit as there are points. -/
theorem length_le_of_apart {lo hi : Nat} {L : List ι} (apart : L.Pairwise (SpansApart start len))
    (inside : ∀ a ∈ L, lo ≤ start a ∧ start a + len a ≤ hi) (nonempty : ∀ a ∈ L, 1 ≤ len a) :
    L.length ≤ hi - lo := by
  have count := List.length_le_sum_of_one_le (L.map len) (by simpa using nonempty)
  rw [List.length_map] at count
  exact Nat.le_trans count (sum_len_le start len apart inside)

end Trunix.Lib
