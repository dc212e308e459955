import Trunix.Kernel.Ledger

/-!
# Cleared blocks

What a call of `alloc_pages` and the `memset` behind it give: a block that was free, is zero
now, and touches nothing that was handed out before.
-/

set_option autoImplicit false

namespace Trunix

open Trunix.Lib

structure Store.Cleared (init : List Block) (a r : Nat) (s s' : Store) : Prop where
  sound : s'.Sound init
  given : s'.given = ⟨a, r⟩ :: s.given
  free : s'.free = (s.allocPages r).2.free
  taken : ∃ b ∈ s.free, b.addr = a ∧ r ≤ b.sz
  zero : ∀ x ∈ Set.Ico a (a + r), s'.mem x = 0
  frame : Frame s.mem s'.mem (Set.Ico a (a + r))

section Cleared

variable {init : List Block} {a r : Nat} {s s' : Store}

theorem Store.Cleared.paged (h : s.Cleared init a r s') :
    a % 0x1000 = 0 ∧ r % 0x1000 = 0 ∧ 0 < r ∧ 0x80000000 ≤ a ∧ a + r ≤ 0x100000000 :=
  h.sound.paged (h.given ▸ List.mem_cons_self)

theorem Store.Cleared.apart (h : s.Cleared init a r s') {b : Block} (mem : b ∈ s.given) :
    a + r ≤ b.addr ∨ b.addr + b.sz ≤ a := by
  have apart := h.sound.apart
  rw [h.given] at apart
  have self := (List.pairwise_cons.mp apart).1 b mem
  simp only [Block.Apart] at self
  exact self

theorem Store.Sound.cleared (sound : s.Sound init) (whole : r % 0x1000 = 0) (pos : 0 < r)
    (fits : ∃ b ∈ s.free, r ≤ b.sz) :
    ∃ a s', (s.allocPages r).1 = a ∧ (s.allocPages r).2.memset a 0 r = .ok s' ∧ s.Cleared init a r s' := by
  have same : pgRoundup r = r := pgRoundup_of_aligned whole
  obtain ⟨b, memB, fit⟩ := fits
  cases found : takeFit r s.free with
  | none =>
      have small := takeFit_eq_none.mp found b memB
      omega
  | some pair =>
      obtain ⟨c, rest⟩ := pair
      obtain ⟨pre, post, split, _, fitC, _⟩ := takeFit_split found
      have memC : c ∈ s.free := by
        rw [split]
        simp
      have first : (s.allocPages r).1 = c.addr := by
        simp only [Store.allocPages, found]
      generalize call : s.allocPages r = result at first ⊢
      have alloc := call ▸ sound.alloc r
      cases alloc with
      | none small =>
          have tooSmall := small c memC
          omega
      | zero a free nothing => omega
      | some a free _ _ sound' =>
          rw [same] at sound' call ⊢
          have paged := sound'.paged List.mem_cons_self
          simp only at paged
          have low : ¬ (r ≠ 0 ∧ a < 0x1000) := by omega
          have done : Store.memset { s with free := free, given := ⟨a, r⟩ :: s.given } a 0 r =
              .ok { s with free := free, given := ⟨a, r⟩ :: s.given, mem := fill s.mem a r 0 } := by
            rw [Store.memset, touch, if_neg low, ok_bind]
            rfl
          refine ⟨a, _, rfl, done, sound'.write rfl rfl, rfl, by rw [call], ⟨c, memC, first.symm, fitC⟩,
            fun x inside => ?_, fill_frame _ _ _ _⟩
          simp only [Set.mem_Ico] at inside
          simp only [fill, if_pos inside]

/-- `alloc_pages` had a block, or the `memset` would have faulted. -/
theorem Store.fits_of_memset (pos : 0 < r)
    (cleared : (s.allocPages r).2.memset (s.allocPages r).1 0 r = .ok s') : ∃ b ∈ s.free, r ≤ b.sz := by
  by_contra none
  have small : ∀ b ∈ s.free, b.sz < r := by
    intro b mem
    by_contra fits
    exact none ⟨b, mem, by omega⟩
  have call : (s.allocPages r).1 = 0 := by
    simp only [Store.allocPages, takeFit_eq_none.mpr small]
  rw [call, Store.memset] at cleared
  obtain ⟨_, touched, _⟩ := bind_eq_ok.mp cleared
  rcases touch_eq_ok touched with nothing | high
  · omega
  · omega

theorem Store.Sound.given_not_free {b : Block} {x : Nat} (sound : s.Sound init) (mem : b ∈ s.given)
    (inside : b.addr ≤ x ∧ x < b.addr + b.sz) : Outside s.free x := by
  intro c inFree within
  have apart := (List.pairwise_append.mp sound.tidy.apart).2.2 c inFree b mem
  simp only [Block.Apart] at apart
  omega

theorem Store.allocPages_outside {x : Nat} (s : Store) (sz : Nat) (outside : Outside s.free x) :
    Outside (s.allocPages sz).2.free x := by
  simp only [Store.allocPages]
  cases found : takeFit sz s.free with
  | none => exact outside
  | some pair =>
      obtain ⟨b, rest⟩ := pair
      have old : ∀ c, c ∈ b :: rest → c ∈ s.free := fun c mem => (takeFit_perm found).mem_iff.mpr mem
      have later : Outside rest x := fun c mem => outside c (old c (List.mem_cons_of_mem _ mem))
      simp only [splitRest]
      split
      · rename_i split
        intro c mem
        rcases mem_putBack mem with rfl | inRest
        · have whole := outside b (old b List.mem_cons_self)
          simp only [Block.rest]
          omega
        · exact later c inRest
      · exact later

theorem Store.Cleared.outside (h : s.Cleared init a r s') {x : Nat} (outside : Outside s.free x) :
    Outside s'.free x := by
  rw [h.free]
  exact s.allocPages_outside r outside

theorem Store.Cleared.taken_free (h : s.Cleared init a r s') {x : Nat} (outside : Outside s.free x) :
    ¬ (a ≤ x ∧ x < a + r) := by
  obtain ⟨b, mem, start, fit⟩ := h.taken
  have out := outside b mem
  omega

end Cleared

end Trunix
