import Trunix.Kernel.Fork

/-!
# Copying a process

The loop of `sys_fork` over the regions of the parent.  It fills one block, piece by
piece, and maps the pieces into the directory of the child; between the pieces only
tables of that directory are allocated.
-/

set_option autoImplicit false

namespace Trunix

open Trunix.Lib

/-- The room a list of regions takes in the block of a child. -/
def span (regions : List VmRegion) : Nat := (regions.map fun m => pgRoundup m.len).sum

def copies : List VmRegion → Nat → List VmRegion
  | [], _ => []
  | m :: rest, mem => ⟨m.va, v2p mem, m.len⟩ :: copies rest (u32 (mem + pgRoundup m.len))

def VmRegion.User (m : VmRegion) : Prop :=
  m.len % 0x1000 = 0 ∧ pgRounddown m.va + m.len ≤ 0x80000000

theorem copyRegions_regions {pd : Nat} : ∀ (old : List VmRegion) (mem : Nat)
    (regions : List VmRegion) (s : Store) {r : List VmRegion × Store},
    copyRegions pd old mem regions s = .ok r → r.1 = (copies old mem).reverse ++ regions := by
  intro old
  induction old with
  | nil =>
      intro mem regions s r done
      cases done
      rfl
  | cons m rest ih =>
      intro mem regions s r done
      rw [copyRegions] at done
      obtain ⟨⟨node, s₁⟩, _, afterNode⟩ := bind_eq_ok.mp done
      obtain ⟨_, _, afterTouch⟩ := bind_eq_ok.mp afterNode
      obtain ⟨s₂, _, afterLink⟩ := bind_eq_ok.mp afterTouch
      obtain ⟨s₃, _, afterMove⟩ := bind_eq_ok.mp afterLink
      rw [ih _ _ _ afterMove, copies, List.reverse_cons, List.append_assoc]
      rfl

theorem VmRegion.User.rounded {m : VmRegion} (h : m.User) : pgRoundup m.len = m.len :=
  pgRoundup_of_aligned h.1

/-- A region that `alloc_pt` maps below `KERNEL_OFFSET`, if it maps anything for it. -/
def VmRegion.Light (m : VmRegion) : Prop := m.len = 0 ∨ m.User

theorem VmRegion.User.light {m : VmRegion} (h : m.User) : m.Light := Or.inr h

theorem VmRegion.Light.rounded {m : VmRegion} (h : m.Light) : pgRoundup m.len = m.len := by
  rcases h with none | user
  · rw [none]
    rfl
  · exact user.rounded

theorem VmRegion.Light.whole {m : VmRegion} (h : m.Light) : m.len % 0x1000 = 0 := by
  rw [← h.rounded]
  exact pgRoundup_mod _

theorem VmRegion.Light.range {m : VmRegion} (h : m.Light) :
    m.len = 0 ∨ pgRounddown m.va + pgRoundup m.len ≤ 0x80000000 := by
  rw [h.rounded]
  exact h.imp_right And.right

theorem copyRegion_filling {init : List Block} {pd blk sz off : Nat} {m : VmRegion} {s s₁ s₂ s₃ : Store}
    (sound : s.Sound init) (dir : PageDir s pd) (own : ⟨blk, sz⟩ ∈ s.given)
    (clear : ∀ x ∈ tableBytes s.mem pd, x ∉ Set.Ico blk (blk + sz)) (light : m.Light)
    (room : off + m.len ≤ sz) (bytes : s₁.mem = s.mem) (free : s₁.free = s.free)
    (given : s₁.given = s.given)
    (linked : allocPt pd m.va (v2p (u32 (blk + off))) m.len userFlags s₁ = .ok s₂)
    (moved : s₂.memmove (u32 (blk + off)) (fun i => s₂.mem (p2v m.pa + i)) m.len = .ok s₃) :
    Filling init pd (Set.Ico blk (blk + sz)) s s₃ := by
  have taken : Filling init pd (Set.Ico blk (blk + sz)) s s₁ :=
    Filling.write sound dir free given (by rw [bytes]; exact Frame.refl _ _) clear
  have mapping := allocPt_mapping taken.sound taken.dir light.range linked
  have mapped := taken.trans mapping.filling
  have paged := sound.paged own
  simp only at paged
  obtain ⟨_, touched, result⟩ := bind_eq_ok.mp moved
  cases result
  refine mapped.trans (Filling.write mapped.sound mapped.dir rfl rfl ?_ (mapped.clear own clear))
  by_cases empty : m.len = 0
  · intro x _
    simp [blit, empty]
  · have small : u32 (blk + off) = blk + off := u32_of_lt (by omega)
    rw [small]
    have written := blit_frame s₂.mem (blk + off) m.len (fun i => s₂.mem (p2v m.pa + i))
    refine written.mono fun x inside => ?_
    simp only [Set.mem_Ico] at inside ⊢
    omega

theorem copyRegions_filling {init : List Block} {pd blk sz : Nat} : ∀ (old : List VmRegion) (off : Nat)
    (regions : List VmRegion) (s : Store) {r : List VmRegion × Store}, s.Sound init → PageDir s pd →
    ⟨blk, sz⟩ ∈ s.given → (∀ x ∈ tableBytes s.mem pd, x ∉ Set.Ico blk (blk + sz)) →
    (∀ m ∈ old, m.Light) → off + span old ≤ sz →
    copyRegions pd old (u32 (blk + off)) regions s = .ok r →
    Filling init pd (Set.Ico blk (blk + sz)) s r.2 := by
  intro old
  induction old with
  | nil =>
      intro off regions s r sound dir _ _ _ _ done
      cases done
      exact (Mapping.refl sound dir).filling
  | cons m rest ih =>
      intro off regions s r sound dir own clear lights room done
      have light := lights m List.mem_cons_self
      have spanEq : span (m :: rest) = m.len + span rest := by
        simp only [span, List.map_cons, List.sum_cons, light.rounded]
      rw [copyRegions] at done
      obtain ⟨⟨node, s₁⟩, allocated, afterNode⟩ := bind_eq_ok.mp done
      obtain ⟨_, _, afterTouch⟩ := bind_eq_ok.mp afterNode
      obtain ⟨s₂, linked, afterLink⟩ := bind_eq_ok.mp afterTouch
      obtain ⟨s₃, moved, afterMove⟩ := bind_eq_ok.mp afterLink
      obtain ⟨bytes, free, given⟩ := Store.kmalloc_heap allocated
      have first := copyRegion_filling sound dir own clear light (by omega) bytes free given linked moved
      have next : u32 (u32 (blk + off) + pgRoundup m.len) = u32 (blk + (off + m.len)) := by
        rw [u32_add, light.rounded, Nat.add_assoc]
      simp only [next] at afterMove
      exact first.trans (ih (off + m.len) _ s₃ first.sound first.dir (first.mem_given own)
        (first.clear own clear) (fun other mem => lights other (List.mem_cons_of_mem _ mem)) (by omega)
        afterMove)

theorem copies_inside {blk sz : Nat} (high : 0x80000000 ≤ blk) (bound : blk + sz ≤ 0x100000000) :
    ∀ (old : List VmRegion) (off : Nat), (∀ m ∈ old, m.Light) → off + span old ≤ sz →
    ∀ c ∈ copies old (u32 (blk + off)), c.len ≠ 0 → blk ≤ p2v c.pa ∧ p2v c.pa + c.len ≤ blk + sz := by
  intro old
  induction old with
  | nil => intro off _ _ c mem; exact absurd mem List.not_mem_nil
  | cons m rest ih =>
      intro off lights room c mem nonempty
      have light := lights m List.mem_cons_self
      have spanEq : span (m :: rest) = m.len + span rest := by
        simp only [span, List.map_cons, List.sum_cons, light.rounded]
      rcases List.mem_cons.mp mem with rfl | later
      · simp only at nonempty ⊢
        rw [u32_of_lt (by omega), p2v_v2p (by omega) (by omega)]
        omega
      · have next : u32 (u32 (blk + off) + pgRoundup m.len) = u32 (blk + (off + m.len)) := by
          rw [u32_add, light.rounded, Nat.add_assoc]
        rw [next] at later
        exact ih (off + m.len) (fun other mem => lights other (List.mem_cons_of_mem _ mem)) (by omega) c
          later nonempty

end Trunix
