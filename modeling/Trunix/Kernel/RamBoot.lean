import Trunix.Kernel.RamFork
import Trunix.Mem.Init

/-!
# The memory that `init_mem` leaves

When `init_mem` is done the free pages and the heap block are on their lists in memory, and
nothing else is the allocators'.  From there on memory is as good as the store.
-/

set_option autoImplicit false

namespace Trunix

open Trunix.Lib

def Store.boot (m : Mem) (free : List Block) (sb : Nat) : Store := ⟨m, free, [⟨sb, 0x10000⟩], []⟩

/-- Outside the allocators the kernel finds what the boot loader left. -/
def Seen.boot (freelist heap : Nat) (m : Mem) (free : List Block) (sb : Nat) : Seen :=
  ⟨Store.boot m free sb, { x | x ∉ (Store.boot m free sb).hidden freelist heap sb }⟩

section Boot

variable {k : Kinfo} {freelist heap : Nat}

theorem initMem_heap {m m' : Mem} {sb : Nat} (boot : initMem freelist heap m k = .ok (sb, m')) :
    ∃ m₂, m' = initHeap heap m₂ sb := by
  rw [initMem] at boot
  obtain ⟨m₁, _, afterLoop⟩ := bind_eq_ok.mp boot
  obtain ⟨⟨a, m₂⟩, _, afterAlloc⟩ := bind_eq_ok.mp afterLoop
  by_cases null : a = 0
  · simp only [if_pos null] at afterAlloc
    cases afterAlloc
  · simp only [if_neg null] at afterAlloc
    cases afterAlloc
    exact ⟨m₂, rfl⟩

/-- After `init_mem` memory holds the store of the boot. -/
theorem initMem_holds (placed : HeadsPlaced freelist heap) (ok : k.Bootable freelist heap)
    {m m' : Mem} {sb : Nat} (boot : initMem freelist heap m k = .ok (sb, m')) :
    ∃ free, freeBlocks freelist m' = .ok free ∧
      (∀ b ∈ free, ∃ c ∈ bootBlocks k.entries, b.Inside c) ∧ RamLayout freelist heap sb free ∧
      HoldsStore freelist heap sb free m' (Seen.boot freelist heap m' free sb) := by
  have kept := initMem_kept placed ok boot
  obtain ⟨m₂, written⟩ := initMem_heap boot
  have freeApart := ok.head_apart freelist (by simp)
  have heapApart := ok.head_apart heap (by simp)
  obtain ⟨list, tidy⟩ := kept.sound
  have extent : Block.extent ⟨sb, 0x10000⟩ = ⟨sb, 0x10000⟩ := by
    rw [Block.extent, show pgRoundup 0x10000 = 0x10000 by decide]
  have blocks : (Arena.booted freelist m' sb).solid.blocks =
      (Arena.booted freelist m' sb).solid.free ++ [⟨sb, 0x10000⟩] := by
    simp [Arena.blocks, Arena.solid, Arena.booted, extent]
  rw [blocks] at tidy
  change FreeListAt freelist m' _ at list
  generalize (Arena.booted freelist m' sb).solid.free = free at list tidy
  -- the heap block, and the blocks of the list beside it
  have memHeap : (⟨sb, 0x10000⟩ : Block) ∈ free ++ [⟨sb, 0x10000⟩] :=
    List.mem_append_right free (List.mem_singleton.mpr rfl)
  have grained := tidy.grained _ memHeap
  obtain ⟨c, memC, insideC⟩ := tidy.inside _ memHeap
  have inside : ∀ b ∈ free, ∃ c ∈ bootBlocks k.entries, b.Inside c := fun b mem =>
    tidy.inside b (List.mem_append_left _ mem)
  have apart : ∀ b ∈ free, b.Apart ⟨sb, 0x10000⟩ := fun b mem =>
    (List.pairwise_append.mp tidy.apart).2.2 b mem _ (List.mem_singleton.mpr rfl)
  have high : ∀ b ∈ free, 0x80000000 ≤ b.addr := by
    intro b mem
    obtain ⟨d, memD, lo, _⟩ := inside b mem
    obtain ⟨e, memE, available, rfl⟩ := mem_bootBlocks.mp memD
    rw [ok.block_eq memE available] at lo
    exact Nat.le_trans (Nat.le_add_right _ _) lo
  have aligned := Nat.mod_eq_zero_of_dvd grained.aligned
  have bound := grained.bound
  have nonnull := grained.nonnull
  simp only [Block.Inside] at insideC
  have place : HeapPlace heap sb := by
    refine ⟨nonnull, aligned, bound, placed.heapBound, ?_⟩
    have cell := heapApart c memC
    omega
  have layout : RamLayout freelist heap sb free := by
    refine ⟨place, placed.freelistBound, placed.apart, ?_, fun b mem => ?_, fun b mem => ?_, fun b mem => ?_⟩
    · have cell := freeApart c memC
      omega
    · obtain ⟨d, memD, lo, hi⟩ := inside b mem
      have cell := freeApart d memD
      omega
    · obtain ⟨d, memD, lo, hi⟩ := inside b mem
      have cell := heapApart d memD
      omega
    · have disjoint := apart b mem
      simp only [Block.Apart] at disjoint
      omega
  refine ⟨free, list.freeBlocks_eq, inside, layout, ⟨⟨?_, high⟩, list.linked, ⟨[], ?_⟩, ?_, ?_⟩⟩
  · have sub := (List.sublist_append_left free [⟨sb, 0x10000⟩]).subperm
    have tidyFree := tidy.subperm sub
    change Tidy 0x1000 free (free ++ [])
    rw [List.append_nil]
    exact ⟨tidyFree.grained, fun b mem => ⟨b, mem, Nat.le_refl _, Nat.le_refl _⟩, tidyFree.apart⟩
  · rw [written]
    exact HeapArena.start_sound m₂ place
  · exact fun x _ => rfl
  · exact fun x seen => seen

/-- From the memory that `init_mem` leaves on a bootable map, every program that reads what is
there outside the allocators, or what it wrote, and keeps off the allocators' own data has the
answers of the store whose lists are the free list and the heap block: the allocators of the code
never give it other addresses, never lose or change its bytes, and stop it with an error only
where the store does. -/
theorem init_mem_refines_store (placed : HeadsPlaced freelist heap) (ok : k.Bootable freelist heap)
    {m m' : Mem} {sb : Nat} (boot : initMem freelist heap m k = .ok (sb, m')) :
    ∃ free, freeBlocks freelist m' = .ok free ∧ (∀ b ∈ free, ∃ c ∈ bootBlocks k.entries, b.Inside c) ∧
      ∀ {α : Type} (p : Memory α) {Q : α → Seen → Prop},
        p.Meets Seen.serve (MemOp.Allowed freelist heap sb) Q (Seen.boot freelist heap m' free sb) →
        Agree (HoldsStore freelist heap sb free) (p.run (ramServe freelist heap) m')
            (p.run Seen.serve (Seen.boot freelist heap m' free sb)) ∧
          (p.run (ramServe freelist heap) m').map Prod.fst =
            (p.run Store.serve (Store.boot m' free sb)).map Prod.fst := by
  obtain ⟨free, list, inside, layout, holds⟩ := initMem_holds placed ok boot
  exact ⟨free, list, inside, fun p _ meets => ram_refines_store layout holds p meets⟩

end Boot

/-- Two regions of 128 KiB: the first process's page directory is built in memory as in the store. -/
theorem init_mem_refines_store_copykvm :
    ∃ m' free, initMem 0x80480000 0x80480010 (fun _ => 0) (twoRegions 0x1000000 0x2000000) =
        .ok (0x81000000, m') ∧ freeBlocks 0x80480000 m' = .ok free ∧
      ((Memory.copykvm 0x80300000).run (ramServe 0x80480000 0x80480010) m').map Prod.fst =
        ((Memory.copykvm 0x80300000).run Store.serve (Store.boot m' free 0x81000000)).map Prod.fst := by
  obtain ⟨m', _, boot, _⟩ := twoRegions_run 0x1000000 0x2000000 0x81000000 0x81010000
    (by decide +kernel) (by decide +kernel)
  have placed : HeadsPlaced 0x80480000 0x80480010 := ⟨by decide, by decide, by decide⟩
  have ok : (twoRegions 0x1000000 0x2000000).Bootable 0x80480000 0x80480010 := by
    refine ⟨by decide, by decide, ?_, by decide⟩
    rw [twoRegions_entries, List.filter_eq_self.mpr (by decide), List.pairwise_pair,
      Set.disjoint_left]
    intro x first second
    rw [MultibootMmapEntry.mem_bytes] at first second
    simp only at first second
    omega
  obtain ⟨free, list, inside, same⟩ := init_mem_refines_store placed ok boot
  obtain ⟨free', list', _, layout, holds⟩ := initMem_holds placed ok boot
  obtain rfl : free = free' := Except.ok.inj (list.symm.trans list')
  refine ⟨m', free, boot, list, (same _ (copykvm_meets layout holds.sound ?_)).2⟩
  -- the kernel's directory lies below the two regions
  rintro x lo hi (cell | cell | inHeap | ⟨b, mem, lo', hi'⟩)
  · omega
  · omega
  · omega
  · obtain ⟨c, memC, insideC⟩ := inside b mem
    have low : ∀ c ∈ bootBlocks (twoRegions 0x1000000 0x2000000).entries, 0x81000000 ≤ c.addr := by
      decide
    have := low c memC
    simp only [Block.Inside] at insideC
    omega

end Trunix
