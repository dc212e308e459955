import Trunix.Kernel.Anon
import Trunix.Kernel.Spaces

/-!
# An address space that grows

What an anonymous mapping adds to the memory of a process: zeros behind its end, out of a
block that was free.  Everything the process had before is where it was, as long as the
new pages are not among those it has already; the code never looks.
-/

set_option autoImplicit false

namespace Trunix

open Trunix.Lib

def zeros (a n x : Nat) : Option UInt8 := if a ≤ x ∧ x < a + n then some 0 else none

theorem zeros_inside {a n x : Nat} (inside : x ∈ Set.Ico a (a + n)) : zeros a n x = some 0 := if_pos inside

theorem zeros_outside {a n x : Nat} (out : x ∉ Set.Ico a (a + n)) : zeros a n x = none := if_neg out

structure Kernel.Extended (init : List Block) (k k' : Kernel) (n a base r : Nat) : Prop where
  pos : 0 < r
  whole : base % 0x1000 = 0 ∧ r % 0x1000 = 0
  below : base + r < mmapLimit
  high : 0x80000000 ≤ a ∧ a + r ≤ 0x100000000
  sound : k'.store.Sound init
  given : ∀ b ∈ k.store.given, b ∈ k'.store.given
  own : (⟨a, r⟩ : Block) ∈ k'.store.given
  apart : ∀ b ∈ k.store.given, Block.Apart ⟨a, r⟩ b
  dir : PageDir k'.store (k'.dir n)
  tables : k'.tables n ⊆ k.tables n ∪ k.store.newBytes k'.store
  clear : ∀ x ∈ k'.tables n, x ∉ Set.Ico a (a + r)
  maps : ∀ x ∈ Set.Ico base (base + r), walk k'.store.mem (k'.dir n) x = some (v2p a + (x - base))
  others : ∀ x < 0x80000000, x ∉ Set.Ico base (base + r) →
    walk k'.store.mem (k'.dir n) x = walk k.store.mem (k.dir n) x
  zero : ∀ x ∈ Set.Ico a (a + r), k'.store.mem x = 0
  frame : Frame k.store.mem k'.store.mem (k.tables n ∪ k.store.newBytes k'.store)

section Extended

variable {init : List Block} {k k' : Kernel} {a base r n : Nat} {s s₁ : Store}

theorem Kernel.Housed.extended (h : k.Housed n) (pos : 0 < r) (bytes : s.mem = k.store.mem)
    (given : s.given = k.store.given) (fresh : s.Cleared init a r s₁) (aligned : base % 0x1000 = 0)
    (below : base + r < mmapLimit)
    (linked : allocPt (k.dir n) base (v2p a) r userFlags s₁ = .ok k'.store) (dirEq : k'.dir n = k.dir n) :
    k.Extended init k' n a base r := by
  have limit : mmapLimit = 0x7FFFF000 := rfl
  obtain ⟨alignedA, whole, _, high, top⟩ := fresh.paged
  have physical := v2p_eq a
  have dir := h.dir.of_same bytes given
  obtain ⟨dir₁, entries, clear₁⟩ := fresh.pageDir dir
  obtain ⟨mapping, walks⟩ := allocPt_spec fresh.sound dir₁ (v2p_lt a)
    (by rw [pgRounddown_of_aligned aligned, pgRoundup_of_aligned whole]; omega) linked
  simp only [pgRounddown_of_aligned aligned, pgRoundup_of_aligned whole,
    pgRounddown_of_aligned (show v2p a % 0x1000 = 0 by omega)] at walks
  have own : (⟨a, r⟩ : Block) ∈ s₁.given := fresh.given ▸ List.mem_cons_self
  have older : ∀ b ∈ k.store.given, b ∈ s₁.given := fun b old => by
    rw [fresh.given, given]
    exact List.mem_cons_of_mem _ old
  have unknown : (⟨a, r⟩ : Block) ∉ k.store.given := by
    rw [← given]
    exact fresh.sound.not_mem_of_new (show s₁.given = [⟨a, r⟩] ++ s.given from fresh.given)
      (List.mem_singleton_self _)
  have new : Set.Ico a (a + r) ⊆ k.store.newBytes k'.store := fun x inside =>
    ⟨_, mapping.mem_given own, unknown, inside⟩
  -- the tables: those from before and new pages
  have before : tableBytes s₁.mem (k.dir n) = k.tables n := by
    rw [tableBytes_congr entries, bytes]
    rfl
  have tables : k'.tables n = tableBytes k'.store.mem (k.dir n) := by rw [Kernel.tables, dirEq]
  have tablesNew : k'.tables n ⊆ k.tables n ∪ k.store.newBytes k'.store := by
    rw [tables, ← before]
    refine (mapping.filling (S := ∅)).tables_new.trans (Set.union_subset_union_right _ ?_)
    exact Store.newBytes_mono older fun _ old => old
  have clear : ∀ x ∈ k'.tables n, x ∉ Set.Ico a (a + r) := by
    rw [tables]
    exact mapping.clear own clear₁
  refine ⟨pos, ⟨aligned, whole⟩, below, ⟨high, top⟩, mapping.sound,
    fun b old => mapping.mem_given (older b old), mapping.mem_given own,
    fun b old => fresh.apart (given ▸ old), dirEq ▸ mapping.dir, tablesNew, clear,
    fun x inside => ?_, fun x low out => ?_, fun x inside => ?_, ?_⟩
  · simp only [Set.mem_Ico] at inside
    rw [dirEq, walks x (by omega), if_pos inside, u32_of_lt (by omega)]
  · rw [before] at clear₁
    simp only [Set.mem_Ico] at out
    rw [dirEq, walks x low, if_neg out, ← bytes]
    refine walk_of_frame fresh.frame low fun y inTables => clear₁ y ?_
    rw [Kernel.tables, ← bytes]
    exact inTables
  · rw [mapping.frame _ fun inTables => clear x (tables ▸ inTables) inside]
    exact fresh.zero x inside
  · have first : Frame k.store.mem s₁.mem (k.tables n ∪ k.store.newBytes k'.store) := by
      rw [← bytes]
      exact fresh.frame.mono (new.trans Set.subset_union_right)
    exact first.trans (mapping.frame.mono (tables ▸ tablesNew))

variable (e : k.Extended init k' n a base r)

include e

theorem Kernel.Extended.region : VmRegion.range ⟨base, v2p a, r⟩ = Set.Ico base (base + r) ∧
    VmRegion.place ⟨base, v2p a, r⟩ = Set.Ico a (a + r) ∧
    VmRegion.block ⟨base, v2p a, r⟩ = ⟨a, r⟩ := by
  obtain ⟨high, top⟩ := e.high
  have pos := e.pos
  have kernel : p2v (v2p a) = a := p2v_v2p (by omega) (by omega)
  simp only [VmRegion.range, VmRegion.place, VmRegion.block, kernel, pgRounddown_of_aligned e.whole.1,
    and_self]

theorem Kernel.Extended.new_not_placed (h : k.Housed n) {m : VmRegion} (listed : m ∈ k.regions n) {x : Nat}
    (new : x ∈ k.store.newBytes k'.store) : x ∉ m.place := by
  intro within
  obtain ⟨b, memB, inside⟩ := (h.piece listed).2.2.2.2.2.2 within
  exact e.sound.newBytes_outside e.given new b memB inside

theorem Kernel.Extended.footprint (list : k'.regions n = ⟨base, v2p a, r⟩ :: k.regions n) :
    k'.footprint n ⊆ k.footprint n ∪ k.store.newBytes k'.store := by
  obtain ⟨_, place, _⟩ := e.region
  rintro x (inTables | ⟨m', listed, within⟩)
  · exact (e.tables inTables).imp_left Or.inl
  · rw [list] at listed
    rcases List.mem_cons.mp listed with rfl | old
    · rw [place] at within
      refine Or.inr ⟨_, e.own, fun known => ?_, within⟩
      have apart := e.apart _ known
      have pos := e.pos
      simp only [Block.Apart] at apart
      omega
    · exact Or.inl (Or.inr ⟨m', old, within⟩)

omit e in
theorem Kernel.Housed.nothing_apart (h : k.Housed n)
    (apart : ∀ m ∈ k.regions n, Disjoint m.range (Set.Ico base (base + r))) (x : Nat)
    (some : zeros base r x ≠ none) : k.space n x = none := by
  have inside : x ∈ Set.Ico base (base + r) := by
    by_contra out
    exact some (zeros_outside out)
  exact h.space_none fun m' listed within => Set.disjoint_left.mp (apart m' listed) within inside

variable (h : k.Housed n) (apart : ∀ m ∈ k.regions n, Disjoint m.range (Set.Ico base (base + r)))
  (list : k'.regions n = ⟨base, v2p a, r⟩ :: k.regions n) (next : (k'.procs n).mmapBase = base + r)

include h apart list next

theorem Kernel.Extended.housed : k'.Housed n := by
  have limit : mmapLimit = 0x7FFFF000 := rfl
  have below := e.below
  obtain ⟨aligned, whole⟩ := e.whole
  obtain ⟨range, place, block⟩ := e.region
  have physical := v2p_lt a
  have pos := e.pos
  obtain ⟨high, top⟩ := e.high
  have v2p := v2p_eq a
  refine ⟨e.dir, ⟨?_, ?_⟩, ?_, ?_, ?_, ?_, ?_, ?_, ?_⟩
  · rw [list, List.map_cons, List.pairwise_cons]
    refine ⟨fun other mem => ?_, h.list.apart⟩
    obtain ⟨m', listed, same⟩ := List.mem_map.mp mem
    rw [← same, range]
    exact (apart m' listed).symm
  · rw [list]
    refine List.forall_mem_cons.mpr ⟨?_, h.list.below⟩
    simp only [pgRounddown_of_aligned aligned]
    have offset : kernelOffset = 0x80000000 := rfl
    omega
  · rw [list]
    exact List.cons_ne_nil _ _
  · rw [list]
    refine (h.supplied.mono e.given).cons ?_ e.own (block ▸ ⟨Nat.le_refl _, Nat.le_refl _⟩) ?_
    · rw [block]
      exact e.sound.tidy.grained _ (List.mem_append_right _ e.own)
    · rw [block]
      exact h.supplied.apart_of_blocks e.apart
  · rw [list]
    exact List.forall_mem_cons.mpr ⟨by simp only; omega, h.physical⟩
  · rw [list]
    refine List.forall_mem_cons.mpr ⟨place ▸ e.clear, fun m' listed x inTables within => ?_⟩
    rcases e.tables inTables with old | new
    · exact h.clear m' listed x old within
    · exact e.new_not_placed h listed new within
  · rw [list]
    refine List.forall_mem_cons.mpr ⟨fun x inside => ?_, fun m' listed x inside => ?_⟩
    · rw [e.maps x (range ▸ inside), pgRounddown_of_aligned aligned]
    · rw [e.others x (h.behind listed inside).2.2.2 (Set.disjoint_left.mp (apart m' listed) inside)]
      exact h.maps m' listed x inside
  · intro x low out
    rw [list, List.forall_mem_cons] at out
    rw [e.others x low (range ▸ out.1)]
    exact h.nothing x low out.2
  · rw [next]
    omega

theorem Kernel.Extended.space :
    k'.space n = fun x => (k.space n x).or (zeros base r x) := by
  have housed := e.housed h apart list next
  obtain ⟨range, _, _⟩ := e.region
  obtain ⟨high, top⟩ := e.high
  have pos := e.pos
  have kernel : p2v (v2p a) = a := p2v_v2p (by omega) (by omega)
  funext x
  by_cases inside : x ∈ Set.Ico base (base + r)
  · have found := housed.space_region (list ▸ List.mem_cons_self) (range ▸ inside)
    have inBlock : a + (x - base) ∈ Set.Ico a (a + r) := by
      simp only [Set.mem_Ico] at inside ⊢
      omega
    simp only [kernel, pgRounddown_of_aligned e.whole.1, e.zero _ inBlock] at found
    rw [found, h.nothing_apart apart x (by rw [zeros_inside inside]; exact Option.some_ne_none _),
      zeros_inside inside]
    rfl
  · rw [zeros_outside inside, Option.or_none]
    by_cases found : ∃ m' ∈ k.regions n, x ∈ m'.range
    · obtain ⟨m', listed, within⟩ := found
      rw [h.space_region listed within, housed.space_region (list ▸ List.mem_cons_of_mem _ listed) within]
      congr 1
      refine e.frame _ fun written => ?_
      have inPlace := (h.behind listed within).2.2.1
      rcases written with inTables | new
      · exact h.clear m' listed _ inTables inPlace
      · exact e.new_not_placed h listed new inPlace
    · rw [h.space_none fun m' listed within => found ⟨m', listed, within⟩, housed.space_none]
      rw [list, List.forall_mem_cons]
      exact ⟨range ▸ inside, fun m' listed within => found ⟨m', listed, within⟩⟩

end Extended

end Trunix
