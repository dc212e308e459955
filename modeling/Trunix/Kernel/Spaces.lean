import Trunix.Kernel.Clone
import Trunix.Kernel.FreeUvm
import Trunix.Lib.Memories

/-!
# Address spaces

What a process finds at its addresses, through its page directory and the memory behind it.
A process is at home in its address space when the directory leads from the regions of its
list, and from nothing else, to disjoint pieces of memory that were handed out; the bytes of
these and of the tables are its footprint.  Processes with disjoint footprints cannot change
what another one finds.
-/

set_option autoImplicit false

namespace Trunix

open Trunix.Lib

/-! ## What a process finds -/

def Kernel.space (k : Kernel) (p va : Nat) : Option UInt8 :=
  if va < 0x80000000 then (walk k.store.mem (k.dir p) va).map fun pa => k.store.mem (p2v pa) else none

/-- The memories of the processes; who was not created has none. -/
def Kernel.spaces (k : Kernel) (p va : Nat) : Option UInt8 := if p ∈ k.created then k.space p va else none

def VmRegion.place (m : VmRegion) : Set Nat := Set.Ico (p2v m.pa) (p2v m.pa + m.len)

def Kernel.footprint (k : Kernel) (p : Nat) : Set Nat :=
  k.tables p ∪ {x | ∃ m ∈ k.regions p, x ∈ m.place}

def Store.taken (s : Store) : Set Nat := {x | ∃ b ∈ s.given, b.addr ≤ x ∧ x < b.addr + b.sz}

structure Kernel.Housed (k : Kernel) (p : Nat) : Prop where
  dir : PageDir k.store (k.dir p)
  list : RegionsOk (k.regions p)
  some : k.regions p ≠ []
  supplied : Supplied k.store.given (k.regions p)
  physical : ∀ m ∈ k.regions p, m.pa < 0x80000000
  clear : ∀ m ∈ k.regions p, ∀ x ∈ k.tables p, x ∉ m.place
  maps : ∀ m ∈ k.regions p, ∀ x ∈ m.range,
    walk k.store.mem (k.dir p) x = Option.some (m.pa + (x - pgRounddown m.va))
  nothing : ∀ x < 0x80000000, (∀ m ∈ k.regions p, x ∉ m.range) → walk k.store.mem (k.dir p) x = none
  base : (k.procs p).mmapBase ≤ mmapLimit ∧ (k.procs p).mmapBase % 0x1000 = 0

theorem Store.taken_mono {s s' : Store} (given : ∀ b ∈ s.given, b ∈ s'.given) : s.taken ⊆ s'.taken := by
  rintro x ⟨b, mem, inside⟩
  exact ⟨b, given b mem, inside⟩

theorem Store.Sound.newBytes_not_taken {init : List Block} {s s' : Store} (sound : s'.Sound init)
    (given : ∀ b ∈ s.given, b ∈ s'.given) : ∀ x ∈ s.newBytes s', x ∈ s'.taken ∧ x ∉ s.taken := by
  intro x fresh
  have outside := sound.newBytes_outside given fresh
  obtain ⟨b, mem, _, inside⟩ := fresh
  refine ⟨⟨b, mem, inside⟩, ?_⟩
  rintro ⟨c, memC, insideC⟩
  exact outside c memC insideC

section Housed

variable {k : Kernel} {p : Nat} (h : k.Housed p)

include h

theorem Kernel.Housed.piece {m : VmRegion} (listed : m ∈ k.regions p) :
    0 < m.len ∧ m.len % 0x1000 = 0 ∧ m.pa % 0x1000 = 0 ∧ p2v m.pa = 0x80000000 + m.pa ∧
      m.pa + m.len ≤ 0x80000000 ∧ pgRounddown m.va + m.len ≤ 0x80000000 ∧ m.place ⊆ k.store.taken := by
  have grained : m.block.Paged := h.supplied.grained _ (List.mem_map_of_mem listed)
  obtain ⟨b, memB, inside⟩ := h.supplied.inside _ (List.mem_map_of_mem listed)
  have physical := h.physical m listed
  have kernel := p2v_of_lt physical
  have below := h.list.below m listed
  have offset : kernelOffset = 0x80000000 := rfl
  have nonempty : 0 < m.len := grained.nonempty
  have whole : m.len % 0x1000 = 0 := Nat.mod_eq_zero_of_dvd grained.whole
  have aligned : p2v m.pa % 0x1000 = 0 := Nat.mod_eq_zero_of_dvd grained.aligned
  have bound : p2v m.pa + m.len ≤ 0x100000000 := grained.bound
  refine ⟨nonempty, whole, by omega, kernel, by omega, by omega, fun x within => ⟨b, memB, ?_⟩⟩
  have addr : m.block.addr = p2v m.pa := rfl
  have size : m.block.sz = m.len := rfl
  simp only [Block.Inside, addr, size] at inside
  simp only [VmRegion.place, Set.mem_Ico] at within
  omega

theorem Kernel.Housed.behind {m : VmRegion} (listed : m ∈ k.regions p) {x : Nat} (within : x ∈ m.range) :
    walk k.store.mem (k.dir p) x = Option.some (m.pa + (x - pgRounddown m.va)) ∧
      p2v (m.pa + (x - pgRounddown m.va)) = p2v m.pa + (x - pgRounddown m.va) ∧
      p2v m.pa + (x - pgRounddown m.va) ∈ m.place ∧ x < 0x80000000 := by
  obtain ⟨_, _, _, kernel, physical, below, _⟩ := h.piece listed
  have leads := h.maps m listed x within
  simp only [VmRegion.range, Set.mem_Ico] at within
  refine ⟨leads, ?_, ?_, by omega⟩
  · rw [p2v_of_lt (show m.pa + (x - pgRounddown m.va) < 0x80000000 by omega)]
    omega
  · simp only [VmRegion.place, Set.mem_Ico]
    omega

theorem Kernel.Housed.walk_cases {x : Nat} (low : x < 0x80000000) :
    (∃ m ∈ k.regions p, x ∈ m.range) ∨ walk k.store.mem (k.dir p) x = none := by
  by_cases found : ∃ m ∈ k.regions p, x ∈ m.range
  · exact Or.inl found
  · exact Or.inr (h.nothing x low fun m listed within => found ⟨m, listed, within⟩)

theorem Kernel.Housed.space_region {m : VmRegion} (listed : m ∈ k.regions p) {x : Nat}
    (within : x ∈ m.range) :
    k.space p x = Option.some (k.store.mem (p2v m.pa + (x - pgRounddown m.va))) := by
  obtain ⟨leads, kernel, _, low⟩ := h.behind listed within
  rw [Kernel.space, if_pos low, leads, Option.map_some, kernel]

theorem Kernel.Housed.space_none {x : Nat} (out : ∀ m ∈ k.regions p, x ∉ m.range) : k.space p x = none := by
  rw [Kernel.space]
  split
  · rename_i low
    rw [h.nothing x low out]
    rfl
  · rfl

theorem Kernel.Housed.places_apart {m m' : VmRegion} (listed : m ∈ k.regions p)
    (listed' : m' ∈ k.regions p) {x : Nat} (within : x ∈ m.place) (within' : x ∈ m'.place) : m = m' := by
  have nonempty := (h.piece listed).1
  have apart : (k.regions p).Pairwise fun m m' => m.block.Apart m'.block :=
    List.pairwise_map.mp h.supplied.apart
  by_contra ne
  have symm : Std.Symm fun m m' : VmRegion => m.block.Apart m'.block := ⟨fun _ _ => Block.Apart.symm⟩
  have either : m.block.Apart m'.block := apart.forall listed listed' ne
  have addr : ∀ r : VmRegion, r.block.addr = p2v r.pa := fun _ => rfl
  have size : ∀ r : VmRegion, r.block.sz = r.len := fun _ => rfl
  simp only [Block.Apart, addr, size] at either
  simp only [VmRegion.place, Set.mem_Ico] at within within'
  omega

theorem Kernel.Housed.footprint_taken : k.footprint p ⊆ k.store.taken := by
  rintro x (inTables | ⟨m, listed, within⟩)
  · exact h.dir.mem_block inTables
  · exact (h.piece listed).2.2.2.2.2.2 within

end Housed

/-! ## What others do -/

/-- What a process has depends on four of its fields. -/
structure Kernel.SameOwner (k k' : Kernel) (p : Nat) : Prop where
  dir : k'.dir p = k.dir p
  regions : k'.regions p = k.regions p
  base : (k'.procs p).mmapBase = (k.procs p).mmapBase

theorem sameOwner_of_unqueued {k k' : Kernel} {p : Nat} (same : (k'.procs p).unqueued = (k.procs p).unqueued)
    (memtab : k'.memtab (k.procs p).pid = k.memtab (k.procs p).pid) : k.SameOwner k' p := by
  obtain ⟨dir, regions, _⟩ := owns_eq same memtab
  exact ⟨dir, regions, (fields_of_unqueued same).2⟩

section Frame

variable {k k' : Kernel} {p : Nat} {W : Set Nat}

theorem Kernel.Housed.kept (h : k.Housed p) (same : k.SameOwner k' p)
    (given : ∀ b ∈ k.store.given, b ∈ k'.store.given) (frame : Frame k.store.mem k'.store.mem W)
    (avoid : ∀ x ∈ k.tables p, x ∉ W) : k'.Housed p ∧ k'.footprint p = k.footprint p ∧
      ∀ x < 0x80000000, walk k'.store.mem (k'.dir p) x = walk k.store.mem (k.dir p) x := by
  obtain ⟨dir, entries⟩ := h.dir.of_frame given frame fun x inPage => avoid x (Or.inl inPage)
  have tables : k'.tables p = k.tables p := by
    rw [Kernel.tables, same.dir]
    exact tableBytes_congr entries
  have walks : ∀ x < 0x80000000, walk k'.store.mem (k'.dir p) x = walk k.store.mem (k.dir p) x := by
    intro x low
    rw [same.dir]
    exact walk_of_frame frame low avoid
  refine ⟨⟨same.dir ▸ dir, ?_, ?_, ?_, ?_, ?_, fun m listed x within => ?_, fun x low out => ?_, ?_⟩, ?_,
    walks⟩
  · rw [same.regions]
    exact h.list
  · rw [same.regions]
    exact h.some
  · rw [same.regions]
    exact h.supplied.mono given
  · rw [same.regions]
    exact h.physical
  · rw [same.regions, tables]
    exact h.clear
  · rw [same.regions] at listed
    rw [walks x (h.behind listed within).2.2.2]
    exact h.maps m listed x within
  · rw [same.regions] at out
    rw [walks x low]
    exact h.nothing x low out
  · rw [same.base]
    exact h.base
  · rw [Kernel.footprint, Kernel.footprint, tables, same.regions]

/-- Writes that avoid the footprint of a process. -/
theorem Kernel.Housed.spared (h : k.Housed p) (same : k.SameOwner k' p)
    (given : ∀ b ∈ k.store.given, b ∈ k'.store.given) (frame : Frame k.store.mem k'.store.mem W)
    (avoid : ∀ x ∈ k.footprint p, x ∉ W) :
    k'.Housed p ∧ k'.footprint p = k.footprint p ∧ k'.space p = k.space p := by
  obtain ⟨housed, footprint, _⟩ := h.kept same given frame fun x inTables => avoid x (Or.inl inTables)
  refine ⟨housed, footprint, funext fun x => ?_⟩
  by_cases found : ∃ m ∈ k.regions p, x ∈ m.range
  · obtain ⟨m, listed, within⟩ := found
    have listed' : m ∈ k'.regions p := same.regions ▸ listed
    rw [h.space_region listed within, housed.space_region listed' within]
    congr 1
    exact frame _ (avoid _ (Or.inr ⟨m, listed, (h.behind listed within).2.2.1⟩))
  · rw [h.space_none fun m listed within => found ⟨m, listed, within⟩, housed.space_none]
    intro m listed within
    exact found ⟨m, same.regions ▸ listed, within⟩

end Frame

/-! ## All processes -/

structure Kernel.Settled (k : Kernel) : Prop where
  housed : ∀ p ∈ k.created, k.Housed p
  apart : Footprints {p | p ∈ k.created} k.footprint k.store.taken

theorem Kernel.spaces_created {k : Kernel} {p : Nat} (mem : p ∈ k.created) : k.spaces p = k.space p := by
  funext va
  rw [Kernel.spaces, if_pos mem]

theorem Kernel.spaces_stranger {k : Kernel} {p : Nat} (mem : p ∉ k.created) (va : Nat) :
    k.spaces p va = none := by
  rw [Kernel.spaces, if_neg mem]

section Step

variable {k k' : Kernel} {n : Nat} {W : Set Nat}

theorem Kernel.spaces_step (created : ∀ p, p ∈ k'.created ↔ p ∈ k.created ∨ p = n)
    (others : ∀ p ∈ k.created, p ≠ n → k'.space p = k.space p) :
    k'.spaces = Function.update k.spaces n (k'.space n) := by
  funext p
  by_cases here : p = n
  · subst here
    rw [Function.update_self, Kernel.spaces_created ((created p).mpr (Or.inr rfl))]
  · rw [Function.update_of_ne here]
    by_cases mem : p ∈ k.created
    · rw [Kernel.spaces_created mem, Kernel.spaces_created ((created p).mpr (Or.inl mem)), others p mem here]
    · have stranger : p ∉ k'.created := fun now => ((created p).mp now).elim mem here
      funext va
      rw [Kernel.spaces_stranger mem, Kernel.spaces_stranger stranger]

theorem Kernel.spaces_quiet (created : k'.created = k.created)
    (same : ∀ p ∈ k.created, k'.space p = k.space p) : k'.spaces = k.spaces := by
  funext p
  by_cases mem : p ∈ k.created
  · rw [Kernel.spaces_created mem, Kernel.spaces_created (created ▸ mem), same p mem]
  · funext va
    rw [Kernel.spaces_stranger mem, Kernel.spaces_stranger (created ▸ mem)]

/-- A step of the process `n` that writes to its own footprint and to memory that was not
handed out. -/
theorem Kernel.Settled.step (h : k.Settled) (given : ∀ b ∈ k.store.given, b ∈ k'.store.given)
    (frame : Frame k.store.mem k'.store.mem W)
    (writes : ∀ x ∈ W, (n ∈ k.created ∧ x ∈ k.footprint n) ∨ x ∉ k.store.taken)
    (created : ∀ p, p ∈ k'.created ↔ p ∈ k.created ∨ p = n)
    (others : ∀ p ∈ k.created, p ≠ n → k.SameOwner k' p) (own : k'.Housed n)
    (place : ∀ x ∈ k'.footprint n,
      (n ∈ k.created ∧ x ∈ k.footprint n) ∨ (x ∈ k'.store.taken ∧ x ∉ k.store.taken)) :
    k'.Settled ∧ (∀ p ∈ k.created, p ≠ n → k'.footprint p = k.footprint p) ∧
      k'.spaces = Function.update k.spaces n (k'.space n) := by
  have spared : ∀ p ∈ k.created, p ≠ n →
      k'.Housed p ∧ k'.footprint p = k.footprint p ∧ k'.space p = k.space p := fun p mem ne =>
    (h.housed p mem).spared (others p mem ne) given frame (h.apart.spared writes mem ne)
  refine ⟨⟨fun p mem => ?_, ?_⟩, fun p mem ne => (spared p mem ne).2.1,
    Kernel.spaces_step created fun p mem ne => (spared p mem ne).2.2⟩
  · by_cases here : p = n
    · exact here ▸ own
    · exact (spared p (((created p).mp mem).resolve_right here) here).1
  · exact h.apart.step (Store.taken_mono given) (fun p mem => ((created p).mp mem).symm)
      (fun p mem ne => (spared p mem ne).2.1) place

theorem Kernel.Settled.quiet (h : k.Settled) (given : ∀ b ∈ k.store.given, b ∈ k'.store.given)
    (frame : Frame k.store.mem k'.store.mem W) (writes : ∀ x ∈ W, x ∉ k.store.taken)
    (created : k'.created = k.created) (same : ∀ p ∈ k.created, k.SameOwner k' p) :
    k'.Settled ∧ (∀ p ∈ k.created, k'.footprint p = k.footprint p) ∧ k'.spaces = k.spaces := by
  have spared : ∀ p ∈ k.created,
      k'.Housed p ∧ k'.footprint p = k.footprint p ∧ k'.space p = k.space p := fun p mem =>
    (h.housed p mem).spared (same p mem) given frame fun x inside written =>
      writes x written (h.apart.inside p mem inside)
  refine ⟨⟨fun p mem => (spared p (created ▸ mem)).1, ?_⟩, fun p mem => (spared p mem).2.1,
    Kernel.spaces_quiet created fun p mem => (spared p mem).2.2⟩
  rw [created]
  exact h.apart.keep (Store.taken_mono given) fun p mem => (spared p mem).2.1

/-! ## Stores -/

/-- Different addresses of a process lead to different bytes. -/
theorem Kernel.Housed.behind_inj {p x y : Nat} {m m' : VmRegion} (h : k.Housed p)
    (listed : m ∈ k.regions p) (listed' : m' ∈ k.regions p) (within : x ∈ m.range) (within' : y ∈ m'.range)
    (same : p2v m.pa + (x - pgRounddown m.va) = p2v m'.pa + (y - pgRounddown m'.va)) : x = y := by
  have inPlace := (h.behind listed within).2.2.1
  rw [same] at inPlace
  have one : m = m' := h.places_apart listed listed' inPlace (h.behind listed' within').2.2.1
  subst one
  simp only [VmRegion.range, Set.mem_Ico] at within within'
  omega

def Kernel.poke (k : Kernel) (pa : Nat) (byte : UInt8) : Kernel :=
  { k with store := { k.store with mem := Function.update k.store.mem (p2v pa) byte } }

section Poke

variable (h : k.Settled) (mem : n ∈ k.created) {va pa : Nat} (byte : UInt8) (low : va < 0x80000000)
  (leads : walk k.store.mem (k.dir n) va = some pa)

include h mem low leads

theorem Kernel.Settled.hit : ∃ m ∈ k.regions n, va ∈ m.range ∧ p2v pa = p2v m.pa + (va - pgRounddown m.va) ∧
    p2v pa ∈ m.place := by
  have housed := h.housed n mem
  obtain ⟨m, listed, within⟩ := (housed.walk_cases low).resolve_right
    (by rw [leads]; exact Option.some_ne_none pa)
  obtain ⟨leads', kernel, inPlace, _⟩ := housed.behind listed within
  cases leads.symm.trans leads'
  exact ⟨m, listed, within, kernel, kernel ▸ inPlace⟩

theorem Kernel.Settled.poke_housed : (k.poke pa byte).Housed n ∧
    (k.poke pa byte).footprint n = k.footprint n ∧
      Frame k.store.mem (k.poke pa byte).store.mem {p2v pa} := by
  have housed := h.housed n mem
  obtain ⟨m, listed, _, _, inPlace⟩ := h.hit mem low leads
  have frame : Frame k.store.mem (k.poke pa byte).store.mem {p2v pa} := fun x out =>
    Function.update_of_ne out _ _
  have same : k.SameOwner (k.poke pa byte) n := ⟨rfl, rfl, rfl⟩
  obtain ⟨housed', footprint, _⟩ := housed.kept same (fun _ old => old) frame
    fun x inTables same => housed.clear m listed x inTables (Set.mem_singleton_iff.mp same ▸ inPlace)
  exact ⟨housed', footprint, frame⟩

theorem Kernel.Settled.poke_space : k.space n va ≠ none ∧
    (k.poke pa byte).space n = Function.update (k.space n) va (some byte) := by
  have housed := h.housed n mem
  obtain ⟨m, listed, within, kernel, inPlace⟩ := h.hit mem low leads
  obtain ⟨housed', _, frame⟩ := h.poke_housed mem byte low leads
  refine ⟨?_, funext fun x => ?_⟩
  · rw [housed.space_region listed within]
    exact Option.some_ne_none _
  by_cases here : x = va
  · subst here
    rw [Function.update_self, housed'.space_region listed within, ← kernel]
    exact congrArg some (Function.update_self _ _ _)
  · rw [Function.update_of_ne here]
    by_cases region : ∃ m' ∈ k.regions n, x ∈ m'.range
    · obtain ⟨m', listed', within'⟩ := region
      rw [housed.space_region listed' within', housed'.space_region listed' within']
      congr 1
      refine frame _ fun same => here ?_
      exact housed.behind_inj listed' listed within' within ((Set.mem_singleton_iff.mp same).trans kernel)
    · rw [housed.space_none fun m' listed' within' => region ⟨m', listed', within'⟩,
        housed'.space_none fun m' listed' within' => region ⟨m', listed', within'⟩]

end Poke

end Step

end Trunix
