import Trunix.Boot.Memmap

/-!
# What `add_memmap` records of a region

`add_memmap` rounds the address of a region up and its length down, each on its own and
each with a helper for 32-bit words.  The entry therefore ends at a page boundary that
need not lie inside the region, and a region above 4 GiB is recorded at the low word of
its address.
-/

set_option autoImplicit false

namespace Trunix

open Trunix.Lib

/-- Every entry that a call for the region writes is made of whole pages that lie inside
the region. -/
def Kinfo.RecordsInside (k : Kinfo) (addr len : Nat) : Prop :=
  ∀ k', addMemmap k addr len = .ok k' → ∀ m, k'.memmap m ≠ k.memmap m →
    (k'.memmap m).addr % 0x1000 = 0 ∧ (k'.memmap m).len % 0x1000 = 0 ∧
      (k'.memmap m).bytes ⊆ Set.Ico addr (addr + len)

theorem roundedEntry_aligned (addr len : Nat) :
    (roundedEntry addr len).addr % 0x1000 = 0 ∧ (roundedEntry addr len).len % 0x1000 = 0 :=
  ⟨pgRoundup_mod _, pgRounddown_mod _⟩

theorem roundedEntry_len (addr len : Nat) :
    (roundedEntry addr len).len = len % 0x100000000 - len % 0x1000 := by
  simp only [roundedEntry, pgRounddown_eq, u32]
  omega

theorem roundedEntry_inside_iff (addr len : Nat) :
    (roundedEntry addr len).bytes ⊆ Set.Ico addr (addr + len) ↔
      u32 len < 0x1000 ∨
        addr ≤ 0xFFFFF000 ∧ (0x100000000 ≤ len ∨ pgRoundup addr - addr ≤ len % 0x1000) := by
  have size := roundedEntry_len addr len
  by_cases small : u32 len < 0x1000
  · rw [u32] at small
    have none : (roundedEntry addr len).len = 0 := by omega
    rw [MultibootMmapEntry.bytes_of_empty none]
    exact iff_of_true (Set.empty_subset _) (Or.inl small)
  · have pos : 0 < (roundedEntry addr len).len := by
      rw [size]
      rw [u32] at small
      omega
    rw [MultibootMmapEntry.bytes, Set.Ico_subset_Ico_iff (by omega)]
    by_cases low : addr ≤ 0xFFFFF000
    · -- the address is rounded without wrapping, so only the end can be outside
      have word : u32 addr = addr := u32_of_lt (by omega)
      have start : (roundedEntry addr len).addr = pgRoundup addr := by rw [roundedEntry, word]
      have up := le_pgRoundup low
      have near := pgRoundup_lt low
      rw [start, size]
      simp only [u32] at small ⊢
      omega
    · -- the recorded address is a page boundary below 4 GiB, so it is below the region
      have whole := (roundedEntry_aligned addr len).1
      have below : (roundedEntry addr len).addr < 0x100000000 := pgRoundup_lt_u32 (u32_lt addr)
      have before : ¬ addr ≤ (roundedEntry addr len).addr := by omega
      refine iff_of_false (fun inside => before inside.1) ?_
      rintro (tiny | ⟨within, _⟩)
      · exact small tiny
      · exact low within

/-- A region is recorded from the inside exactly when nothing of it is recorded, or it
starts in the first 4 GiB and what rounding its address up skips is no more than what
rounding its length down drops. -/
theorem addMemmap_inside_iff (k : Kinfo) (addr len : Nat) :
    k.RecordsInside addr len ↔ len = 0 ∨ k.emptySlot = none ∨ u32 len < 0x1000 ∨
      addr ≤ 0xFFFFF000 ∧ (0x100000000 ≤ len ∨ pgRoundup addr - addr ≤ len % 0x1000) := by
  rcases addMemmap_cases k addr len with
    ⟨empty, done⟩ | ⟨_, full, panic⟩ | ⟨m, k', nonempty, found, done, memmap, _⟩
  · refine iff_of_true (fun k' returned i changed => ?_) (Or.inl empty)
    rw [done] at returned
    cases returned
    exact absurd rfl changed
  · refine iff_of_true (fun k' returned => ?_) (Or.inr (Or.inl full))
    rw [panic] at returned
    cases returned
  · have slotEmpty := emptySlot_some found
    have written : k'.memmap m = roundedEntry addr len := by rw [memmap, Function.update_self]
    have rest : (len = 0 ∨ k.emptySlot = none ∨ u32 len < 0x1000 ∨
        addr ≤ 0xFFFFF000 ∧ (0x100000000 ≤ len ∨ pgRoundup addr - addr ≤ len % 0x1000)) ↔
          (roundedEntry addr len).bytes ⊆ Set.Ico addr (addr + len) := by
      rw [roundedEntry_inside_iff, found]
      simp only [nonempty, reduceCtorEq, false_or]
    rw [rest]
    constructor
    · intro inside
      by_cases same : k'.memmap m = k.memmap m
      · -- an entry that was there already has no bytes
        rw [written] at same
        rw [MultibootMmapEntry.bytes_of_empty (same ▸ slotEmpty)]
        exact Set.empty_subset _
      · rw [← written]
        exact (inside k' done m same).2.2
    · intro inside k'' returned i changed
      rw [done] at returned
      cases returned
      have here : i = m := by
        by_contra other
        exact changed (by rw [memmap, Function.update_of_ne other])
      obtain ⟨aligned, whole⟩ := roundedEntry_aligned addr len
      rw [here, written]
      exact ⟨aligned, whole, inside⟩

/-- Two regions a loader may report: one that does not start at a page boundary, and one
that starts at 4 GiB, which is recorded as the first GiB. -/
theorem region_recorded_outside :
    ¬ Kinfo.zero.RecordsInside 0x1800 0x2000 ∧
      ¬ Kinfo.zero.RecordsInside 0x100000000 0x40000000 ∧
      ∃ k', addMemmap Kinfo.zero 0x100000000 0x40000000 = .ok k' ∧
        k'.memmap ⟨0, by decide⟩ = ⟨0, 0x40000000, multibootMemoryAvailable⟩ := by
  have unaligned : ∃ k', addMemmap Kinfo.zero 0x1800 0x2000 = .ok k' ∧
      k'.memmap ⟨0, by decide⟩ = ⟨0x2000, 0x2000, multibootMemoryAvailable⟩ := ⟨_, rfl, rfl⟩
  have high : ∃ k', addMemmap Kinfo.zero 0x100000000 0x40000000 = .ok k' ∧
      k'.memmap ⟨0, by decide⟩ = ⟨0, 0x40000000, multibootMemoryAvailable⟩ := ⟨_, rfl, rfl⟩
  refine ⟨fun inside => ?_, fun inside => ?_, high⟩
  · obtain ⟨k', done, entry⟩ := unaligned
    have changed : k'.memmap ⟨0, by decide⟩ ≠ Kinfo.zero.memmap ⟨0, by decide⟩ := by
      rw [entry]
      decide
    have subset := (inside k' done _ changed).2.2
    rw [entry] at subset
    have last : (0x3FFF : Nat) ∈ Set.Ico 0x1800 (0x1800 + 0x2000) :=
      subset (MultibootMmapEntry.mem_bytes.mpr (by decide))
    simp at last
  · obtain ⟨k', done, entry⟩ := high
    have changed : k'.memmap ⟨0, by decide⟩ ≠ Kinfo.zero.memmap ⟨0, by decide⟩ := by
      rw [entry]
      decide
    have subset := (inside k' done _ changed).2.2
    rw [entry] at subset
    have first : (0 : Nat) ∈ Set.Ico 0x100000000 (0x100000000 + 0x40000000) :=
      subset (MultibootMmapEntry.mem_bytes.mpr (by decide))
    simp at first

end Trunix
