import Mathlib
import Trunix.Vm

/-!
# The boot memory map

`add_memmap` and `cut_memmap` of `kernel/paging.c`.  The map has 32 slots; a slot whose
length is zero is empty and `mmap_n` counts the slots up to the last one that was ever
filled.  `cut_memmap` empties every entry that meets the range and adds what is left of
it again, in whichever slot comes first, while it goes through the map.
-/

set_option autoImplicit false

namespace Trunix

open Trunix.Lib

def maxmemmap : Nat := 32

def multibootMemoryAvailable : Nat := 1

structure MultibootMmapEntry where
  addr : Nat
  len : Nat
  type : Nat
  deriving DecidableEq, Repr

structure Kinfo where
  memmap : Fin maxmemmap → MultibootMmapEntry
  mmapN : Nat
  memHighPhys : Nat

def Kinfo.setEntry (k : Kinfo) (m : Fin maxmemmap) (e : MultibootMmapEntry) : Kinfo :=
  { k with memmap := Function.update k.memmap m e }

def Kinfo.emptySlot (k : Kinfo) : Option (Fin maxmemmap) :=
  (List.finRange maxmemmap).find? fun m => (k.memmap m).len = 0

def addMemmap (k : Kinfo) (addr len : Nat) : Except Halt Kinfo :=
  if len = 0 then .ok k
  else
    let addr := pgRoundup (u32 addr)
    let len := pgRounddown (u32 len)
    match k.emptySlot with
    | none => .error .panic
    | some m =>
        let k := k.setEntry m ⟨addr, len, multibootMemoryAvailable⟩
        let k := if k.mmapN ≤ m then { k with mmapN := m + 1 } else k
        let highmark := u32 (addr + len)
        .ok (if k.memHighPhys < highmark then { k with memHighPhys := highmark } else k)

/-- How `cut_memmap` adds a piece of an entry again, if there is one. -/
def addBetween (k : Kinfo) (lo hi : Nat) : Except Halt Kinfo :=
  if lo < hi then addMemmap k lo (hi - lo) else .ok k

/-- The body of the loop of `cut_memmap`, for the rounded range. -/
def cutEntry (start stop : Nat) (k : Kinfo) (m : Fin maxmemmap) : Except Halt Kinfo := do
  let mmeStart := u32 (k.memmap m).addr
  let mmeEnd := u32 ((k.memmap m).addr + (k.memmap m).len)
  let cutStart := if start < mmeStart then mmeStart else start
  let cutEnd := if mmeEnd < stop then mmeEnd else stop
  if cutEnd ≤ cutStart then return k
  else
    let k := k.setEntry m { k.memmap m with addr := 0, len := 0 }
    let k ← addBetween k mmeStart cutStart
    addBetween k cutEnd mmeEnd

/-- The loop of `cut_memmap` over the slots that are still to come; `mmap_n` is read
again for every slot. -/
def cutLoop (start stop : Nat) (k : Kinfo) : List (Fin maxmemmap) → Except Halt Kinfo
  | [] => .ok k
  | m :: rest =>
      if m < k.mmapN then do
        let k ← cutEntry start stop k m
        cutLoop start stop k rest
      else .ok k

def cutMemmap (k : Kinfo) (start stop : Nat) : Except Halt Kinfo :=
  cutLoop (pgRounddown start) (pgRoundup stop) k (List.finRange maxmemmap)

/-! ## What a map stands for -/

def MultibootMmapEntry.bytes (e : MultibootMmapEntry) : Set Nat := Set.Ico e.addr (e.addr + e.len)

def Kinfo.bytes (k : Kinfo) : Set Nat := ⋃ m, (k.memmap m).bytes

structure MultibootMmapEntry.Paged (e : MultibootMmapEntry) : Prop where
  aligned : e.addr % 0x1000 = 0
  whole : e.len % 0x1000 = 0
  bound : e.addr + e.len ≤ 0xFFFFF000

/-- A map of page-aligned and pairwise disjoint entries in which no slot past `mmap_n`
was ever filled. -/
structure Kinfo.Mapped (k : Kinfo) : Prop where
  paged : ∀ m, (k.memmap m).Paged
  apart : ∀ i j, i ≠ j → Disjoint (k.memmap i).bytes (k.memmap j).bytes
  count : k.mmapN ≤ maxmemmap
  unused : ∀ m : Fin maxmemmap, k.mmapN ≤ m → (k.memmap m).len = 0

theorem MultibootMmapEntry.mem_bytes {e : MultibootMmapEntry} {x : Nat} :
    x ∈ e.bytes ↔ e.addr ≤ x ∧ x < e.addr + e.len := Iff.rfl

theorem MultibootMmapEntry.bytes_of_empty {e : MultibootMmapEntry} (empty : e.len = 0) :
    e.bytes = ∅ := by
  rw [bytes, empty, Nat.add_zero, Set.Ico_self]

theorem Kinfo.mem_bytes {k : Kinfo} {x : Nat} : x ∈ k.bytes ↔ ∃ m, x ∈ (k.memmap m).bytes :=
  Set.mem_iUnion

theorem Kinfo.bytes_subset (k : Kinfo) (m : Fin maxmemmap) : (k.memmap m).bytes ⊆ k.bytes :=
  Set.subset_iUnion (fun m => (k.memmap m).bytes) m

/-! ## Writing a slot -/

theorem update_cases (f : Fin maxmemmap → MultibootMmapEntry) (m : Fin maxmemmap)
    (e : MultibootMmapEntry) (i : Fin maxmemmap) :
    Function.update f m e i = e ∧ i = m ∨ Function.update f m e i = f i ∧ i ≠ m := by
  by_cases same : i = m
  · subst same
    exact Or.inl ⟨Function.update_self _ _ _, rfl⟩
  · exact Or.inr ⟨Function.update_of_ne same _ _, same⟩

/-- A slot is overwritten with an entry that meets no other one: the old bytes of the
slot leave the map and those of the entry come in. -/
theorem Kinfo.Mapped.update {k k' : Kinfo} (h : k.Mapped) {m : Fin maxmemmap}
    {e : MultibootMmapEntry} (memmap : k'.memmap = Function.update k.memmap m e) (paged : e.Paged)
    (apart : ∀ i ≠ m, Disjoint (k.memmap i).bytes e.bytes) (count : k'.mmapN ≤ maxmemmap)
    (grown : k.mmapN ≤ k'.mmapN) (counted : k'.mmapN ≤ m → e.len = 0) :
    k'.Mapped ∧ k'.bytes = k.bytes \ (k.memmap m).bytes ∪ e.bytes := by
  have written := update_cases k.memmap m e
  rw [← memmap] at written
  refine ⟨⟨fun i => ?_, fun i j ne => ?_, count, fun i beyond => ?_⟩, ?_⟩
  · rcases written i with ⟨here, _⟩ | ⟨other, _⟩
    · rw [here]
      exact paged
    · rw [other]
      exact h.paged i
  · rcases written i with ⟨here, same⟩ | ⟨other, ne'⟩
    · rcases written j with ⟨_, same'⟩ | ⟨other', ne'⟩
      · exact absurd (same.trans same'.symm) ne
      · rw [here, other']
        exact (apart j ne').symm
    · rcases written j with ⟨here', _⟩ | ⟨other', _⟩
      · rw [other, here']
        exact apart i ne'
      · rw [other, other']
        exact h.apart i j ne
  · rcases written i with ⟨here, same⟩ | ⟨other, _⟩
    · rw [here]
      exact counted (same ▸ beyond)
    · rw [other]
      exact h.unused i (Nat.le_trans grown beyond)
  · ext x
    rw [Set.mem_union, Set.mem_sdiff, mem_bytes, mem_bytes]
    constructor
    · intro inside
      obtain ⟨i, mem⟩ := inside
      rcases written i with ⟨here, _⟩ | ⟨other, ne⟩
      · rw [here] at mem
        exact Or.inr mem
      · rw [other] at mem
        exact Or.inl ⟨⟨i, mem⟩, Set.disjoint_left.mp (h.apart i m ne) mem⟩
    · intro inside
      rcases inside with ⟨⟨i, mem⟩, out⟩ | mem
      · rcases written i with ⟨_, same⟩ | ⟨other, _⟩
        · subst same
          exact absurd mem out
        · exact ⟨i, by rw [other]; exact mem⟩
      · rcases written m with ⟨here, _⟩ | ⟨_, ne⟩
        · exact ⟨m, by rw [here]; exact mem⟩
        · exact absurd rfl ne

theorem Kinfo.Mapped.clear {k : Kinfo} (h : k.Mapped) (m : Fin maxmemmap) (type : Nat) :
    (k.setEntry m ⟨0, 0, type⟩).Mapped ∧
      (k.setEntry m ⟨0, 0, type⟩).bytes = k.bytes \ (k.memmap m).bytes := by
  have empty : (⟨0, 0, type⟩ : MultibootMmapEntry).bytes = ∅ :=
    MultibootMmapEntry.bytes_of_empty rfl
  have memmap : (k.setEntry m ⟨0, 0, type⟩).memmap = Function.update k.memmap m ⟨0, 0, type⟩ := rfl
  obtain ⟨mapped, bytes⟩ := h.update memmap
    ⟨rfl, rfl, Nat.zero_le _⟩ (fun i _ => by rw [empty]; exact Set.disjoint_empty _) h.count
    (Nat.le_refl _) (fun _ => rfl)
  rw [empty, Set.union_empty] at bytes
  exact ⟨mapped, bytes⟩

theorem emptySlot_some {k : Kinfo} {m : Fin maxmemmap} (found : k.emptySlot = some m) :
    (k.memmap m).len = 0 := by
  simpa using List.find?_some found

theorem emptySlot_none {k : Kinfo} : k.emptySlot = none ↔ ∀ m, (k.memmap m).len ≠ 0 := by
  simp [Kinfo.emptySlot, List.find?_eq_none, List.mem_finRange]

def roundedEntry (addr len : Nat) : MultibootMmapEntry :=
  ⟨pgRoundup (u32 addr), pgRounddown (u32 len), multibootMemoryAvailable⟩

theorem addMemmap_cases (k : Kinfo) (addr len : Nat) :
    (len = 0 ∧ addMemmap k addr len = .ok k) ∨
      (len ≠ 0 ∧ k.emptySlot = none ∧ addMemmap k addr len = .error .panic) ∨
      ∃ m k', len ≠ 0 ∧ k.emptySlot = some m ∧ addMemmap k addr len = .ok k' ∧
        k'.memmap = Function.update k.memmap m (roundedEntry addr len) ∧
        k'.mmapN = max k.mmapN (m + 1) := by
  by_cases empty : len = 0
  · exact Or.inl ⟨empty, by simp only [addMemmap, if_pos empty]⟩
  · right
    cases found : k.emptySlot with
    | none =>
        left
        exact ⟨empty, rfl, by simp only [addMemmap, if_neg empty, found]⟩
    | some m =>
        right
        have done : ∃ k', addMemmap k addr len = .ok k' ∧
            k'.memmap = Function.update k.memmap m (roundedEntry addr len) ∧
            k'.mmapN = max k.mmapN (m + 1) := by
          simp only [addMemmap, if_neg empty, found]
          refine ⟨_, rfl, ?_, ?_⟩
          · split <;> split <;> rfl
          · split <;> split <;> simp only [Kinfo.setEntry] at * <;> omega
        obtain ⟨k', done, memmap, count⟩ := done
        exact ⟨m, k', empty, rfl, done, memmap, count⟩

/-- Adding an aligned range that meets no entry: it goes into an empty slot, and the
call panics exactly when there is none. -/
theorem addMemmap_mapped {k : Kinfo} (h : k.Mapped) (addr len : Nat) (aligned : addr % 0x1000 = 0)
    (whole : len % 0x1000 = 0) (pos : 0 < len) (bound : addr + len ≤ 0xFFFFF000)
    (apart : Disjoint k.bytes (Set.Ico addr (addr + len))) :
    (addMemmap k addr len = .error .panic ∧ ∀ m, (k.memmap m).len ≠ 0) ∨
      ∃ k' m, addMemmap k addr len = .ok k' ∧ k'.Mapped ∧
        k'.bytes = k.bytes ∪ Set.Ico addr (addr + len) ∧ (k.memmap m).len = 0 ∧
        k'.memmap = Function.update k.memmap m ⟨addr, len, multibootMemoryAvailable⟩ := by
  have sameAddr : pgRoundup (u32 addr) = addr := by
    rw [u32_of_lt (by omega), pgRoundup_of_aligned aligned]
  have sameLen : pgRounddown (u32 len) = len := by
    rw [u32_of_lt (by omega), pgRounddown_of_aligned whole]
  have entry : roundedEntry addr len = ⟨addr, len, multibootMemoryAvailable⟩ := by
    rw [roundedEntry, sameAddr, sameLen]
  rcases addMemmap_cases k addr len with
    ⟨none, _⟩ | ⟨_, full, panic⟩ | ⟨m, k', _, found, done, memmap, count⟩
  · omega
  · exact Or.inl ⟨panic, emptySlot_none.mp full⟩
  · right
    have empty := emptySlot_some found
    rw [entry] at memmap
    have inRange := m.isLt
    have before := h.count
    obtain ⟨mapped, bytes⟩ := h.update memmap ⟨aligned, whole, bound⟩
      (fun i _ => apart.mono_left (k.bytes_subset i)) (by omega) (by omega)
      (fun beyond => by omega)
    rw [MultibootMmapEntry.bytes_of_empty empty, Set.sdiff_empty] at bytes
    exact ⟨k', m, done, mapped, bytes, empty, memmap⟩

theorem addBetween_mapped {k : Kinfo} (h : k.Mapped) {lo hi : Nat} (aligned : lo % 0x1000 = 0)
    (alignedHi : hi % 0x1000 = 0) (bound : hi ≤ 0xFFFFF000)
    (apart : Disjoint k.bytes (Set.Ico lo hi)) :
    (addBetween k lo hi = .error .panic ∧ lo < hi ∧ ∀ m, (k.memmap m).len ≠ 0) ∨
      ∃ k', addBetween k lo hi = .ok k' ∧ k'.Mapped ∧
        k'.bytes = k.bytes ∪ Set.Ico lo hi ∧
        ∀ i, k'.memmap i = k.memmap i ∨ (k'.memmap i).bytes = Set.Ico lo hi := by
  by_cases pos : lo < hi
  · have reach : lo + (hi - lo) = hi := by omega
    rw [← reach] at apart
    simp only [addBetween, if_pos pos]
    rcases addMemmap_mapped h lo (hi - lo) aligned (by omega) (by omega) (by omega) apart with
      ⟨panic, full⟩ | ⟨k', m, done, mapped, bytes, _, memmap⟩
    · exact Or.inl ⟨panic, pos, full⟩
    · rw [reach] at bytes
      refine Or.inr ⟨k', done, mapped, bytes, fun i => ?_⟩
      rw [memmap]
      rcases update_cases k.memmap m ⟨lo, hi - lo, multibootMemoryAvailable⟩ i with
        ⟨here, _⟩ | ⟨other, _⟩
      · right
        rw [here, MultibootMmapEntry.bytes, reach]
      · exact Or.inl other
  · simp only [addBetween, if_neg pos]
    have empty : Set.Ico lo hi = ∅ := Set.Ico_eq_empty pos
    refine Or.inr ⟨k, rfl, h, ?_, fun i => Or.inl rfl⟩
    rw [empty, Set.union_empty]

/-! ## Cutting -/

theorem cutEntry_eq {start stop : Nat} {k : Kinfo} {m : Fin maxmemmap} {a b : Nat}
    (addr : (k.memmap m).addr = a) (top : a + (k.memmap m).len = b) (below : b < 0x100000000) :
    cutEntry start stop k m =
      if min stop b ≤ max start a then pure k
      else
        addBetween (k.setEntry m ⟨0, 0, (k.memmap m).type⟩) a (max start a) >>= fun k =>
          addBetween k (min stop b) b := by
  have sameStart : u32 a = a := u32_of_lt (by omega)
  have sameEnd : u32 b = b := u32_of_lt below
  have loEq : (if start < a then a else start) = max start a := by
    split <;> omega
  have hiEq : (if b < stop then b else stop) = min stop b := by
    split <;> omega
  simp only [cutEntry, addr, top, sameStart, sameEnd, loEq, hiEq]

theorem cut_misses {start stop a b : Nat} (miss : min stop b ≤ max start a) :
    Disjoint (Set.Ico a b) (Set.Ico start stop) := by
  rw [Set.disjoint_left]
  intro x
  simp only [Set.mem_Ico]
  omega

theorem front_disjoint (start stop a : Nat) :
    Disjoint (Set.Ico a (max start a)) (Set.Ico start stop) := by
  rw [Set.disjoint_left]
  intro x
  simp only [Set.mem_Ico]
  omega

theorem behind_disjoint (start stop b : Nat) :
    Disjoint (Set.Ico (min stop b) b) (Set.Ico start stop) := by
  rw [Set.disjoint_left]
  intro x
  simp only [Set.mem_Ico]
  omega

section Cut

variable {start stop : Nat}
variable (alignedStart : start % 0x1000 = 0) (alignedStop : stop % 0x1000 = 0)
variable (bound : stop ≤ 0xFFFFF000)

include alignedStart alignedStop bound

/-- One round of the loop.  It takes the part of the entry that lies in the range out of
the map, and every slot it fills is outside the range, wherever that slot is.  It can
panic only when all slots are in use and the range lies inside the entry. -/
theorem cutEntry_mapped {k : Kinfo} (h : k.Mapped) (m : Fin maxmemmap) :
    (cutEntry start stop k m = .error .panic ∧ (∀ i, (k.memmap i).len ≠ 0) ∧
        Set.Ico start stop ⊆ (k.memmap m).bytes) ∨
      ∃ k', cutEntry start stop k m = .ok k' ∧ k'.Mapped ∧
        k'.bytes = k.bytes \ ((k.memmap m).bytes ∩ Set.Ico start stop) ∧
        (∀ i, Disjoint (k'.memmap i).bytes (Set.Ico start stop) ∨
          i ≠ m ∧ k'.memmap i = k.memmap i) ∧
        (k' = k ∨ ¬ Disjoint (k.memmap m).bytes (Set.Ico start stop)) := by
  have paged := h.paged m
  have aligned := paged.aligned
  have whole := paged.whole
  have below := paged.bound
  have sub := k.bytes_subset m
  have entryBytes : (k.memmap m).bytes =
      Set.Ico (k.memmap m).addr ((k.memmap m).addr + (k.memmap m).len) := rfl
  -- `a`, `b` are the ends of the entry, `lo`, `hi` those of the part to cut
  generalize aEq : (k.memmap m).addr = a at *
  generalize bEq : a + (k.memmap m).len = b at *
  have unfolded := @cutEntry_eq start stop k m a b aEq bEq (by omega)
  by_cases miss : min stop b ≤ max start a
  · have apart := cut_misses miss
    rw [if_pos miss] at unfolded
    refine Or.inr ⟨k, unfolded, h, ?_, fun i => ?_, Or.inl rfl⟩
    · rw [entryBytes, apart.inter_eq, Set.sdiff_empty]
    · by_cases same : i = m
      · rw [same, entryBytes]
        exact Or.inl apart
      · exact Or.inr ⟨same, rfl⟩
  · rw [if_neg miss] at unfolded
    have meets : ¬ Disjoint (k.memmap m).bytes (Set.Ico start stop) := by
      rw [Set.not_disjoint_iff, entryBytes]
      exact ⟨max start a, by simp only [Set.mem_Ico]; omega, by simp only [Set.mem_Ico]; omega⟩
    -- the entry is emptied
    obtain ⟨mapped₁, bytes₁⟩ := h.clear m (k.memmap m).type
    have here₁ : ((k.setEntry m ⟨0, 0, (k.memmap m).type⟩).memmap m).len = 0 := by
      simp [Kinfo.setEntry]
    have other₁ : ∀ i ≠ m, (k.setEntry m ⟨0, 0, (k.memmap m).type⟩).memmap i = k.memmap i := by
      intro i ne
      simp [Kinfo.setEntry, ne]
    generalize k.setEntry m ⟨0, 0, (k.memmap m).type⟩ = k₁ at *
    rw [entryBytes] at bytes₁ sub
    have apart₁ : Disjoint k₁.bytes (Set.Ico a (max start a)) := by
      rw [bytes₁, Set.disjoint_left]
      intro x mem
      have out := mem.2
      simp only [Set.mem_Ico] at out ⊢
      omega
    -- the part in front of the range
    rcases addBetween_mapped mapped₁ aligned (by omega) (by omega) apart₁ with
      ⟨_, _, full⟩ | ⟨k₂, done₂, mapped₂, bytes₂, entries₂⟩
    · exact absurd here₁ (full m)
    rw [done₂, ok_bind] at unfolded
    have apart₂ : Disjoint k₂.bytes (Set.Ico (min stop b) b) := by
      rw [bytes₂, bytes₁, Set.disjoint_left]
      intro x mem
      rcases mem with ⟨_, out⟩ | inside
      · simp only [Set.mem_Ico] at out ⊢
        omega
      · simp only [Set.mem_Ico] at inside ⊢
        omega
    -- the part behind it
    rcases addBetween_mapped mapped₂ (by omega) (by omega) (by omega) apart₂ with
      ⟨panic, behind, full⟩ | ⟨k₃, done₃, mapped₃, bytes₃, entries₃⟩
    · left
      have pieceM : (k₂.memmap m).bytes = Set.Ico a (max start a) := by
        rcases entries₂ m with same | piece
        · exact absurd here₁ (same ▸ full m)
        · exact piece
      have front : a < start := by
        have inside : (k₂.memmap m).addr ∈ (k₂.memmap m).bytes := by
          have := full m
          simp only [MultibootMmapEntry.mem_bytes]
          omega
        rw [pieceM] at inside
        simp only [Set.mem_Ico] at inside
        omega
      refine ⟨unfolded.trans panic, fun i => ?_, ?_⟩
      · by_cases same : i = m
        · rw [same]
          omega
        · rcases entries₂ i with unchanged | piece
          · rw [← other₁ i same, ← unchanged]
            exact full i
          · -- two slots cannot both hold the front part
            have twice := mapped₂.apart i m same
            rw [piece, pieceM, disjoint_self, Set.bot_eq_empty, Set.Ico_eq_empty_iff] at twice
            omega
      · rw [entryBytes]
        intro x mem
        simp only [Set.mem_Ico] at mem ⊢
        omega
    · refine Or.inr ⟨k₃, unfolded.trans done₃, mapped₃, ?_, fun i => ?_, Or.inr meets⟩
      · rw [bytes₃, bytes₂, bytes₁, entryBytes]
        ext x
        have inMap := @sub x
        simp only [Set.mem_union, Set.mem_sdiff, Set.mem_inter_iff, Set.mem_Ico] at inMap ⊢
        by_cases inside : x ∈ k.bytes
        · simp only [inside, true_and]
          omega
        · have out : ¬ (a ≤ x ∧ x < b) := fun within => inside (inMap within)
          simp only [inside, false_and, false_or, iff_false]
          omega
      · rcases entries₃ i with same₃ | piece
        · rcases entries₂ i with same₂ | piece
          · by_cases same : i = m
            · left
              rw [same₃, same₂, same, MultibootMmapEntry.bytes_of_empty here₁]
              exact Set.empty_disjoint _
            · exact Or.inr ⟨same, by rw [same₃, same₂, other₁ i same]⟩
          · left
            rw [same₃, piece]
            exact front_disjoint start stop a
        · left
          rw [piece]
          exact behind_disjoint start stop b

theorem cutLoop_mapped (nonempty : start < stop) : ∀ (ms : List (Fin maxmemmap)) (k : Kinfo),
    k.Mapped → ms.Pairwise (· < ·) →
    (∀ i, i ∉ ms → Disjoint (k.memmap i).bytes (Set.Ico start stop)) →
    (cutLoop start stop k ms = .error .panic ∧ (∀ i, (k.memmap i).len ≠ 0) ∧
        ∃ i, Set.Ico start stop ⊆ (k.memmap i).bytes) ∨
      ∃ k', cutLoop start stop k ms = .ok k' ∧ k'.Mapped ∧
        k'.bytes = k.bytes \ Set.Ico start stop := by
  intro ms
  induction ms with
  | nil =>
      intro k h _ outside
      refine Or.inr ⟨k, rfl, h, ?_⟩
      have apart : Disjoint k.bytes (Set.Ico start stop) := by
        rw [Kinfo.bytes, Set.disjoint_iUnion_left]
        exact fun i => outside i List.not_mem_nil
      exact apart.sdiff_eq_left.symm
  | cons m rest ih =>
      intro k h sorted outside
      have above := (List.pairwise_cons.mp sorted).1
      by_cases more : m < k.mmapN
      · simp only [cutLoop, if_pos more]
        rcases cutEntry_mapped alignedStart alignedStop bound h m with
          ⟨panic, full, inside⟩ | ⟨k₁, done₁, mapped₁, bytes₁, entries₁, changed₁⟩
        · left
          rw [panic, error_bind]
          exact ⟨rfl, full, m, inside⟩
        rw [done₁, ok_bind]
        have outside₁ : ∀ i, i ∉ rest → Disjoint (k₁.memmap i).bytes (Set.Ico start stop) := by
          intro i out
          rcases entries₁ i with apart | ⟨ne, same⟩
          · exact apart
          · rw [same]
            refine outside i fun mem => ?_
            rcases List.mem_cons.mp mem with rfl | inRest
            · exact ne rfl
            · exact out inRest
        rcases ih k₁ mapped₁ (List.pairwise_cons.mp sorted).2 outside₁ with
          ⟨panic, full, i, inside⟩ | ⟨k', done, mapped, bytes⟩
        · left
          rcases changed₁ with same | meets
          · rw [← same]
            exact ⟨panic, full, i, inside⟩
          · -- an entry around the range is still there, so no other one meets the range
            exfalso
            have startIn : start ∈ Set.Ico start stop := ⟨Nat.le_refl _, nonempty⟩
            rcases entries₁ i with apart | ⟨ne, same⟩
            · exact Set.disjoint_left.mp apart (inside startIn) startIn
            · rw [same] at inside
              exact meets ((h.apart i m ne).symm.mono_right inside)
        · refine Or.inr ⟨k', done, mapped, ?_⟩
          rw [bytes, bytes₁]
          ext x
          simp only [Set.mem_sdiff, Set.mem_inter_iff]
          tauto
      · simp only [cutLoop, if_neg more]
        refine Or.inr ⟨k, rfl, h, ?_⟩
        have apart : Disjoint k.bytes (Set.Ico start stop) := by
          rw [Kinfo.bytes, Set.disjoint_iUnion_left]
          intro i
          by_cases mem : i ∈ m :: rest
          · have beyond : k.mmapN ≤ i := by
              rcases List.mem_cons.mp mem with rfl | inRest
              · omega
              · have := above i inRest
                omega
            rw [MultibootMmapEntry.bytes_of_empty (h.unused i beyond)]
            exact Set.empty_disjoint _
          · exact outside i mem
        exact apart.sdiff_eq_left.symm

end Cut

theorem cutMemmap_mapped {k : Kinfo} (h : k.Mapped) {start stop : Nat} (lt : start < stop)
    (bound : stop ≤ 0xFFFFF000) :
    (cutMemmap k start stop = .error .panic ∧ ∀ i, (k.memmap i).len ≠ 0) ∨
      ∃ k', cutMemmap k start stop = .ok k' ∧ k'.Mapped ∧
        k'.bytes = k.bytes \ Set.Ico (pgRounddown start) (pgRoundup stop) := by
  have low : pgRounddown start ≤ start := by
    rw [pgRounddown_eq]
    omega
  have high := le_pgRoundup bound
  have top : pgRoundup stop ≤ 0xFFFFF000 := pgRoundup_le bound (by decide) (by decide)
  rcases cutLoop_mapped (pgRounddown_mod start) (pgRoundup_mod stop) top (by omega)
      (List.finRange maxmemmap) k h (List.pairwise_lt_finRange maxmemmap)
      (fun i out => absurd (List.mem_finRange i) out) with
    ⟨panic, full, _⟩ | ⟨k', done, mapped, bytes⟩
  · exact Or.inl ⟨panic, full⟩
  · exact Or.inr ⟨k', done, mapped, bytes⟩

def cutAll (k : Kinfo) : List (Nat × Nat) → Except Halt Kinfo
  | [] => .ok k
  | (start, stop) :: rest => do
      let k ← cutMemmap k start stop
      cutAll k rest

theorem cutAll_bytes : ∀ (cuts : List (Nat × Nat)) (k k' : Kinfo), k.Mapped →
    (∀ c ∈ cuts, c.1 < c.2 ∧ c.2 ≤ 0xFFFFF000) → cutAll k cuts = .ok k' →
    k'.bytes = k.bytes \ ⋃ c ∈ cuts, Set.Ico (pgRounddown c.1) (pgRoundup c.2) := by
  intro cuts
  induction cuts with
  | nil =>
      intro k k' _ _ done
      cases done
      simp
  | cons c rest ih =>
      intro k k' h valid done
      obtain ⟨lt, bound⟩ := valid c List.mem_cons_self
      rw [cutAll, bind_eq_ok] at done
      obtain ⟨k₁, first, later⟩ := done
      rcases cutMemmap_mapped h lt bound with ⟨panic, _⟩ | ⟨k₂, done₂, mapped₂, bytes₂⟩
      · rw [panic] at first
        cases first
      · rw [done₂] at first
        cases first
        have tail := ih k₁ k' mapped₂ (fun d mem => valid d (List.mem_cons_of_mem _ mem)) later
        rw [tail, bytes₂, Set.sdiff_sdiff]
        congr 1
        ext x
        simp

/-- A cut panics only when all slots are in use, and otherwise leaves a map of aligned
and disjoint entries with exactly the bytes outside the cut; so cuts that do not panic
can be made in any order. -/
theorem cut_memmap_exact {k : Kinfo} (h : k.Mapped) :
    (∀ start stop, start < stop → stop ≤ 0xFFFFF000 →
      (cutMemmap k start stop = .error .panic ∧ ∀ i, (k.memmap i).len ≠ 0) ∨
        ∃ k', cutMemmap k start stop = .ok k' ∧ k'.Mapped ∧
          k'.bytes = k.bytes \ Set.Ico (pgRounddown start) (pgRoundup stop)) ∧
      ∀ cuts cuts' : List (Nat × Nat), cuts.Perm cuts' →
        (∀ c ∈ cuts, c.1 < c.2 ∧ c.2 ≤ 0xFFFFF000) →
        ∀ k₁ k₂, cutAll k cuts = .ok k₁ → cutAll k cuts' = .ok k₂ → k₁.bytes = k₂.bytes := by
  refine ⟨fun start stop lt bound => cutMemmap_mapped h lt bound, ?_⟩
  intro cuts cuts' perm valid k₁ k₂ done₁ done₂
  rw [cutAll_bytes cuts k k₁ h valid done₁,
    cutAll_bytes cuts' k k₂ h (fun c mem => valid c (perm.mem_iff.mpr mem)) done₂]
  congr 1
  ext x
  simp only [Set.mem_iUnion, perm.mem_iff]

/-- The map before the first `add_memmap`: `k` is a static variable. -/
def Kinfo.zero : Kinfo := ⟨fun _ => ⟨0, 0, 0⟩, 0, 0⟩

theorem Kinfo.zero_mapped : Kinfo.zero.Mapped ∧ Kinfo.zero.bytes = ∅ := by
  have empty : ∀ m, (Kinfo.zero.memmap m).bytes = ∅ := fun m =>
    MultibootMmapEntry.bytes_of_empty rfl
  refine ⟨⟨fun m => ⟨rfl, rfl, Nat.zero_le _⟩, fun i j _ => ?_, Nat.zero_le _, fun m _ => rfl⟩, ?_⟩
  · rw [empty i]
    exact Set.empty_disjoint _
  · simp only [Kinfo.bytes, empty, Set.iUnion_empty]

/-- 16 MiB at 1 MiB, cut in the middle. -/
theorem cut_memmap_exact_one_region :
    ∃ k k', addMemmap Kinfo.zero 0x100000 0x1000000 = .ok k ∧ k.Mapped ∧
      cutMemmap k 0x200010 0x200020 = .ok k' ∧
      k'.bytes = Set.Ico 0x100000 0x1100000 \ Set.Ico 0x200000 0x201000 := by
  rcases addMemmap_mapped Kinfo.zero_mapped.1 0x100000 0x1000000 (by decide) (by decide) (by decide) (by decide)
      (by rw [Kinfo.zero_mapped.2]; exact Set.empty_disjoint _) with
    ⟨panic, _⟩ | ⟨k, m, done, mapped, bytes, _, memmap⟩
  · exact absurd panic (by rintro ⟨⟩)
  · rw [Kinfo.zero_mapped.2, Set.empty_union] at bytes
    rcases (cut_memmap_exact mapped).1 0x200010 0x200020 (by decide) (by decide) with
      ⟨_, full⟩ | ⟨k', done', _, bytes'⟩
    · -- the map has an empty slot, so the cut does not panic
      have other : ∃ i : Fin maxmemmap, i ≠ m := by
        by_cases first : m = ⟨0, by decide⟩
        · exact ⟨⟨1, by decide⟩, by rw [first]; decide⟩
        · exact ⟨⟨0, by decide⟩, fun same => first same.symm⟩
      obtain ⟨i, ne⟩ := other
      have := full i
      rw [memmap, Function.update_of_ne ne] at this
      exact absurd rfl this
    · rw [bytes] at bytes'
      exact ⟨k, k', done, mapped, done', bytes'⟩

end Trunix
