import Trunix.Boot.Memmap

/-!
# From the boot loader's memory map to the kernel's

`init_trunix` of `kernel/init.c` and the layout that `kernel/linker.ld` gives the kernel.
Some objects are linked twice: once as they are, once with `__k_unpaged_` in front of
every symbol, to run before paging is on.  The linker script defines its symbols for both,
and `init_trunix` runs in the second copy.
-/

set_option autoImplicit false

namespace Trunix

open Trunix.Lib

/-! ## The linker script -/

def kernelPhysicalBase : Nat := 0x00400000

def kernelVirtBase : Nat := 0x80400000

def align4K (x : Nat) : Nat := (x + 0xFFF) / 0x1000 * 0x1000

structure Sections where
  unpagedText : Nat
  unpagedData : Nat
  unpagedBss : Nat
  text : Nat
  rodata : Nat
  data : Nat
  bss : Nat

def Sections.unpagedEnd (s : Sections) : Nat :=
  let dot := kernelPhysicalBase
  let dot := dot + s.unpagedText
  let dot := align4K dot + s.unpagedData
  align4K dot + s.unpagedBss

def Sections.dot (s : Sections) : Nat :=
  let dot := s.unpagedEnd + kernelOffset
  let dot := align4K dot + s.text
  let dot := align4K dot + s.rodata
  let dot := align4K dot + s.data
  align4K dot + s.bss

structure Layout extends Sections where
  fits : toSections.dot ≤ 0x100000000

/-- The symbols that the linker script defines in both spellings. -/
inductive LinkerSymbol where
  | kernelPhysicalBase
  | kernelVirtBase
  | kernelOffset
  | kernelUnpagedEnd
  | kernelSize

inductive Linkage where
  /-- linked with the prefix `__k_unpaged_` -/
  | unpaged
  | paged

def Layout.symbol (l : Layout) : Linkage → LinkerSymbol → Nat
  | _, .kernelPhysicalBase => Trunix.kernelPhysicalBase
  | _, .kernelVirtBase => Trunix.kernelVirtBase
  | _, .kernelOffset => Trunix.kernelVirtBase - Trunix.kernelPhysicalBase
  | .unpaged, .kernelUnpagedEnd => l.unpagedEnd
  | .paged, .kernelUnpagedEnd => u32 (l.unpagedEnd + 0x100000000 - Trunix.kernelOffset)
  | _, .kernelSize => l.dot - Trunix.kernelVirtBase

def Layout.image (l : Layout) : Set Nat :=
  let base := l.symbol .paged .kernelPhysicalBase
  Set.Ico base (base + l.symbol .paged .kernelSize)

theorem le_align4K (x : Nat) : x ≤ align4K x := by
  simp only [align4K]
  omega

theorem Sections.le_unpagedEnd (s : Sections) : kernelPhysicalBase ≤ s.unpagedEnd := by
  have first := le_align4K (kernelPhysicalBase + s.unpagedText)
  have second := le_align4K (align4K (kernelPhysicalBase + s.unpagedText) + s.unpagedData)
  simp only [Sections.unpagedEnd]
  omega

theorem Sections.le_dot (s : Sections) : align4K s.unpagedEnd + kernelOffset ≤ s.dot := by
  have shift : align4K (s.unpagedEnd + kernelOffset) = align4K s.unpagedEnd + kernelOffset := by
    simp only [align4K, kernelOffset]
    omega
  have rodata := le_align4K (align4K (s.unpagedEnd + kernelOffset) + s.text)
  have data := le_align4K (align4K (align4K (s.unpagedEnd + kernelOffset) + s.text) + s.rodata)
  have bss := le_align4K
    (align4K (align4K (align4K (s.unpagedEnd + kernelOffset) + s.text) + s.rodata) + s.data)
  simp only [Sections.dot]
  omega

theorem Layout.image_eq (l : Layout) :
    l.image = Set.Ico kernelPhysicalBase (l.dot - kernelOffset) := by
  have above := l.le_dot
  have base := Nat.le_trans l.le_unpagedEnd (le_align4K _)
  simp only [kernelPhysicalBase, kernelOffset] at above base
  have reach : kernelPhysicalBase + (l.dot - kernelVirtBase) = l.dot - kernelOffset := by
    simp only [kernelPhysicalBase, kernelVirtBase, kernelOffset]
    omega
  simp only [Layout.image, Layout.symbol, reach]

/-! ## `init_trunix` -/

def multibootBootloaderMagic : Nat := 0x2BADB002

def multibootInfoMemMap : Nat := 0x40

def multibootInfoFramebufferInfo : Nat := 0x1000

structure MultibootInfo where
  flags : Nat
  modsAddr : Nat
  mmapLength : Nat
  mmapAddr : Nat

structure BootInfo extends Kinfo where
  initrdStart : Nat
  initrdEnd : Nat

/-- The entry of the boot loader's map at an address; `size` stands in front of it. -/
def mmapEntry (mem : Mem) (mmap : Nat) : MultibootMmapEntry :=
  ⟨loadLE mem 8 (mmap + 4), loadLE mem 8 (mmap + 12), load32 mem (mmap + 20)⟩

/-- The loop of `init_trunix` from offset `m` on.  An offset that comes up again after
all others comes up for ever. -/
def mmapLoop (mem : Mem) (info : MultibootInfo) : Nat → Nat → Kinfo → Except Halt Kinfo
  | 0, _, _ => .error .loops
  | fuel + 1, m, k =>
      if m < info.mmapLength then do
        let mmap := u32 (info.mmapAddr + m)
        let e := mmapEntry mem mmap
        let k ← if e.type = multibootMemoryAvailable then addMemmap k e.addr e.len else .ok k
        mmapLoop mem info fuel (u32 (m + load32 mem mmap + 4)) k
      else .ok k

/-- `FLAGS` is not in parentheses, so that its second half is or-ed to the result of
`flags & MULTIBOOT_INFO_MEM_MAP`. -/
def initTrunix (l : Layout) (mem : Mem) (info : MultibootInfo) (magic : Nat) :
    Except Halt (Option BootInfo) :=
  if magic ≠ multibootBootloaderMagic then .ok none
  else if info.flags &&& multibootInfoMemMap ||| multibootInfoFramebufferInfo = 0 then .ok none
  else do
    let k ← mmapLoop mem info 0x100000000 0 Kinfo.zero
    let k ← cutMemmap k (l.symbol .unpaged .kernelPhysicalBase) (l.symbol .unpaged .kernelUnpagedEnd)
    let k ← cutMemmap k 0x0000 0x1000
    let start := load32 mem info.modsAddr
    let stop := load32 mem (info.modsAddr + 4)
    let k ← cutMemmap k start stop
    return some ⟨k, start, stop⟩

/-! ## Maps that reach up to 4 GiB -/

structure MultibootMmapEntry.Whole (e : MultibootMmapEntry) : Prop where
  aligned : e.addr % 0x1000 = 0
  whole : e.len % 0x1000 = 0
  bound : e.addr + e.len ≤ 0x100000000

/-- The end of such an entry is zero as a `u32`, and `cut_memmap` passes over it. -/
def MultibootMmapEntry.Ends (e : MultibootMmapEntry) : Prop := e.addr + e.len = 0x100000000

structure Kinfo.Listed (k : Kinfo) : Prop where
  whole : ∀ m, (k.memmap m).Whole
  unused : ∀ m : Fin maxmemmap, k.mmapN ≤ m → (k.memmap m).len = 0

def Kinfo.part (k : Kinfo) (P : MultibootMmapEntry → Prop) : Set Nat :=
  {x | ∃ m, P (k.memmap m) ∧ x ∈ (k.memmap m).bytes}

def MultibootMmapEntry.part (e : MultibootMmapEntry) (P : MultibootMmapEntry → Prop) : Set Nat :=
  {x | P e ∧ x ∈ e.bytes}

theorem Kinfo.part_union (k : Kinfo) (P : MultibootMmapEntry → Prop) :
    k.bytes = k.part P ∪ k.part (fun e => ¬ P e) := by
  ext x
  rw [Kinfo.mem_bytes]
  constructor
  · rintro ⟨m, inside⟩
    by_cases holds : P (k.memmap m)
    · exact Or.inl ⟨m, holds, inside⟩
    · exact Or.inr ⟨m, holds, inside⟩
  · rintro (⟨m, _, inside⟩ | ⟨m, _, inside⟩)
    · exact ⟨m, inside⟩
    · exact ⟨m, inside⟩

theorem Kinfo.part_update {k k' : Kinfo} {m : Fin maxmemmap} {e : MultibootMmapEntry}
    (memmap : k'.memmap = Function.update k.memmap m e) (empty : (k.memmap m).len = 0)
    (P : MultibootMmapEntry → Prop) : k'.part P = k.part P ∪ e.part P := by
  have written := update_cases k.memmap m e
  rw [← memmap] at written
  ext x
  constructor
  · rintro ⟨i, holds, inside⟩
    rcases written i with ⟨here, _⟩ | ⟨other, _⟩
    · rw [here] at holds inside
      exact Or.inr ⟨holds, inside⟩
    · rw [other] at holds inside
      exact Or.inl ⟨i, holds, inside⟩
  · rintro (⟨i, holds, inside⟩ | ⟨holds, inside⟩)
    · rcases written i with ⟨_, same⟩ | ⟨other, _⟩
      · rw [same, MultibootMmapEntry.bytes_of_empty empty] at inside
        exact absurd inside (Set.notMem_empty x)
      · exact ⟨i, by rw [other]; exact holds, by rw [other]; exact inside⟩
    · rcases written m with ⟨here, _⟩ | ⟨_, ne⟩
      · exact ⟨m, by rw [here]; exact holds, by rw [here]; exact inside⟩
      · exact absurd rfl ne

theorem addMemmap_listed {k k' : Kinfo} (listed : k.Listed) {addr len : Nat}
    (aligned : addr % 0x1000 = 0) (whole : len % 0x1000 = 0) (bound : addr + len ≤ 0x100000000)
    (done : addMemmap k addr len = .ok k') :
    k'.Listed ∧
      (∀ P, k'.part P = k.part P ∪
        MultibootMmapEntry.part ⟨addr, u32 len, multibootMemoryAvailable⟩ P) ∧
      ∀ i, k'.memmap i = k.memmap i ∨ k'.memmap i = ⟨addr, u32 len, multibootMemoryAvailable⟩ := by
  rcases addMemmap_cases k addr len with
    ⟨none, same⟩ | ⟨_, _, panic⟩ | ⟨m, k'', _, found, added, memmap, count⟩
  · rw [same] at done
    cases done
    refine ⟨listed, fun P => ?_, fun i => Or.inl rfl⟩
    have empty : MultibootMmapEntry.bytes ⟨addr, u32 len, multibootMemoryAvailable⟩ = ∅ :=
      MultibootMmapEntry.bytes_of_empty (by rw [none]; rfl)
    simp only [MultibootMmapEntry.part, empty, Set.mem_empty_iff_false, and_false,
      Set.ofPred_false, Set.union_empty]
  · rw [panic] at done
    cases done
  · rw [added] at done
    cases done
    have empty := emptySlot_some found
    have sameAddr : pgRoundup (u32 addr) = addr := by
      rw [u32_of_lt (by omega), pgRoundup_of_aligned aligned]
    have sameLen : pgRounddown (u32 len) = u32 len := by
      apply pgRounddown_of_aligned
      simp only [u32]
      omega
    rw [roundedEntry, sameAddr, sameLen] at memmap
    have written := update_cases k.memmap m ⟨addr, u32 len, multibootMemoryAvailable⟩
    rw [← memmap] at written
    refine ⟨⟨fun i => ?_, fun i beyond => ?_⟩, Kinfo.part_update memmap empty, fun i => ?_⟩
    · rcases written i with ⟨here, _⟩ | ⟨other, _⟩
      · rw [here]
        refine ⟨aligned, ?_, ?_⟩ <;> simp only [u32] <;> omega
      · rw [other]
        exact listed.whole i
    · rcases written i with ⟨_, same⟩ | ⟨other, _⟩
      · subst same
        omega
      · rw [other]
        exact listed.unused i (by omega)
    · rcases written i with ⟨here, _⟩ | ⟨other, _⟩
      · exact Or.inr here
      · exact Or.inl other

theorem addBetween_listed {k k' : Kinfo} (listed : k.Listed) {lo hi : Nat}
    (aligned : lo % 0x1000 = 0) (alignedHi : hi % 0x1000 = 0) (bound : hi < 0x100000000)
    (done : addBetween k lo hi = .ok k') :
    k'.Listed ∧ k'.part MultibootMmapEntry.Ends = k.part MultibootMmapEntry.Ends ∧
      k'.part (fun e => ¬ e.Ends) = k.part (fun e => ¬ e.Ends) ∪ Set.Ico lo hi ∧
      ∀ i, k'.memmap i = k.memmap i ∨ (k'.memmap i).bytes = Set.Ico lo hi := by
  by_cases pos : lo < hi
  · rw [addBetween, if_pos pos] at done
    have reach : lo + (hi - lo) = hi := by omega
    have fits : u32 (hi - lo) = hi - lo := u32_of_lt (by omega)
    obtain ⟨listed', part, entries⟩ := addMemmap_listed listed aligned (by omega) (by omega) done
    rw [fits] at part entries
    have notEnds : ¬ MultibootMmapEntry.Ends ⟨lo, hi - lo, multibootMemoryAvailable⟩ := by
      simp only [MultibootMmapEntry.Ends]
      omega
    have bytes : MultibootMmapEntry.bytes ⟨lo, hi - lo, multibootMemoryAvailable⟩ =
        Set.Ico lo hi := by
      rw [MultibootMmapEntry.bytes, reach]
    refine ⟨listed', ?_, ?_, fun i => ?_⟩
    · rw [part]
      simp only [MultibootMmapEntry.part, notEnds, false_and, Set.ofPred_false, Set.union_empty]
    · rw [part]
      simp only [MultibootMmapEntry.part, notEnds, not_false_eq_true, true_and, bytes,
        Set.ofPred_mem_eq]
    · rcases entries i with same | new
      · exact Or.inl same
      · exact Or.inr (by rw [new, bytes])
  · rw [addBetween, if_neg pos] at done
    cases done
    exact ⟨listed, rfl, by rw [Set.Ico_eq_empty pos, Set.union_empty], fun i => Or.inl rfl⟩

theorem Kinfo.setEntry_cases (k : Kinfo) (m : Fin maxmemmap) (e : MultibootMmapEntry)
    (i : Fin maxmemmap) :
    (k.setEntry m e).memmap i = e ∧ i = m ∨ (k.setEntry m e).memmap i = k.memmap i ∧ i ≠ m :=
  update_cases k.memmap m e i

theorem Kinfo.Listed.clear {k : Kinfo} (listed : k.Listed) (m : Fin maxmemmap) (type : Nat) :
    (k.setEntry m ⟨0, 0, type⟩).Listed := by
  refine ⟨fun i => ?_, fun i beyond => ?_⟩
  · rcases k.setEntry_cases m ⟨0, 0, type⟩ i with ⟨here, _⟩ | ⟨other, _⟩
    · rw [here]
      exact ⟨rfl, rfl, Nat.zero_le _⟩
    · rw [other]
      exact listed.whole i
  · rcases k.setEntry_cases m ⟨0, 0, type⟩ i with ⟨here, _⟩ | ⟨other, _⟩
    · rw [here]
    · rw [other]
      exact listed.unused i beyond

theorem Kinfo.part_clear (k : Kinfo) (m : Fin maxmemmap) (type : Nat)
    (P : MultibootMmapEntry → Prop) :
    k.part P = (k.setEntry m ⟨0, 0, type⟩).part P ∪ (k.memmap m).part P := by
  have empty : MultibootMmapEntry.bytes ⟨0, 0, type⟩ = ∅ := MultibootMmapEntry.bytes_of_empty rfl
  have written := k.setEntry_cases m ⟨0, 0, type⟩
  ext x
  constructor
  · rintro ⟨i, holds, inside⟩
    rcases written i with ⟨_, same⟩ | ⟨other, _⟩
    · subst same
      exact Or.inr ⟨holds, inside⟩
    · rw [← other] at holds inside
      exact Or.inl ⟨i, holds, inside⟩
  · rintro (⟨i, holds, inside⟩ | ⟨holds, inside⟩)
    · rcases written i with ⟨here, _⟩ | ⟨other, _⟩
      · rw [here, empty] at inside
        exact absurd inside (Set.notMem_empty x)
      · rw [other] at holds inside
        exact ⟨i, holds, inside⟩
    · exact ⟨m, holds, inside⟩

section CutListed

variable {start stop : Nat}
variable (alignedStart : start % 0x1000 = 0) (alignedStop : stop % 0x1000 = 0)
variable (bound : stop < 0x100000000)

include alignedStart alignedStop bound

/-- One round of the loop: outside the range nothing changes, and the slot and those it
fills are outside the range unless the entry ends at 4 GiB. -/
theorem cutEntry_listed {k k' : Kinfo} (listed : k.Listed) {m : Fin maxmemmap}
    (done : cutEntry start stop k m = .ok k') :
    k'.Listed ∧ k'.part MultibootMmapEntry.Ends = k.part MultibootMmapEntry.Ends ∧
      k'.part (fun e => ¬ e.Ends) \ Set.Ico start stop =
        k.part (fun e => ¬ e.Ends) \ Set.Ico start stop ∧
      ∀ i, (¬ (k'.memmap i).Ends → Disjoint (k'.memmap i).bytes (Set.Ico start stop)) ∨
        i ≠ m ∧ k'.memmap i = k.memmap i := by
  have whole := listed.whole m
  have aligned := whole.aligned
  have pages := whole.whole
  have below := whole.bound
  by_cases ends : (k.memmap m).Ends
  · -- its end is zero, so the part to cut is empty
    have zero : u32 ((k.memmap m).addr + (k.memmap m).len) = 0 := by
      rw [show (k.memmap m).addr + (k.memmap m).len = 0x100000000 from ends]
      rfl
    have nothing : (if 0 < stop then 0 else stop) = 0 := by
      split <;> omega
    simp only [cutEntry, zero, nothing, Nat.zero_le, if_true] at done
    cases done
    refine ⟨listed, rfl, rfl, fun i => ?_⟩
    by_cases same : i = m
    · rw [same]
      exact Or.inl fun notEnds => absurd ends notEnds
    · exact Or.inr ⟨same, rfl⟩
  · have lt : (k.memmap m).addr + (k.memmap m).len < 0x100000000 :=
      Nat.lt_of_le_of_ne below ends
    have entryBytes : (k.memmap m).bytes =
        Set.Ico (k.memmap m).addr ((k.memmap m).addr + (k.memmap m).len) := rfl
    have entryEnds : (k.memmap m).part MultibootMmapEntry.Ends = ∅ := by
      simp only [MultibootMmapEntry.part, ends, false_and, Set.ofPred_false]
    have entryPart : (k.memmap m).part (fun e => ¬ e.Ends) = (k.memmap m).bytes := by
      simp only [MultibootMmapEntry.part, ends, not_false_eq_true, true_and, Set.ofPred_mem_eq]
    generalize aEq : (k.memmap m).addr = a at *
    generalize bEq : a + (k.memmap m).len = b at *
    rw [cutEntry_eq aEq bEq lt] at done
    by_cases miss : min stop b ≤ max start a
    · rw [if_pos miss] at done
      cases done
      refine ⟨listed, rfl, rfl, fun i => ?_⟩
      by_cases same : i = m
      · refine Or.inl fun _ => ?_
        rw [same, entryBytes]
        exact cut_misses miss
      · exact Or.inr ⟨same, rfl⟩
    · rw [if_neg miss] at done
      obtain ⟨k₂, first, second⟩ := bind_eq_ok.mp done
      have clearEnds := k.part_clear m (k.memmap m).type MultibootMmapEntry.Ends
      have clearPart := k.part_clear m (k.memmap m).type (fun e => ¬ e.Ends)
      rw [entryEnds, Set.union_empty] at clearEnds
      rw [entryPart, entryBytes] at clearPart
      obtain ⟨listed₂, ends₂, part₂, entries₂⟩ := addBetween_listed (listed.clear m _) aligned
        (by omega) (by omega) first
      obtain ⟨listed', ends', part', entries'⟩ := addBetween_listed listed₂ (by omega) (by omega)
        (by omega) second
      refine ⟨listed', by rw [ends', ends₂, clearEnds], ?_, fun i => ?_⟩
      · rw [part', part₂, clearPart]
        ext x
        simp only [Set.mem_sdiff, Set.mem_union, Set.mem_Ico]
        constructor
        · rintro ⟨(inside | inside) | inside, out⟩
          · exact ⟨Or.inl inside, out⟩
          · exact ⟨Or.inr (by omega), out⟩
          · exact ⟨Or.inr (by omega), out⟩
        · rintro ⟨inside | inside, out⟩
          · exact ⟨Or.inl (Or.inl inside), out⟩
          · by_cases before : x < max start a
            · exact ⟨Or.inl (Or.inr (by omega)), out⟩
            · exact ⟨Or.inr (by omega), out⟩
      · rcases entries' i with same' | piece
        · rcases entries₂ i with same₂ | piece
          · rcases k.setEntry_cases m ⟨0, 0, (k.memmap m).type⟩ i with
              ⟨here, _⟩ | ⟨other, ne⟩
            · left
              intro _
              rw [same', same₂, here, MultibootMmapEntry.bytes_of_empty rfl]
              exact Set.empty_disjoint _
            · exact Or.inr ⟨ne, by rw [same', same₂, other]⟩
          · left
            rw [same', piece]
            exact fun _ => front_disjoint start stop a
        · left
          rw [piece]
          exact fun _ => behind_disjoint start stop b

theorem cutLoop_listed : ∀ (ms : List (Fin maxmemmap)) (k k' : Kinfo), k.Listed →
    ms.Pairwise (· < ·) →
    (∀ i, i ∉ ms → ¬ (k.memmap i).Ends → Disjoint (k.memmap i).bytes (Set.Ico start stop)) →
    cutLoop start stop k ms = .ok k' →
    k'.Listed ∧ k'.part MultibootMmapEntry.Ends = k.part MultibootMmapEntry.Ends ∧
      k'.part (fun e => ¬ e.Ends) = k.part (fun e => ¬ e.Ends) \ Set.Ico start stop := by
  intro ms
  induction ms with
  | nil =>
      intro k k' listed _ outside done
      cases done
      refine ⟨listed, rfl, ?_⟩
      have apart : Disjoint (k.part fun e => ¬ e.Ends) (Set.Ico start stop) := by
        rw [Set.disjoint_left]
        rintro x ⟨i, notEnds, inside⟩
        exact Set.disjoint_left.mp (outside i List.not_mem_nil notEnds) inside
      exact apart.sdiff_eq_left.symm
  | cons m rest ih =>
      intro k k' listed sorted outside done
      obtain ⟨above, sortedRest⟩ := List.pairwise_cons.mp sorted
      by_cases more : m < k.mmapN
      · rw [cutLoop, if_pos more] at done
        obtain ⟨k₁, first, later⟩ := bind_eq_ok.mp done
        obtain ⟨listed₁, ends₁, part₁, entries₁⟩ :=
          cutEntry_listed alignedStart alignedStop bound listed first
        have outside₁ : ∀ i, i ∉ rest → ¬ (k₁.memmap i).Ends →
            Disjoint (k₁.memmap i).bytes (Set.Ico start stop) := by
          intro i out notEnds
          rcases entries₁ i with apart | ⟨ne, same⟩
          · exact apart notEnds
          · rw [same] at notEnds ⊢
            refine outside i (fun mem => ?_) notEnds
            rcases List.mem_cons.mp mem with rfl | inRest
            · exact ne rfl
            · exact out inRest
        obtain ⟨listed', ends', part'⟩ := ih k₁ k' listed₁ sortedRest outside₁ later
        exact ⟨listed', ends'.trans ends₁, part'.trans part₁⟩
      · rw [cutLoop, if_neg more] at done
        cases done
        refine ⟨listed, rfl, ?_⟩
        have apart : Disjoint (k.part fun e => ¬ e.Ends) (Set.Ico start stop) := by
          rw [Set.disjoint_left]
          rintro x ⟨i, notEnds, inside⟩
          by_cases mem : i ∈ m :: rest
          · have beyond : k.mmapN ≤ i := by
              rcases List.mem_cons.mp mem with rfl | inRest
              · omega
              · have := above i inRest
                omega
            rw [MultibootMmapEntry.bytes_of_empty (listed.unused i beyond)] at inside
            exact absurd inside (Set.notMem_empty x)
          · exact Set.disjoint_left.mp (outside i mem notEnds) inside
        exact apart.sdiff_eq_left.symm

end CutListed

theorem cutMemmap_listed {k k' : Kinfo} (listed : k.Listed) {start stop : Nat}
    (bound : stop < 0x100000000) (done : cutMemmap k start stop = .ok k') :
    k'.Listed ∧ k'.part MultibootMmapEntry.Ends = k.part MultibootMmapEntry.Ends ∧
      k'.part (fun e => ¬ e.Ends) =
        k.part (fun e => ¬ e.Ends) \ Set.Ico (pgRounddown start) (pgRoundup stop) :=
  cutLoop_listed (pgRounddown_mod start) (pgRoundup_mod stop) (pgRoundup_lt_u32 bound)
    (List.finRange maxmemmap) k k' listed (List.pairwise_lt_finRange maxmemmap)
    (fun i out => absurd (List.mem_finRange i) out) done

/-! ## What `init_trunix` leaves in the map -/

/-- The boot loader's map: `entries` are what the loop meets from offset `m` on. -/
def MmapAt (mem : Mem) (info : MultibootInfo) : Nat → List MultibootMmapEntry → Prop
  | m, [] => info.mmapLength ≤ m
  | m, e :: rest =>
      let mmap := info.mmapAddr + m
      m < info.mmapLength ∧ mmap < 0x100000000 ∧ mmapEntry mem mmap = e ∧
        m + load32 mem mmap + 4 < 0x100000000 ∧ MmapAt mem info (m + load32 mem mmap + 4) rest

/-- The bytes of the available regions that satisfy `P`.  The length of a region is cut
to a `u32`, so that one of all 4 GiB is empty. -/
def availablePart (entries : List MultibootMmapEntry) (P : MultibootMmapEntry → Prop) : Set Nat :=
  {x | ∃ e ∈ entries, e.type = multibootMemoryAvailable ∧ e.len < 0x100000000 ∧ P e ∧ x ∈ e.bytes}

theorem MultibootMmapEntry.Whole.part_eq {e : MultibootMmapEntry} (whole : e.Whole)
    (available : e.type = multibootMemoryAvailable) (P : MultibootMmapEntry → Prop) :
    MultibootMmapEntry.part ⟨e.addr, u32 e.len, multibootMemoryAvailable⟩ P =
      {x | e.len < 0x100000000 ∧ P e ∧ x ∈ e.bytes} := by
  have bound := whole.bound
  by_cases all : e.len < 0x100000000
  · have same : (⟨e.addr, u32 e.len, multibootMemoryAvailable⟩ : MultibootMmapEntry) = e := by
      rw [u32_of_lt all, ← available]
    simp only [same, MultibootMmapEntry.part, all, true_and]
  · have zero : u32 e.len = 0 := by
      rw [show e.len = 0x100000000 by omega]
      rfl
    have empty : MultibootMmapEntry.bytes ⟨e.addr, u32 e.len, multibootMemoryAvailable⟩ = ∅ :=
      MultibootMmapEntry.bytes_of_empty zero
    simp only [MultibootMmapEntry.part, empty, Set.mem_empty_iff_false, and_false, all, false_and]

theorem mmapLoop_listed {mem : Mem} {info : MultibootInfo} :
    ∀ (entries : List MultibootMmapEntry) (fuel m : Nat) (k k' : Kinfo),
      MmapAt mem info m entries →
      (∀ e ∈ entries, e.type = multibootMemoryAvailable → e.Whole) →
      0x100000000 ≤ fuel + m → m < 0x100000000 → k.Listed → mmapLoop mem info fuel m k = .ok k' →
      k'.Listed ∧ ∀ P, k'.part P = k.part P ∪ availablePart entries P := by
  intro entries
  induction entries with
  | nil =>
      intro fuel m k k' ends _ enough bound listed done
      cases fuel with
      | zero => omega
      | succ fuel =>
          rw [mmapLoop, if_neg (Nat.not_lt.mpr ends)] at done
          cases done
          refine ⟨listed, fun P => ?_⟩
          simp [availablePart]
  | cons e rest ih =>
      intro fuel m k k' map regions enough bound listed done
      obtain ⟨more, inside, here, room, later⟩ := map
      cases fuel with
      | zero => omega
      | succ fuel =>
          rw [mmapLoop, if_pos more] at done
          simp only [u32_of_lt inside, here, u32_of_lt room] at done
          have regionsRest : ∀ d ∈ rest, d.type = multibootMemoryAvailable → d.Whole :=
            fun d mem => regions d (List.mem_cons_of_mem _ mem)
          by_cases available : e.type = multibootMemoryAvailable
          · rw [if_pos available] at done
            obtain ⟨k₁, first, next⟩ := bind_eq_ok.mp done
            have whole := regions e List.mem_cons_self available
            obtain ⟨listed₁, part₁, _⟩ :=
              addMemmap_listed listed whole.aligned whole.whole whole.bound first
            obtain ⟨listed', part'⟩ := ih fuel _ k₁ k' later regionsRest (by omega) room listed₁ next
            refine ⟨listed', fun P => ?_⟩
            rw [part', part₁, whole.part_eq available, Set.union_assoc]
            congr 1
            ext x
            simp only [availablePart, Set.mem_union, Set.mem_ofPred_eq, List.mem_cons, exists_eq_or_imp,
              available, true_and]
          · rw [if_neg available] at done
            obtain ⟨listed', part'⟩ := ih fuel _ k k' later regionsRest (by omega) room listed done
            refine ⟨listed', fun P => ?_⟩
            rw [part']
            congr 1
            ext x
            simp only [availablePart, Set.mem_ofPred_eq, List.mem_cons, exists_eq_or_imp, available,
              false_and, false_or]

theorem Kinfo.zero_listed : Kinfo.zero.Listed ∧ ∀ P, Kinfo.zero.part P = ∅ := by
  refine ⟨⟨fun m => ⟨rfl, rfl, Nat.zero_le _⟩, fun m _ => rfl⟩, fun P => ?_⟩
  rw [Set.eq_empty_iff_forall_notMem]
  rintro x ⟨m, _, inside⟩
  rw [MultibootMmapEntry.bytes_of_empty rfl] at inside
  exact Set.notMem_empty x inside

def cutPages (l : Layout) (modStart modEnd : Nat) : Set Nat :=
  Set.Ico kernelPhysicalBase (pgRoundup l.unpagedEnd) ∪
    (Set.Ico 0 0x1000 ∪ Set.Ico (pgRounddown modStart) (pgRoundup modEnd))

/-- The free bytes are those of the available regions, less the pages that were cut where
the region does not end at 4 GiB. -/
theorem initTrunix_bytes {l : Layout} {mem : Mem} {info : MultibootInfo} {magic : Nat}
    {k : BootInfo} {entries : List MultibootMmapEntry} (map : MmapAt mem info 0 entries)
    (regions : ∀ e ∈ entries, e.type = multibootMemoryAvailable → e.Whole)
    (done : initTrunix l mem info magic = .ok (some k)) :
    k.initrdStart = load32 mem info.modsAddr ∧ k.initrdEnd = load32 mem (info.modsAddr + 4) ∧
      k.bytes = availablePart entries MultibootMmapEntry.Ends ∪
        (availablePart entries (fun e => ¬ e.Ends) \ cutPages l k.initrdStart k.initrdEnd) := by
  rw [initTrunix] at done
  split at done
  · cases done
  · split at done
    · cases done
    · obtain ⟨k₀, read, done⟩ := bind_eq_ok.mp done
      obtain ⟨k₁, cut₁, done⟩ := bind_eq_ok.mp done
      obtain ⟨k₂, cut₂, done⟩ := bind_eq_ok.mp done
      obtain ⟨k₃, cut₃, done⟩ := bind_eq_ok.mp done
      cases done
      obtain ⟨listed₀, part₀⟩ := mmapLoop_listed entries _ 0 Kinfo.zero k₀ map regions
        (Nat.le_refl _) (by decide) Kinfo.zero_listed.1 read
      have unpagedBound : l.unpagedEnd < 0x100000000 := by
        have above := l.le_dot
        have aligned := le_align4K l.unpagedEnd
        have fits := l.fits
        simp only [kernelOffset] at above
        omega
      obtain ⟨listed₁, ends₁, part₁⟩ := cutMemmap_listed listed₀ unpagedBound cut₁
      obtain ⟨listed₂, ends₂, part₂⟩ := cutMemmap_listed listed₁ (by decide) cut₂
      obtain ⟨_, ends₃, part₃⟩ := cutMemmap_listed listed₂ (load32_lt _ _) cut₃
      have base : pgRounddown (l.symbol .unpaged .kernelPhysicalBase) = kernelPhysicalBase :=
        pgRounddown_of_aligned (show kernelPhysicalBase % 0x1000 = 0 by decide)
      rw [base] at part₁
      rw [show pgRounddown 0 = 0 by decide, show pgRoundup 0x1000 = 0x1000 by decide] at part₂
      refine ⟨rfl, rfl, ?_⟩
      rw [k₃.part_union MultibootMmapEntry.Ends, ends₃, ends₂, ends₁, part₃, part₂, part₁, part₀,
        part₀, Kinfo.zero_listed.2, Kinfo.zero_listed.2, Set.empty_union, Set.empty_union,
        Set.sdiff_sdiff, Set.sdiff_sdiff]
      rfl

/-- When the cuts are enough.  They end with the unpaged sections, so no region may hold a
byte of the image behind these, unless in a page of the initrd; a module that reaches
into the last page below 4 GiB is not cut at all; nor is a region that ends at 4 GiB. -/
structure Spared (l : Layout) (entries : List MultibootMmapEntry) (modStart modEnd : Nat) :
    Prop where
  behind : ∀ e ∈ entries, e.type = multibootMemoryAvailable → e.len < 0x100000000 →
    ∀ x ∈ e.bytes, pgRoundup l.unpagedEnd ≤ x → x ∈ l.image →
      pgRounddown modStart ≤ x ∧ x < pgRoundup modEnd
  wraps : 0xFFFFF000 < modEnd → ∀ e ∈ entries, e.type = multibootMemoryAvailable →
    e.len < 0x100000000 → ∀ x ∈ e.bytes, modStart ≤ x → x < modEnd →
      x < 0x1000 ∨ kernelPhysicalBase ≤ x ∧ x < pgRoundup l.unpagedEnd
  ends : ∀ e ∈ entries, e.type = multibootMemoryAvailable → e.len < 0x100000000 → e.Ends →
    ∀ x ∈ e.bytes, x ∉ l.image ∧ ¬ (modStart ≤ x ∧ x < modEnd)

/-- The map holds no byte of page 0, of the initrd or of the kernel image exactly when
`Spared` holds of what the boot loader passes. -/
theorem init_trunix_reserves_iff {l : Layout} {mem : Mem} {info : MultibootInfo} {magic : Nat}
    {k : BootInfo} {entries : List MultibootMmapEntry} (map : MmapAt mem info 0 entries)
    (regions : ∀ e ∈ entries, e.type = multibootMemoryAvailable → e.Whole)
    (done : initTrunix l mem info magic = .ok (some k)) :
    (∀ x ∈ k.bytes, 0x1000 ≤ x ∧ ¬ (k.initrdStart ≤ x ∧ x < k.initrdEnd) ∧ x ∉ l.image) ↔
      Spared l entries (load32 mem info.modsAddr) (load32 mem (info.modsAddr + 4)) := by
  obtain ⟨start, stop, bytes⟩ := initTrunix_bytes map regions done
  have stopBound : k.initrdEnd < 0x100000000 := by
    rw [stop]
    exact load32_lt _ _
  rw [← start, ← stop]
  have mem_cut : ∀ x, x ∈ cutPages l k.initrdStart k.initrdEnd ↔
      (kernelPhysicalBase ≤ x ∧ x < pgRoundup l.unpagedEnd) ∨ x < 0x1000 ∨
        (pgRounddown k.initrdStart ≤ x ∧ x < pgRoundup k.initrdEnd) := by
    intro x
    simp only [cutPages, Set.mem_union, Set.mem_Ico, Nat.zero_le, true_and]
  have mem_bytes : ∀ x, x ∈ k.bytes ↔ ∃ e ∈ entries, e.type = multibootMemoryAvailable ∧
      e.len < 0x100000000 ∧ x ∈ e.bytes ∧
        (e.Ends ∨ x ∉ cutPages l k.initrdStart k.initrdEnd) := by
    intro x
    rw [bytes]
    constructor
    · rintro (⟨e, mem, avail, all, ends, inside⟩ | ⟨⟨e, mem, avail, all, _, inside⟩, out⟩)
      · exact ⟨e, mem, avail, all, inside, Or.inl ends⟩
      · exact ⟨e, mem, avail, all, inside, Or.inr out⟩
    · rintro ⟨e, mem, avail, all, inside, free⟩
      by_cases ends : e.Ends
      · exact Or.inl ⟨e, mem, avail, all, ends, inside⟩
      · exact Or.inr ⟨⟨e, mem, avail, all, ends, inside⟩, free.resolve_left ends⟩
  have image : ∀ x, x ∈ l.image ↔ kernelPhysicalBase ≤ x ∧ x < l.dot - kernelOffset := by
    intro x
    rw [l.image_eq, Set.mem_Ico]
  have base : 0x1000 ≤ kernelPhysicalBase := by decide
  constructor
  · intro reserved
    refine ⟨fun e mem avail all x inside past inImage => ?_,
      fun wraps e mem avail all x inside lo hi => ?_, fun e mem avail all ends x inside => ?_⟩
    · by_contra notCut
      have free : x ∉ cutPages l k.initrdStart k.initrdEnd := by
        rw [mem_cut]
        have := (image x).mp inImage
        omega
      exact (reserved x ((mem_bytes x).mpr ⟨e, mem, avail, all, inside, Or.inr free⟩)).2.2 inImage
    · by_contra notCut
      have zero : pgRoundup k.initrdEnd = 0 := by
        have aligned := pgRoundup_mod k.initrdEnd
        simp only [pgRoundup, roundup, u32] at aligned ⊢
        split <;> omega
      have free : x ∉ cutPages l k.initrdStart k.initrdEnd := by
        rw [mem_cut]
        omega
      exact (reserved x ((mem_bytes x).mpr ⟨e, mem, avail, all, inside, Or.inr free⟩)).2.1 ⟨lo, hi⟩
    · have kept := reserved x ((mem_bytes x).mpr ⟨e, mem, avail, all, inside, Or.inl ends⟩)
      exact ⟨kept.2.2, kept.2.1⟩
  · intro spared x free
    obtain ⟨e, mem, avail, all, inside, how⟩ := (mem_bytes x).mp free
    rcases how with ends | notCut
    · have kept := spared.ends e mem avail all ends x inside
      have whole := regions e mem avail
      have aligned := whole.aligned
      have reach : e.addr + e.len = 0x100000000 := ends
      have low := (MultibootMmapEntry.mem_bytes.mp inside).1
      exact ⟨by omega, kept.2, kept.1⟩
    · rw [mem_cut] at notCut
      refine ⟨by omega, fun inInitrd => ?_, fun inImage => ?_⟩
      · by_cases wraps : 0xFFFFF000 < k.initrdEnd
        · have := spared.wraps wraps e mem avail all x inside inInitrd.1 inInitrd.2
          omega
        · have high := le_pgRoundup (Nat.le_of_not_lt wraps)
          have low := pgRounddown_eq k.initrdStart
          omega
      · have where' := (image x).mp inImage
        have := spared.behind e mem avail all x inside (by omega) inImage
        omega

/-- A map of one available region at `0xA000`, and at `0x9000` the module list with an
initrd of one page at 8 MiB. -/
def oneRegion (addr len : Nat) : Mem :=
  let m := store32 (store32 (fun _ => 0) 0x9000 0x800000) 0x9004 0x801000
  store32 (storeLE (storeLE (store32 m 0xA000 20) 8 0xA004 addr) 8 0xA00C len) 0xA014 1

def oneRegionInfo : MultibootInfo := ⟨0x1040, 0x9000, 24, 0xA000⟩

def smallLayout : Layout := ⟨⟨0x2000, 0x1000, 0x4000, 0x8000, 0x1000, 0x1000, 0x2000⟩, by decide⟩

theorem oneRegion_map (m : Mem) (addr len : Nat)
    (entry : mmapEntry m 0xA000 = ⟨addr, len, multibootMemoryAvailable⟩)
    (size : load32 m 0xA000 = 20) :
    MmapAt m oneRegionInfo 0 [⟨addr, len, multibootMemoryAvailable⟩] := by
  refine ⟨by decide, by decide, entry, ?_, ?_⟩
  · rw [show oneRegionInfo.mmapAddr + 0 = 0xA000 from rfl, size]
    decide
  · rw [show oneRegionInfo.mmapAddr + 0 = 0xA000 from rfl, size]
    exact Nat.le_refl 24

theorem oneRegion_returns (m : Mem)
    (returns : (initTrunix smallLayout m oneRegionInfo
      multibootBootloaderMagic).toOption.map Option.isSome = some true) :
    ∃ k, initTrunix smallLayout m oneRegionInfo multibootBootloaderMagic = .ok (some k) := by
  cases done : initTrunix smallLayout m oneRegionInfo multibootBootloaderMagic with
  | error e =>
      rw [done] at returns
      cases returns
  | ok k =>
      rw [done] at returns
      cases k with
      | none => cases returns
      | some k => exact ⟨k, rfl⟩

/-- A region from page 0 up to the end of the unpaged sections, with an initrd of one page at
2 MiB in it. -/
def lowInitrd : Mem :=
  store32 (store32 (oneRegion 0 0x407000) 0x9000 0x200000) 0x9004 0x201000

/-- Page 0, the initrd and the unpaged sections are cut out of the region. -/
theorem init_trunix_reserves_low_region :
    ∃ k : BootInfo, initTrunix smallLayout lowInitrd oneRegionInfo multibootBootloaderMagic =
        .ok (some k) ∧
      (∀ x ∈ k.bytes, 0x1000 ≤ x ∧ ¬ (k.initrdStart ≤ x ∧ x < k.initrdEnd) ∧
        x ∉ smallLayout.image) ∧
      k.initrdStart = 0x200000 ∧ 0x1FFFFF ∈ k.bytes ∧ 0x201000 ∈ k.bytes := by
  obtain ⟨k, done⟩ := oneRegion_returns lowInitrd (by decide +kernel)
  have map := oneRegion_map lowInitrd 0 0x407000 (by decide +kernel) (by decide +kernel)
  have whole : ∀ e ∈ [(⟨0, 0x407000, multibootMemoryAvailable⟩ : MultibootMmapEntry)],
      e.type = multibootMemoryAvailable → e.Whole := by
    intro e mem _
    rw [List.mem_singleton.mp mem]
    exact ⟨by decide, by decide, by decide⟩
  have unpaged : pgRoundup smallLayout.unpagedEnd = 0x407000 := by decide
  obtain ⟨start, stop, bytes⟩ := initTrunix_bytes map whole done
  have modStart : k.initrdStart = 0x200000 := start.trans (by decide +kernel)
  have modEnd : k.initrdEnd = 0x201000 := stop.trans (by decide +kernel)
  have free : ∀ x, 0x1000 ≤ x → x < kernelPhysicalBase → (x < 0x200000 ∨ 0x201000 ≤ x) →
      x ∈ k.bytes := by
    intro x low high out
    simp only [kernelPhysicalBase] at high
    rw [bytes]
    refine Or.inr ⟨⟨_, List.mem_singleton.mpr rfl, rfl, by decide, by rintro ⟨⟩,
      MultibootMmapEntry.mem_bytes.mpr (by simp only; omega)⟩, ?_⟩
    rw [cutPages, modStart, modEnd, show pgRounddown 0x200000 = 0x200000 by decide,
      show pgRoundup 0x201000 = 0x201000 by decide]
    simp only [Set.mem_union, Set.mem_Ico, kernelPhysicalBase]
    omega
  refine ⟨k, done, (init_trunix_reserves_iff map whole done).mpr ?_, modStart,
    free _ (by decide) (by decide) (by decide), free _ (by decide) (by decide) (by decide)⟩
  rw [← stop, modEnd]
  refine ⟨fun e mem _ _ x inside past => ?_, fun wraps => by omega, fun e mem _ _ ends => ?_⟩
  · rw [List.mem_singleton.mp mem] at inside
    have hi := (MultibootMmapEntry.mem_bytes.mp inside).2
    simp only at hi
    omega
  · rw [List.mem_singleton.mp mem] at ends
    cases ends

/-- 127 MiB at 1 MiB, as a boot loader reports them: the first byte of `.text` stays in
the map. -/
theorem kernel_text_stays_in_map :
    ∃ k : BootInfo, initTrunix smallLayout (oneRegion 0x100000 0x7F00000) oneRegionInfo
        multibootBootloaderMagic = .ok (some k) ∧
      MmapAt (oneRegion 0x100000 0x7F00000) oneRegionInfo 0
        [⟨0x100000, 0x7F00000, multibootMemoryAvailable⟩] ∧
      0x407000 ∈ k.bytes ∧ 0x407000 ∈ smallLayout.image := by
  obtain ⟨k, done⟩ := oneRegion_returns (oneRegion 0x100000 0x7F00000) (by decide +kernel)
  have map := oneRegion_map (oneRegion 0x100000 0x7F00000) 0x100000 0x7F00000 (by decide +kernel)
    (by decide +kernel)
  obtain ⟨start, stop, bytes⟩ := initTrunix_bytes map (fun e mem _ => by
    rw [List.mem_singleton.mp mem]
    exact ⟨by decide, by decide, by decide⟩) done
  have modStart : k.initrdStart = 0x800000 := start.trans (by decide +kernel)
  have unpaged : pgRoundup smallLayout.unpagedEnd = 0x407000 := by decide
  refine ⟨k, done, map, ?_, ?_⟩
  · rw [bytes]
    refine Or.inr ⟨⟨_, List.mem_singleton.mpr rfl, rfl, by decide, by rintro ⟨⟩, ?_⟩, ?_⟩
    · exact ⟨by decide, by decide⟩
    · rw [cutPages, unpaged, modStart]
      rintro (inside | inside | inside)
      · exact absurd inside.2 (by decide)
      · exact absurd inside.2 (by decide)
      · exact absurd inside.1 (by decide)
  · rw [smallLayout.image_eq]
    exact ⟨by decide, by decide⟩

end Trunix
