import Trunix.Slist
import Trunix.Mem.PagesRun

/-!
# The kernel heap

`kmalloc` of `kernel/mem.c` on the bytes of memory, and the heap that `init_mem` sets
up: one free block of 64 KiB.  The list head `heap` is a static variable whose address
is a parameter.  A free block carries its size and its link in its first eight bytes;
an allocated block carries its size in the two bytes before the pointer that was
handed out.
-/

set_option autoImplicit false

namespace Trunix

open Trunix.Lib

def kmallocSize (sz : Nat) : Nat := roundup (u32 (sz + 2)) 8

def kmalloc (heap : Nat) (m : Mem) (sz : Nat) : Except Halt (Nat × Mem) := do
  let sz := kmallocSize sz
  if ¬ sz < 0x1000 then .error .assertion
  else
    let p ← findFit m sz walkLimit (load32 m heap)
    if p = 0 then return (0, m)
    else
      let m := if sz < load32 m p then
          let s := u32 (p + sz)
          let m := store32 m s (load32 m p - sz)
          slistInsertAfter m p s
        else m
      let m ← slistRemove m heap p
      let m := store16 m p sz
      return (u32 (p + 2), m)

/-- The end of `init_mem`: `sb` is the block it allocated for the heap. -/
def initHeap (heap : Nat) (m : Mem) (sb : Nat) : Mem :=
  let m := store32 m sb 0x10000
  let m := store32 m heap 0
  slistInsertHead m heap sb

/-! ## The edit on lists of blocks -/

def cutRest (n : Nat) (b : Block) : List Block := if n < b.sz then [b.rest n] else []

theorem kmallocSize_spec {sz : Nat} (small : sz ≤ 4086) :
    kmallocSize sz % 8 = 0 ∧ 8 ≤ kmallocSize sz ∧ kmallocSize sz < 0x1000 ∧
      kmallocSize sz = roundup (sz + 2) 8 := by
  rw [kmallocSize, u32_of_lt (by omega)]
  refine ⟨?_, ?_, ?_, rfl⟩ <;> simp only [roundup, u32] <;> split <;> omega

/-- A free list of the kernel heap: blocks in address order whose sizes are nonzero
multiples of 8, in memory the list head is not part of. -/
structure HeapListAt (heap : Nat) (m : Mem) (F : List Block) : Prop where
  chained : Chained m heap F
  headBound : heap + 4 ≤ 0x100000000
  headApart : ∀ b ∈ F, heap + 4 ≤ b.addr ∨ b.addr + b.sz ≤ heap
  ascending : F.Pairwise fun b c => b.addr + b.sz ≤ c.addr
  sizes : ∀ b ∈ F, 0 < b.sz ∧ b.sz % 8 = 0
  bound : ∀ b ∈ F, b.addr + b.sz ≤ 0x100000000

theorem HeapListAt.ordered {heap : Nat} {m : Mem} {F : List Block} (h : HeapListAt heap m F) :
    Ordered heap F := by
  refine ⟨h.headBound, fun b mem => ?_, ?_, fun b mem => ?_⟩
  · have sizes := h.sizes b mem
    have bound := h.bound b mem
    omega
  · apply h.ascending.imp_of_mem
    intro b c memB _ below
    have sizes := h.sizes b memB
    omega
  · have sizes := h.sizes b mem
    have apart := h.headApart b mem
    omega

theorem kmalloc_none {heap : Nat} {m : Mem} {F : List Block} {sz : Nat} (h : HeapListAt heap m F)
    (small : sz ≤ 4086) (none : takeFit (kmallocSize sz) F = none) :
    kmalloc heap m sz = .ok (0, m) := by
  have walk := findFit_chained (kmallocSize sz) F heap walkLimit h.chained h.ordered.length_lt
  rw [none] at walk
  have below : ¬ ¬ kmallocSize sz < 0x1000 := not_not.mpr (kmallocSize_spec small).2.2.1
  simp only [kmalloc, if_neg below, walk]
  rfl

theorem HeapListAt.ordered_split {heap n : Nat} {m : Mem} {b : Block} {pre post : List Block}
    (h : HeapListAt heap m (pre ++ b :: post)) (whole : n % 8 = 0) (pos : 8 ≤ n) :
    Ordered heap (pre ++ b :: (cutRest n b ++ post)) := by
  by_cases split : n < b.sz
  · have old : Ordered heap ((pre ++ [b]) ++ post) := by
      rw [List.append_assoc]
      exact h.ordered
    have memB : b ∈ pre ++ b :: post := by simp
    have sizesB := h.sizes b memB
    have boundB := h.bound b memB
    have headB := h.headApart b memB
    obtain ⟨_, restAscending, across⟩ := List.pairwise_append.mp h.ascending
    have extents := (List.pairwise_cons.mp restAscending).1
    have inserted : Ordered heap ((pre ++ [b]) ++ b.rest n :: post) := by
      apply old.insert
      · simp only [Block.rest]
        omega
      · simp only [Block.rest]
        omega
      · intro c mem
        simp only [Block.rest]
        rcases List.mem_append.mp mem with inPre | last
        · have toB := across c inPre b (by simp)
          have sizes := h.sizes c (by simp [inPre])
          omega
        · rw [List.mem_singleton.mp last]
          omega
      · intro c mem
        have toC := extents c mem
        simp only [Block.rest]
        omega
    rw [List.append_assoc] at inserted
    rw [cutRest, if_pos split]
    exact inserted
  · rw [cutRest, if_neg split]
    exact h.ordered

/-- The front half of `kmalloc`: when the block is larger than needed, its rest is
linked in behind it.  Only bytes of the block itself are written. -/
theorem split_chained {heap n : Nat} {m : Mem} {b : Block} {pre post : List Block}
    (h : HeapListAt heap m (pre ++ b :: post)) (whole : n % 8 = 0) (pos : 8 ≤ n)
    (split : n < b.sz) :
    Chained (slistInsertAfter (store32 m (b.addr + n) (b.sz - n)) b.addr (b.addr + n)) heap
        (pre ++ b :: b.rest n :: post) ∧
      Frame m (slistInsertAfter (store32 m (b.addr + n) (b.sz - n)) b.addr (b.addr + n))
        (Set.Ico (b.addr + 4) (b.addr + b.sz)) := by
  have memB : b ∈ pre ++ b :: post := by simp
  have sizesB := h.sizes b memB
  have boundB := h.bound b memB
  have headB := h.headApart b memB
  obtain ⟨_, restAscending, across⟩ := List.pairwise_append.mp h.ascending
  have extents := (List.pairwise_cons.mp restAscending).1
  have ordered : Ordered heap (pre ++ b :: b.rest n :: post) := by
    have cut := h.ordered_split whole pos
    rw [cutRest, if_pos split] at cut
    exact cut
  -- the size of the rest lies behind the header of the block
  have sized := store32_frame m (b.addr + n) (b.sz - n)
  have chained : Chained (store32 m (b.addr + n) (b.sz - n)) heap (pre ++ b :: post) := by
    apply h.chained.frame sized
    intro x mem inside
    simp only [Set.mem_Ico] at inside
    rcases mem with ⟨lo, hi⟩ | ⟨c, memC, lo, hi⟩
    · omega
    · rcases List.mem_append.mp memC with inPre | inRest
      · have toB := across c inPre b (by simp)
        have sizes := h.sizes c memC
        omega
      · rcases List.mem_cons.mp inRest with rfl | inPost
        · omega
        · have toC := extents c inPost
          omega
  have size : load32 (store32 m (b.addr + n) (b.sz - n)) (b.rest n).addr = (b.rest n).sz := by
    rw [Block.rest, load32_store32_same]
    exact Nat.mod_eq_of_lt (by omega)
  have nonnull : (b.rest n).addr ≠ 0 := by
    simp only [Block.rest]
    omega
  obtain ⟨linked, written⟩ := slistInsertAfter_chained chained size nonnull ordered
  refine ⟨linked, (sized.mono ?_).trans (written.mono ?_)⟩
  · intro x inside
    simp only [Set.mem_Ico] at inside ⊢
    omega
  · intro x inside
    simp only [Set.mem_union, Set.mem_Ico, Block.rest] at inside ⊢
    omega

theorem kmalloc_chained {heap sz : Nat} {m : Mem} {b : Block} {pre post : List Block}
    (h : HeapListAt heap m (pre ++ b :: post)) (small : sz ≤ 4086) (fit : kmallocSize sz ≤ b.sz)
    (first : ∀ c ∈ pre, c.sz < kmallocSize sz) :
    ∃ m', kmalloc heap m sz = .ok (b.addr + 2, m') ∧
      Chained m' heap (pre ++ (cutRest (kmallocSize sz) b ++ post)) ∧
      load16 m' b.addr = kmallocSize sz ∧
      Frame m m' (chainBytes heap (pre ++ b :: post) ∪ Set.Ico b.addr (b.addr + b.sz)) := by
  obtain ⟨whole, pos, below, _⟩ := kmallocSize_spec small
  generalize size : kmallocSize sz = n at *
  have memB : b ∈ pre ++ b :: post := by simp
  have sizesB := h.sizes b memB
  have boundB := h.bound b memB
  have headB := h.headApart b memB
  have walk := findFit_chained n _ heap walkLimit h.chained h.ordered.length_lt
  rw [takeFit_append fit first] at walk
  have sizeB := h.chained.size_eq _ heap memB
  have nonnull : b.addr ≠ 0 := (h.chained.after pre heap).2.1
  -- the block, and behind it what is left of it, are linked before the removal
  let m₁ := if n < b.sz then
      slistInsertAfter (store32 m (b.addr + n) (b.sz - n)) b.addr (b.addr + n) else m
  have linked₁ : Chained m₁ heap (pre ++ b :: (cutRest n b ++ post)) ∧
      Frame m m₁ (Set.Ico (b.addr + 4) (b.addr + b.sz)) := by
    by_cases split : n < b.sz
    · simp only [m₁, if_pos split, cutRest]
      exact split_chained h whole pos split
    · simp only [m₁, if_neg split, cutRest, List.nil_append]
      exact ⟨h.chained, Frame.refl _ _⟩
  have ordered₁ := h.ordered_split whole pos
  obtain ⟨m₂, removed, chained₂, frame₂⟩ := slistRemove_chained linked₁.1 ordered₁
  have frame₃ := store16_frame m₂ b.addr n
  refine ⟨store16 m₂ b.addr n, ?_, ?_, ?_, ?_⟩
  · have wrapped : u32 (b.addr + 2) = b.addr + 2 := u32_of_lt (by omega)
    have rest : (if n < load32 m b.addr then
        slistInsertAfter (store32 m (u32 (b.addr + n)) (load32 m b.addr - n)) b.addr
          (u32 (b.addr + n)) else m) = m₁ := by
      rw [sizeB]
      by_cases split : n < b.sz
      · have inside : u32 (b.addr + n) = b.addr + n := u32_of_lt (by omega)
        simp only [m₁, if_pos split, inside]
      · simp only [m₁, if_neg split]
    simp only [kmalloc, size, if_neg (not_not.mpr below), walk, ok_bind, if_neg nonnull, rest,
      removed, wrapped]
    rfl
  · apply chained₂.frame frame₃
    have cellB := ordered₁.cellApart b (by simp)
    obtain ⟨_, restAscending, across⟩ := List.pairwise_append.mp ordered₁.ascending
    intro x mem inside
    simp only [Set.mem_Ico] at inside
    rcases mem with ⟨lo, hi⟩ | ⟨c, memC, lo, hi⟩
    · omega
    · rcases List.mem_append.mp memC with inPre | inRest
      · have := across c inPre b (by simp)
        omega
      · have := (List.pairwise_cons.mp restAscending).1 c inRest
        omega
  · rw [load16_store16_same]
    exact Nat.mod_eq_of_lt (by omega)
  · apply Frame.trans (linked₁.2.mono ?_) (Frame.trans (frame₂.mono ?_) (frame₃.mono ?_))
    · intro x mem
      simp only [Set.mem_Ico] at mem
      exact Or.inr ⟨by omega, mem.2⟩
    · intro x mem
      simp only [Set.mem_Ico] at mem
      rcases cellAfter_mem heap pre with here | ⟨c, memC, there⟩
      · exact Or.inl (Or.inl (by omega))
      · exact Or.inl (Or.inr ⟨c, by simp [memC], by omega, by omega⟩)
    · intro x mem
      simp only [Set.mem_Ico] at mem
      exact Or.inr ⟨mem.1, by omega⟩

/-! ## Runs -/

structure HeapArena where
  mem : Mem
  live : List Block

inductive HeapCall where
  | kmalloc (sz : Nat)
  | write (addr : Nat) (byte : UInt8)

def HeapArena.step (heap : Nat) (s : HeapArena) : HeapCall → Except Halt HeapArena
  | .kmalloc sz => do
      let (p, m) ← Trunix.kmalloc heap s.mem sz
      if p = 0 then return { s with mem := m }
      else return ⟨m, ⟨p - 2, roundup (sz + 2) 8⟩ :: s.live⟩
  | .write addr byte => .ok { s with mem := fun x => if x = addr then byte else s.mem x }

/-- Sizes that pass the assertion of `kmalloc` without wrapping, and writes to the
bytes behind a header. -/
def HeapArena.Allowed (s : HeapArena) : HeapCall → Prop
  | .kmalloc sz => sz ≤ 4086
  | .write addr _ => ∃ b ∈ s.live, b.addr + 2 ≤ addr ∧ addr < b.addr + b.sz

/-- Where `init_mem` may put the heap: 64 KiB that do not contain the list head. -/
structure HeapPlace (heap base : Nat) : Prop where
  nonnull : base ≠ 0
  aligned : base % 0x1000 = 0
  bound : base + 0x10000 ≤ 0x100000000
  headBound : heap + 4 ≤ 0x100000000
  headApart : heap + 4 ≤ base ∨ base + 0x10000 ≤ heap

structure HeapArena.Sound (heap base : Nat) (s : HeapArena) (F : List Block) : Prop where
  list : HeapListAt heap s.mem F
  tidy : Tidy 8 [⟨base, 0x10000⟩] (F ++ s.live)
  full : total (F ++ s.live) = 0x10000
  headers : ∀ b ∈ s.live, load16 s.mem b.addr = b.sz

theorem Tidy.inside_one {g base size : Nat} {blocks : List Block} {b : Block}
    (h : Tidy g [⟨base, size⟩] blocks) (mem : b ∈ blocks) :
    base ≤ b.addr ∧ b.addr + b.sz ≤ base + size := by
  obtain ⟨c, memC, inside⟩ := h.inside b mem
  rw [List.mem_singleton.mp memC] at inside
  exact inside

theorem heapListAt_of_tidy {heap base : Nat} {m : Mem} {F live : List Block}
    (place : HeapPlace heap base) (chained : Chained m heap F)
    (ascending : F.Pairwise fun b c => b.addr + b.sz ≤ c.addr)
    (tidy : Tidy 8 [⟨base, 0x10000⟩] (F ++ live)) : HeapListAt heap m F := by
  have headApart := place.headApart
  have inside : ∀ b ∈ F, base ≤ b.addr ∧ b.addr + b.sz ≤ base + 0x10000 := fun b mem =>
    tidy.inside_one (List.mem_append_left _ mem)
  have grained : ∀ b ∈ F, b.Grained 8 := fun b mem => tidy.grained b (List.mem_append_left _ mem)
  refine ⟨chained, place.headBound, fun b mem => ?_, ascending,
    fun b mem => ⟨(grained b mem).nonempty, Nat.mod_eq_zero_of_dvd (grained b mem).whole⟩,
    fun b mem => (grained b mem).bound⟩
  have := inside b mem
  omega

theorem pieces_eq_cutRest (n : Nat) (b : Block) : pieces n b = ⟨b.addr, n⟩ :: cutRest n b := by
  by_cases split : n < b.sz
  · simp [pieces, cutRest, split]
  · simp [pieces, cutRest, split]

theorem mem_cutRest {n : Nat} {b c : Block} (mem : c ∈ cutRest n b) :
    c.addr = b.addr + n ∧ c.addr + c.sz = b.addr + b.sz := by
  rw [cutRest] at mem
  split at mem
  · rename_i lt
    rw [List.mem_singleton.mp mem]
    exact ⟨rfl, by simp only [Block.rest]; omega⟩
  · cases mem

theorem cutRest_pairwise {R : Block → Block → Prop} {n : Nat} {b : Block} {pre post : List Block}
    (pairs : (pre ++ b :: post).Pairwise R) (left : ∀ c, ∀ d ∈ cutRest n b, R c b → R c d)
    (right : ∀ c, ∀ d ∈ cutRest n b, R b c → R d c) :
    (pre ++ (cutRest n b ++ post)).Pairwise R := by
  obtain ⟨inPre, restPairs, across⟩ := List.pairwise_append.mp pairs
  obtain ⟨behind, inPost⟩ := List.pairwise_cons.mp restPairs
  have alone : (cutRest n b).Pairwise R := by
    rw [cutRest]
    split
    · exact List.pairwise_singleton _ _
    · exact List.Pairwise.nil
  refine List.pairwise_append.mpr ⟨inPre, List.pairwise_append.mpr ⟨alone, inPost, ?_⟩, ?_⟩
  · intro d inCut c memC
    exact right c d inCut (behind c memC)
  · intro c memC d memD
    rcases List.mem_append.mp memD with inCut | memPost
    · exact left c d inCut (across c memC b List.mem_cons_self)
    · exact across c memC d (List.mem_cons_of_mem _ memPost)

theorem cutRest_ascending (n : Nat) {b : Block} {pre post : List Block}
    (ascending : (pre ++ b :: post).Pairwise fun b c => b.addr + b.sz ≤ c.addr) :
    (pre ++ (cutRest n b ++ post)).Pairwise fun b c => b.addr + b.sz ≤ c.addr := by
  apply cutRest_pairwise ascending
  · intro c d inCut below
    have place := mem_cutRest inCut
    omega
  · intro c d inCut below
    have place := mem_cutRest inCut
    omega

/-- `kmalloc` takes the front of the first block that is large enough, and the heap stays
sound with it handed out. -/
theorem HeapArena.kmalloc_taken {heap base sz : Nat} {s : HeapArena} {b : Block}
    {pre post : List Block} (place : HeapPlace heap base)
    (sound : s.Sound heap base (pre ++ b :: post)) (small : sz ≤ 4086)
    (fit : kmallocSize sz ≤ b.sz) (first : ∀ c ∈ pre, c.sz < kmallocSize sz) :
    ∃ m', Trunix.kmalloc heap s.mem sz = .ok (b.addr + 2, m') ∧
      HeapArena.Sound heap base ⟨m', ⟨b.addr, kmallocSize sz⟩ :: s.live⟩
        (pre ++ (cutRest (kmallocSize sz) b ++ post)) := by
  obtain ⟨whole, pos, _, _⟩ := kmallocSize_spec small
  obtain ⟨m', done, chained, header, frame⟩ := kmalloc_chained sound.list small fit first
  have oldPerm : (pre ++ b :: post ++ s.live).Perm (b :: (pre ++ post ++ s.live)) := by
    rw [List.append_assoc, List.append_assoc]
    exact List.perm_middle
  have newPerm : (pre ++ (cutRest (kmallocSize sz) b ++ post) ++
      ⟨b.addr, kmallocSize sz⟩ :: s.live).Perm
        (pieces (kmallocSize sz) b ++ (pre ++ post ++ s.live)) := by
    rw [pieces_eq_cutRest, List.cons_append]
    refine List.perm_middle.trans (List.Perm.cons _ ?_)
    rw [← List.append_assoc, ← List.append_assoc, ← List.append_assoc]
    exact ((List.perm_append_comm.append_right post)).append_right s.live
  have tidyOld := sound.tidy.subperm oldPerm.symm.subperm
  have tidy' := (tidyOld.pieces (by omega) (Nat.dvd_of_mod_eq_zero whole) fit).subperm
    newPerm.subperm
  refine ⟨m', done, ?_, tidy', ?_, ?_⟩
  · exact heapListAt_of_tidy place chained (cutRest_ascending _ sound.list.ascending) tidy'
  · calc total (pre ++ (cutRest (kmallocSize sz) b ++ post) ++
          ⟨b.addr, kmallocSize sz⟩ :: s.live)
        = total (pieces (kmallocSize sz) b ++ (pre ++ post ++ s.live)) := total_perm newPerm
      _ = b.sz + total (pre ++ post ++ s.live) := by rw [total_append, total_pieces fit]
      _ = total (pre ++ b :: post ++ s.live) := by rw [total_perm oldPerm, total_cons]
      _ = 0x10000 := sound.full
  · intro c mem
    rcases List.mem_cons.mp mem with rfl | inLive
    · exact header
    · -- a header of an older block is neither on the list nor inside `b`
      have grainedC := sound.tidy.grained c (List.mem_append_right _ inLive)
      have insideC := sound.tidy.inside_one (List.mem_append_right _ inLive)
      have nonempty := grainedC.nonempty
      have wholeC := grainedC.whole
      have apart : ∀ d ∈ pre ++ b :: post, d.Apart c := fun d memD =>
        (List.pairwise_append.mp sound.tidy.apart).2.2 d memD c inLive
      have headApart := place.headApart
      rw [← sound.headers c inLive]
      apply frame.loadLE_eq
      intro x lo hi inside
      rcases inside with (⟨lo', hi'⟩ | ⟨d, memD, lo', hi'⟩) | mem
      · omega
      · have apartD := apart d memD
        have sizesD := sound.list.sizes d memD
        simp only [Block.Apart] at apartD
        omega
      · have apartB := apart b (by simp)
        simp only [Set.mem_Ico] at mem
        simp only [Block.Apart] at apartB
        omega

/-- One call of `kmalloc`: it fails exactly when no free block is large enough, and
then writes nothing; otherwise the heap stays sound with the new block handed out. -/
theorem HeapArena.kmalloc_step {heap base sz : Nat} {s : HeapArena} {F : List Block}
    (place : HeapPlace heap base) (sound : s.Sound heap base F) (small : sz ≤ 4086) :
    (takeFit (kmallocSize sz) F = none ∧ Trunix.kmalloc heap s.mem sz = .ok (0, s.mem)) ∨
      ∃ b m' F', b ∈ F ∧ kmallocSize sz ≤ b.sz ∧
        Trunix.kmalloc heap s.mem sz = .ok (b.addr + 2, m') ∧
        HeapArena.Sound heap base ⟨m', ⟨b.addr, kmallocSize sz⟩ :: s.live⟩ F' := by
  cases taken : takeFit (kmallocSize sz) F with
  | none => exact Or.inl ⟨rfl, kmalloc_none sound.list small taken⟩
  | some found =>
      right
      obtain ⟨b, rest⟩ := found
      obtain ⟨pre, post, rfl, rfl, fit, first⟩ := takeFit_split taken
      obtain ⟨m', done, sound'⟩ := HeapArena.kmalloc_taken place sound small fit first
      exact ⟨b, m', _, by simp, fit, done, sound'⟩

theorem HeapArena.write_step {heap base addr : Nat} {byte : UInt8} {s : HeapArena} {F : List Block}
    (place : HeapPlace heap base) (sound : s.Sound heap base F)
    (owned : s.Allowed (.write addr byte)) :
    HeapArena.Sound heap base { s with mem := fun x => if x = addr then byte else s.mem x } F := by
  obtain ⟨b, memB, lo, hi⟩ := owned
  have insideB := sound.tidy.inside_one (List.mem_append_right _ memB)
  have headApart := place.headApart
  have across := (List.pairwise_append.mp sound.tidy.apart).2.2
  have written : Frame s.mem (fun x => if x = addr then byte else s.mem x) {addr} := by
    intro x out
    exact if_neg out
  refine ⟨{ sound.list with chained := sound.list.chained.frame written ?_ }, sound.tidy,
    sound.full, fun c memC => ?_⟩
  · intro x inList same
    rw [Set.mem_singleton_iff] at same
    subst same
    rcases inList with ⟨lo', hi'⟩ | ⟨c, memC, lo', hi'⟩
    · omega
    · have apart := across c memC b memB
      have sizes := sound.list.sizes c memC
      simp only [Block.Apart] at apart
      omega
  · rw [← sound.headers c memC]
    apply written.loadLE_eq
    intro x lo' hi' same
    rw [Set.mem_singleton_iff] at same
    subst same
    -- two blocks are the same or apart, and the written byte is behind `b`'s header
    by_cases sameBlock : c = b
    · subst sameBlock
      omega
    · have apart := sound.tidy.apart_of_ne (List.mem_append_right _ memC)
        (List.mem_append_right _ memB) sameBlock
      have nonempty := (sound.tidy.grained c (List.mem_append_right _ memC)).nonempty
      have whole := (sound.tidy.grained c (List.mem_append_right _ memC)).whole
      simp only [Block.Apart] at apart
      omega

def HeapArena.start (heap : Nat) (m : Mem) (base : Nat) : HeapArena := ⟨initHeap heap m base, []⟩

theorem HeapArena.start_sound {heap base : Nat} (m : Mem) (place : HeapPlace heap base) :
    (HeapArena.start heap m base).Sound heap base [⟨base, 0x10000⟩] := by
  have nonnull := place.nonnull
  have aligned := place.aligned
  have bound := place.bound
  have headBound := place.headBound
  have headApart := place.headApart
  let m₁ := store32 (store32 m base 0x10000) heap 0
  have empty : load32 m₁ heap = 0 := load32_store32_same _ _ _
  have chained : Chained (initHeap heap m base) heap [⟨base, 0x10000⟩] := by
    have written : initHeap heap m base = store32 (store32 m₁ (base + 4) 0) heap base := by
      simp only [initHeap, slistInsertHead, m₁, empty]
    rw [written]
    refine ⟨?_, nonnull, ?_, ?_⟩
    · rw [load32_store32_same]
      exact Nat.mod_eq_of_lt (by omega)
    · simp only
      rw [load32_store32_of_apart _ (by omega), load32_store32_of_apart _ (by omega),
        load32_store32_of_apart _ (by omega), load32_store32_same]
    · simp only [Chained]
      rw [load32_store32_of_apart _ (by omega), load32_store32_same]
  have tidy : Tidy 8 [⟨base, 0x10000⟩] ([⟨base, 0x10000⟩] ++ []) := by
    refine ⟨fun b mem => ?_, fun b mem => ⟨b, mem, Nat.le_refl _, Nat.le_refl _⟩,
      List.pairwise_singleton _ _⟩
    rw [List.mem_singleton.mp mem]
    exact ⟨nonnull, by simp only; omega, ⟨0x2000, rfl⟩, Nat.le_of_ble_eq_true rfl, bound⟩
  exact ⟨heapListAt_of_tidy place chained (List.pairwise_singleton _ _) tidy, tidy, rfl, by simp [start]⟩

theorem HeapArena.run_sound {heap base : Nat} {m : Mem} {s : HeapArena}
    (place : HeapPlace heap base)
    (run : Runs (HeapArena.step heap) HeapArena.Allowed (HeapArena.start heap m base) s) :
    ∃ F, s.Sound heap base F := by
  apply run.invariant _ ⟨_, start_sound m place⟩
  intro t c t' sound allowed done
  obtain ⟨F, sound⟩ := sound
  cases c with
  | write addr byte =>
      cases done
      exact ⟨F, write_step place sound allowed⟩
  | kmalloc sz =>
      rcases kmalloc_step place sound allowed with ⟨_, none⟩ | ⟨b, m', F', _, _, some, sound'⟩
      · simp only [HeapArena.step, none, ok_bind] at done
        cases done
        exact ⟨F, sound⟩
      · have nonnull : b.addr + 2 ≠ 0 := by omega
        have size := (kmallocSize_spec allowed).2.2.2
        simp only [HeapArena.step, some, ok_bind, if_neg nonnull, Nat.add_sub_cancel, ← size]
          at done
        cases done
        exact ⟨F', sound'⟩

/-- At every point of every run of `kmalloc` the free blocks are in address order with
sizes that are nonzero multiples of 8, the free and the allocated blocks are disjoint and
together are exactly the 64 KiB, and every allocated block still has its size in its
header.  A further call fails exactly when no free block is large enough, and then
changes nothing; otherwise it returns the address behind the header of a block of the
rounded size inside the 64 KiB. -/
theorem kmalloc_heap_tiled {heap base : Nat} {m : Mem} {s : HeapArena}
    (place : HeapPlace heap base)
    (run : Runs (HeapArena.step heap) HeapArena.Allowed (HeapArena.start heap m base) s) :
    ∃ F, freeBlocks heap s.mem = .ok F ∧
      F.Pairwise (fun b c => b.addr + b.sz ≤ c.addr) ∧
      (∀ b ∈ F ++ s.live, 0 < b.sz ∧ b.sz % 8 = 0) ∧
      (F ++ s.live).Pairwise Block.Apart ∧
      (∀ x, (∃ b ∈ F ++ s.live, b.addr ≤ x ∧ x < b.addr + b.sz) ↔
        base ≤ x ∧ x < base + 0x10000) ∧
      (∀ b ∈ s.live, load16 s.mem b.addr = b.sz) ∧
      ∀ sz ≤ 4086, ∃ p m', Trunix.kmalloc heap s.mem sz = .ok (p, m') ∧
        (p = 0 ↔ ∀ b ∈ F, b.sz < roundup (sz + 2) 8) ∧ (p = 0 → m' = s.mem) ∧
        (p ≠ 0 → ∃ b : Block, p = b.addr + 2 ∧ b.sz = roundup (sz + 2) 8 ∧ base ≤ b.addr ∧
          b.addr + b.sz ≤ base + 0x10000 ∧ load16 m' b.addr = b.sz) := by
  obtain ⟨F, sound⟩ := HeapArena.run_sound place run
  have inside : ∀ b ∈ F ++ s.live, base ≤ b.addr ∧ b.addr + b.sz ≤ base + 0x10000 := fun b mem =>
    sound.tidy.inside_one mem
  refine ⟨F, readList_chained F heap walkLimit sound.list.chained sound.list.ordered.length_lt,
    sound.list.ascending, fun b mem => ?_, sound.tidy.apart, fun x => ?_, sound.headers,
    fun sz small => ?_⟩
  · have grained := sound.tidy.grained b mem
    exact ⟨grained.nonempty, Nat.mod_eq_zero_of_dvd grained.whole⟩
  · have full : base + 0x10000 - base ≤ ((F ++ s.live).map Block.sz).sum := by
      have := sound.full
      simp only [total] at this
      omega
    have apart := sound.tidy.apart.imp (spansApart_of_order Block.addr Block.sz)
    have tiles := covered_eq_Ico Block.addr Block.sz apart inside full
    rw [← mem_covered, tiles, Finset.mem_Ico]
  · have size := (kmallocSize_spec small).2.2.2
    rcases HeapArena.kmalloc_step place sound small with
      ⟨none, done⟩ | ⟨b, m', F', memB, fit, done, sound'⟩
    · have tooSmall := takeFit_eq_none.mp none
      rw [size] at tooSmall
      exact ⟨0, s.mem, done, iff_of_true rfl tooSmall, fun _ => rfl, fun h => absurd rfl h⟩
    · refine ⟨b.addr + 2, m', done, iff_of_false (by omega) ?_, fun h => absurd h (by omega),
        fun _ => ⟨⟨b.addr, kmallocSize sz⟩, rfl, size, ?_⟩⟩
      · intro tooSmall
        have := tooSmall b memB
        omega
      · have insideB := sound'.tidy.inside_one
          (List.mem_append_right F' (List.mem_cons_self (l := s.live)))
        exact ⟨insideB.1, insideB.2, sound'.headers _ (List.mem_cons_self (l := s.live))⟩

/-- A first call for 100 bytes. -/
theorem kmalloc_heap_tiled_first :
    ∃ s : HeapArena, s.live = [⟨0x80010000, 104⟩] ∧
      (∀ b ∈ s.live, load16 s.mem b.addr = b.sz) ∧
      ∃ p m', Trunix.kmalloc 0x80480000 s.mem 8 = .ok (p, m') := by
  have place : HeapPlace 0x80480000 0x80010000 := by
    constructor <;> decide
  have first : ((HeapArena.start 0x80480000 (fun _ => 0) 0x80010000).step 0x80480000
      (.kmalloc 100)).toOption.map HeapArena.live = some [⟨0x80010000, 104⟩] := by
    decide +kernel
  cases done : (HeapArena.start 0x80480000 (fun _ => 0) 0x80010000).step 0x80480000
      (.kmalloc 100) with
  | error e =>
      rw [done] at first
      cases first
  | ok s =>
      rw [done] at first
      have small : HeapArena.Allowed (HeapArena.start 0x80480000 (fun _ => 0) 0x80010000)
          (.kmalloc 100) := Nat.le_of_ble_eq_true rfl
      obtain ⟨_, _, _, _, _, _, headers, further⟩ :=
        kmalloc_heap_tiled place (.snoc (.kmalloc 100) .refl small done)
      obtain ⟨p, m', again, _⟩ := further 8 (by decide)
      exact ⟨s, Option.some.inj first, headers, p, m', again⟩

end Trunix
