import Trunix.Mem.Blocks
import Trunix.Lib.Spans

/-!
# The page allocator

`alloc_pages` and `free_pages` of `kernel/mem.c`, on the bytes of memory.  The list
head `freelist` is a static variable; its address is a parameter, since the linker
chooses it.  The theorems say that the code performs `takeFit` and `putBack` on the
list in memory, and which bytes it may write.
-/

set_option autoImplicit false

namespace Trunix

open Trunix.Lib

/-- There are no more nodes than addresses, so a longer walk has met a cycle and
never ends. -/
def walkLimit : Nat := 0x100000000

/-- `LIST_FOREACH` of `alloc_pages`; the answer is `NULL` when nothing fits. -/
def findFit (m : Mem) (sz : Nat) : Nat → Nat → Except Halt Nat
  | 0, _ => .error .loops
  | fuel + 1, p =>
      if p = 0 then .ok 0
      else if sz ≤ load32 m p then .ok p
      else findFit m sz fuel (leNext m p)

/-- `LIST_FOREACH_SAFE` of `free_pages`. -/
def linkLoop (m : Mem) (n : Nat) : Nat → Nat → Except Halt Mem
  | 0, _ => .error .loops
  | fuel + 1, p =>
      if p = 0 then .ok m
      else
        let tmp := leNext m p
        if load32 m n ≤ load32 m p then .ok (listInsertBefore m p n)
        else if tmp = 0 then .ok (listInsertAfter m p n)
        else linkLoop m n fuel tmp

def freePages (freelist : Nat) (m : Mem) (addr sz : Nat) : Except Halt Mem :=
  if addr = 0 then .error .assertion
  else
    let addr := pgRounddown addr
    let sz := pgRoundup sz
    let m := fill m addr sz 0x69
    let n := addr
    let m := store32 m n sz
    linkLoop m n walkLimit (load32 m freelist)

def allocPages (freelist : Nat) (m : Mem) (sz : Nat) : Except Halt (Nat × Mem) := do
  let p ← findFit m sz walkLimit (load32 m freelist)
  if p = 0 then
    return (0, m)
  else
    let addr := p
    let sz := pgRoundup sz
    let m := listRemove m p
    -- split block
    if sz < load32 m p then
      let m ← freePages freelist m (u32 (p + sz)) (load32 m p - sz)
      return (addr, m)
    else
      return (addr, m)

/-- The blocks on the list that starts in `p`, with the sizes their headers record. -/
def readList (m : Mem) : Nat → Nat → Except Halt (List Block)
  | 0, _ => .error .loops
  | fuel + 1, p =>
      if p = 0 then .ok []
      else do
        let rest ← readList m fuel (leNext m p)
        return ⟨p, load32 m p⟩ :: rest

def freeBlocks (freelist : Nat) (m : Mem) : Except Halt (List Block) :=
  readList m walkLimit (load32 m freelist)

/-! ## The code performs the edits -/

theorem Headed.length_lt {cell : Nat} {L : List Block} (headed : Headed cell L) :
    L.length < walkLimit := by
  cases L with
  | nil => simp [walkLimit]
  | cons b rest =>
      -- the headers are disjoint, and an address space holds fewer than one for each byte
      have spans : (b :: rest).Pairwise (SpansApart Block.addr fun _ => 1) := by
        apply headed.apart.imp
        intro c d apart
        simp only [Block.HeadsApart] at apart
        exact spansApart_of_order Block.addr (fun _ => 1) (by omega)
      have inside : ∀ c ∈ b :: rest, 0 ≤ c.addr ∧ c.addr + 1 ≤ 0xFFFFFFF5 := fun c mem =>
        ⟨Nat.zero_le _, by have := headed.bound c mem; omega⟩
      have count := length_le_of_apart Block.addr (fun _ => 1) spans inside (fun _ _ => Nat.le_refl 1)
      simp only [walkLimit]
      omega

theorem readList_linked {m : Mem} : ∀ (L : List Block) (cell fuel : Nat), Linked m cell L →
    L.length < fuel → readList m fuel (load32 m cell) = .ok L := by
  intro L
  induction L with
  | nil =>
      intro cell fuel linked enough
      cases fuel with
      | zero => simp at enough
      | succ fuel => simp [readList, show load32 m cell = 0 from linked]
  | cons b rest ih =>
      intro cell fuel linked enough
      obtain ⟨first, nonnull, size, _, restLinked⟩ := linked
      cases fuel with
      | zero => simp at enough
      | succ fuel =>
          have tail := ih (b.addr + 4) fuel restLinked (by simp at enough; omega)
          simp only [readList, first, if_neg nonnull, leNext, tail, size]
          rfl

theorem findFit_linked {m : Mem} (sz : Nat) : ∀ (L : List Block) (cell fuel : Nat),
    Linked m cell L → L.length < fuel →
      findFit m sz fuel (load32 m cell) =
        .ok (match takeFit sz L with | none => 0 | some found => found.1.addr) := by
  intro L
  induction L with
  | nil =>
      intro cell fuel linked enough
      cases fuel with
      | zero => simp at enough
      | succ fuel => simp [findFit, takeFit, show load32 m cell = 0 from linked]
  | cons b rest ih =>
      intro cell fuel linked enough
      obtain ⟨first, nonnull, size, _, restLinked⟩ := linked
      cases fuel with
      | zero => simp at enough
      | succ fuel =>
          have tail := ih (b.addr + 4) fuel restLinked (by simp at enough; omega)
          by_cases fits : sz ≤ b.sz
          · simp [findFit, takeFit, first, nonnull, size, fits]
          · simp only [findFit, takeFit, first, if_neg nonnull, size, if_neg fits, leNext, tail]
            cases takeFit sz rest <;> rfl

theorem linkLoop_linked {m : Mem} {n : Block} (size : load32 m n.addr = n.sz) :
    ∀ (L : List Block) (cell fuel : Nat), Linked m cell L → Headed cell L → HeadFits n cell L →
      L.length < fuel →
      ∃ m', linkLoop m n.addr fuel (load32 m cell) = .ok m' ∧ Linked m' cell (putBack n L) ∧
        Frame m m' (insertBytes n.addr cell L) := by
  intro L
  induction L with
  | nil =>
      intro cell fuel linked _ _ enough
      cases fuel with
      | zero => simp at enough
      | succ fuel =>
          have first : load32 m cell = 0 := linked
          exact ⟨m, by simp [linkLoop, first], linked, Frame.refl _ _⟩
  | cons b rest ih =>
      intro cell fuel linked headed fits enough
      have parts := linked
      obtain ⟨first, nonnull, sizeB, _, restLinked⟩ := parts
      cases fuel with
      | zero => simp at enough
      | succ fuel =>
          simp only [linkLoop, first, if_neg nonnull, size, sizeB]
          by_cases before : n.sz ≤ b.sz
          · obtain ⟨linked', frame⟩ := listInsertBefore_linked linked headed fits size
            rw [if_pos before]
            refine ⟨_, rfl, ?_, frame⟩
            cases rest with
            | nil => simpa [putBack, before] using linked'
            | cons c rest => simpa [putBack, before] using linked'
          · rw [if_neg before]
            cases rest with
            | nil =>
                obtain ⟨linked', frame⟩ := listInsertAfter_linked linked headed fits size
                have last : leNext m b.addr = 0 := restLinked
                rw [if_pos last]
                exact ⟨_, rfl, by simpa [putBack, before] using linked', frame⟩
            | cons c rest =>
                have next : leNext m b.addr = c.addr := restLinked.1
                have nonnullC : c.addr ≠ 0 := restLinked.2.1
                rw [next, if_neg nonnullC, ← next]
                obtain ⟨m', done, linked', frame⟩ := ih (b.addr + 4) fuel restLinked
                  headed.tail fits.tail (by simp at enough ⊢; omega)
                obtain ⟨keeps, frame'⟩ := insert_behind linked headed fits frame
                refine ⟨m', done, ?_, frame'⟩
                simp only [putBack, if_neg before]
                exact keeps _ linked'

/-- The bytes `free_pages` may write: the links of the list and the block itself. -/
def freeBytes (n : Block) (cell : Nat) (L : List Block) : Set Nat :=
  linkBytes cell L ∪ Set.Ico n.addr (n.addr + n.sz)

/-- What a block uses while it is on the list: its extent, but at least its header. -/
def Block.footprint (b : Block) : Block := ⟨b.addr, max 12 b.sz⟩

theorem Block.footprint_of_le {b : Block} (size : 12 ≤ b.sz) : b.footprint = b := by
  rw [footprint, Nat.max_eq_right size]

/-- Only the header of the new block has to fit; its extent may hold no header. -/
theorem freePages_placed {m : Mem} {freelist : Nat} {n : Block} {L : List Block} (sz : Nat)
    (linked : Linked m freelist L) (headed : Headed freelist L) (fits : HeadFits n freelist L)
    (word : n.sz < 0x100000000)
    (out : ∀ x ∈ linkBytes freelist L, x < n.addr ∨ n.addr + n.sz ≤ x)
    (aligned : n.addr % 0x1000 = 0) (rounded : pgRoundup sz = n.sz) :
    ∃ m', freePages freelist m n.addr sz = .ok m' ∧ Linked m' freelist (putBack n L) ∧
      Frame m m' (freeBytes n.footprint freelist L) := by
  have boundN := fits.bound
  have nonnull := fits.nonnull
  have cellN := fits.cellApart
  let m₁ := store32 (fill m n.addr n.sz 0x69) n.addr n.sz
  have frame₁ : Frame m m₁ (Set.Ico n.addr (n.addr + n.sz) ∪ Set.Ico n.addr (n.addr + 4)) :=
    ((fill_frame m n.addr n.sz 0x69).mono Set.subset_union_left).trans
      ((store32_frame _ n.addr n.sz).mono Set.subset_union_right)
  have size₁ : load32 m₁ n.addr = n.sz := by
    rw [load32_store32_same]
    omega
  have linked₁ : Linked m₁ freelist L := by
    apply linked.frame frame₁
    intro x mem inside
    have extent := out x mem
    simp only [Set.mem_union, Set.mem_Ico] at inside
    rcases mem with ⟨lo, hi⟩ | ⟨b, memB, lo, hi⟩
    · omega
    · have apart := fits.apart b memB
      simp only [Block.HeadsApart] at apart
      omega
  obtain ⟨m', done, linked', frame'⟩ :=
    linkLoop_linked size₁ L freelist walkLimit linked₁ headed fits headed.length_lt
  refine ⟨m', ?_, linked', ?_⟩
  · simp only [freePages, if_neg nonnull, pgRounddown_of_aligned aligned, rounded]
    exact done
  · apply (frame₁.mono ?_).trans (frame'.mono ?_)
    · intro x mem
      simp only [Set.mem_union, Set.mem_Ico] at mem
      exact Or.inr ⟨by simp only [Block.footprint]; omega, by simp only [Block.footprint]; omega⟩
    · intro x mem
      rcases mem with mem | mem
      · exact Or.inl mem
      · simp only [Set.mem_Ico] at mem
        exact Or.inr ⟨mem.1, by simp only [Block.footprint]; omega⟩

theorem freePages_linked {m : Mem} {freelist : Nat} {n : Block} {L : List Block} (sz : Nat)
    (linked : Linked m freelist L) (spaced : Spaced freelist L) (fits : Fits n freelist L)
    (aligned : n.addr % 0x1000 = 0) (rounded : pgRoundup sz = n.sz) :
    ∃ m', freePages freelist m n.addr sz = .ok m' ∧ Linked m' freelist (putBack n L) ∧
      Frame m m' (freeBytes n freelist L) := by
  have boundN := fits.bound
  have nonnull := fits.nonnull
  have cellN := fits.cellApart
  have out : ∀ x ∈ linkBytes freelist L, x < n.addr ∨ n.addr + n.sz ≤ x := by
    intro x mem
    rcases mem with ⟨lo, hi⟩ | ⟨b, memB, lo, hi⟩
    · omega
    · have apart := fits.apart b memB
      have sizeB := spaced.size b memB
      simp only [Block.Apart] at apart
      omega
  have placed := freePages_placed sz linked spaced.headed (fits.head spaced) (by omega) out aligned
    rounded
  rwa [Block.footprint_of_le fits.size] at placed

/-- Disjoint blocks of page-multiple sizes that start at page boundaries, outside the list
head.  A block may be empty; its header then is all it uses. -/
structure PageBlocks (freelist : Nat) (L : List Block) : Prop where
  aligned : ∀ b ∈ L, b.addr % 0x1000 = 0
  whole : ∀ b ∈ L, b.sz % 0x1000 = 0
  spaced : Spaced freelist (L.map Block.footprint)

structure MemListAt (freelist : Nat) (m : Mem) (L : List Block) : Prop
    extends PageBlocks freelist L where
  linked : Linked m freelist L

theorem Linked.nonnull {m : Mem} {b : Block} : ∀ {L : List Block} {cell : Nat},
    Linked m cell L → b ∈ L → b.addr ≠ 0 := by
  intro L
  induction L with
  | nil => intro cell _ mem; simp at mem
  | cons c rest ih =>
      intro cell linked mem
      rcases List.mem_cons.mp mem with rfl | inRest
      · exact linked.2.1
      · exact ih linked.2.2.2.2 inRest

section MemListAt

variable {freelist : Nat} {m : Mem} {L rest : List Block} {b : Block}

theorem PageBlocks.headed (h : PageBlocks freelist L) : Headed freelist L := by
  have headed := h.spaced.headed
  have apart : L.Pairwise fun b c => b.footprint.HeadsApart c.footprint :=
    List.pairwise_map.mp headed.apart
  exact ⟨headed.cellBound, fun b mem => headed.bound b.footprint (List.mem_map_of_mem mem), apart,
    fun b mem => headed.cellApart b.footprint (List.mem_map_of_mem mem)⟩

theorem PageBlocks.bound (h : PageBlocks freelist L) (mem : b ∈ L) :
    b.addr + max 12 b.sz ≤ 0x100000000 :=
  h.spaced.bound b.footprint (List.mem_map_of_mem mem)

theorem PageBlocks.headApart (h : PageBlocks freelist L) (mem : b ∈ L) :
    freelist + 4 ≤ b.addr ∨ b.addr + max 12 b.sz ≤ freelist :=
  h.spaced.cellApart b.footprint (List.mem_map_of_mem mem)

theorem MemListAt.freeBlocks_eq (h : MemListAt freelist m L) : freeBlocks freelist m = .ok L :=
  readList_linked L freelist walkLimit h.linked h.headed.length_lt

theorem MemListAt.pgRoundup_le (h : MemListAt freelist m L) (mem : b ∈ L) {sz : Nat}
    (fits : sz ≤ b.sz) : pgRoundup sz ≤ b.sz := by
  have nonnull := h.linked.nonnull mem
  have bound := h.bound mem
  exact Trunix.pgRoundup_le fits (h.whole b mem) (by omega)

theorem allocPages_none {sz : Nat} (h : MemListAt freelist m L) (none : takeFit sz L = none) :
    allocPages freelist m sz = .ok (0, m) := by
  have walk := findFit_linked sz _ freelist walkLimit h.linked h.headed.length_lt
  rw [none] at walk
  simp only [allocPages, walk]
  rfl

theorem allocPages_linked {sz : Nat} (h : MemListAt freelist m L)
    (taken : takeFit sz L = some (b, rest)) :
    ∃ m', allocPages freelist m sz = .ok (b.addr, m') ∧
      Linked m' freelist (splitRest (pgRoundup sz) b rest) ∧
      Frame m m' (linkBytes freelist L ∪ Set.Ico b.addr (b.addr + b.sz)) := by
  obtain ⟨pre, post, rfl, rfl, fit, _⟩ := takeFit_split taken
  have memB : b ∈ pre ++ b :: post := by simp
  have nonnull := h.linked.nonnull memB
  have boundB := h.bound memB
  have wholeB := h.whole b memB
  have alignedB := h.aligned b memB
  have wholeR := pgRoundup_mod sz
  have walk := findFit_linked sz _ freelist walkLimit h.linked h.headed.length_lt
  rw [taken] at walk
  obtain ⟨linked₁, frame₁⟩ := listRemove_linked h.linked h.headed
  -- the blocks that stay are apart from `b`, so `b`'s header is still readable
  have sub : (pre ++ post).Sublist (pre ++ b :: post) := by simp
  have memSub : ∀ c ∈ pre ++ post, c ∈ pre ++ b :: post := fun c mem => sub.subset mem
  have apartB : ∀ c ∈ pre ++ post, b.footprint.Apart c.footprint := by
    have perm : (pre ++ b :: post).Perm (b :: (pre ++ post)) := List.perm_middle
    have apart := List.pairwise_map.mp h.spaced.apart
    exact (List.pairwise_cons.mp ((perm.pairwise_iff Block.Apart.symm).mp apart)).1
  have headB := h.headApart memB
  have sizeKept : load32 (listRemove m b.addr) b.addr = b.sz := by
    rw [frame₁.load32_eq, h.linked.size_eq memB]
    intro x lo hi mem
    rcases mem with ⟨lo', hi'⟩ | ⟨c, memC, lo', hi'⟩
    · omega
    · have apart := apartB c memC
      simp only [Block.Apart, Block.footprint] at apart
      omega
  have frame₁' : Frame m (listRemove m b.addr)
      (linkBytes freelist (pre ++ b :: post) ∪ Set.Ico b.addr (b.addr + b.sz)) := by
    apply frame₁.mono
    intro x mem
    rcases mem with cell | ⟨c, memC, inside⟩
    · exact Or.inl (Or.inl cell)
    · exact Or.inl (Or.inr ⟨c, memSub c memC, inside⟩)
  by_cases split : pgRoundup sz < b.sz
  · -- what is left is at least a page, so its header lies inside `b`
    have room : pgRoundup sz + 0x1000 ≤ b.sz := by omega
    have fits : HeadFits (b.rest (pgRoundup sz)) freelist (pre ++ post) := by
      refine ⟨?_, ?_, fun c mem => ?_, ?_⟩
      · simp only [Block.rest]
        omega
      · simp only [Block.rest]
        omega
      · have apart := apartB c mem
        simp only [Block.Apart, Block.footprint] at apart
        simp only [Block.HeadsApart, Block.rest]
        omega
      · simp only [Block.rest]
        omega
    have out : ∀ x ∈ linkBytes freelist (pre ++ post),
        x < (b.rest (pgRoundup sz)).addr ∨
          (b.rest (pgRoundup sz)).addr + (b.rest (pgRoundup sz)).sz ≤ x := by
      intro x mem
      simp only [Block.rest]
      rcases mem with ⟨lo, hi⟩ | ⟨c, memC, lo, hi⟩
      · omega
      · have apart := apartB c memC
        simp only [Block.Apart, Block.footprint] at apart
        omega
    have wholeRest : (b.sz - pgRoundup sz) % 0x1000 = 0 := by omega
    have alignedRest : (b.rest (pgRoundup sz)).addr % 0x1000 = 0 := by
      simp only [Block.rest]
      omega
    obtain ⟨m', done, linked', frame'⟩ := freePages_placed (b.sz - pgRoundup sz) linked₁
      (h.headed.sublist sub) fits (by simp only [Block.rest]; omega) out alignedRest
      (pgRoundup_of_aligned wholeRest)
    refine ⟨m', ?_, ?_, frame₁'.trans (frame'.mono ?_)⟩
    · have wrap : u32 (b.addr + pgRoundup sz) = (b.rest (pgRoundup sz)).addr :=
        u32_of_lt (by omega)
      simp only [allocPages, walk, ok_bind, if_neg nonnull, sizeKept, if_pos split,
        wrap, done]
      rfl
    · rw [splitRest, if_pos split]
      exact linked'
    · intro x mem
      rcases mem with (cell | ⟨c, memC, inside⟩) | mem
      · exact Or.inl (Or.inl cell)
      · exact Or.inl (Or.inr ⟨c, memSub c memC, inside⟩)
      · simp only [Set.mem_Ico, Block.footprint, Block.rest] at mem
        exact Or.inr ⟨by omega, by omega⟩
  · refine ⟨listRemove m b.addr, ?_, ?_, frame₁'⟩
    · simp only [allocPages, walk, ok_bind, if_neg nonnull, sizeKept, if_neg split]
      rfl
    · rw [splitRest, if_neg split]
      exact linked₁

end MemListAt

/-- `freelist` heads the list of the disjoint page blocks `L`, none of which
contains the head itself. -/
structure FreeListAt (freelist : Nat) (m : Mem) (L : List Block) : Prop where
  linked : Linked m freelist L
  paged : ∀ b ∈ L, b.Paged
  apart : L.Pairwise Block.Apart
  headBound : freelist + 4 ≤ 0x100000000
  headApart : ∀ b ∈ L, freelist + 4 ≤ b.addr ∨ b.addr + b.sz ≤ freelist

theorem FreeListAt.spaced {freelist : Nat} {m : Mem} {L : List Block}
    (h : FreeListAt freelist m L) : Spaced freelist L := by
  refine ⟨h.headBound, fun b mem => ?_, fun b mem => (h.paged b mem).bound, h.apart, h.headApart⟩
  have whole := (h.paged b mem).whole
  have nonempty := (h.paged b mem).nonempty
  omega

theorem FreeListAt.memList {freelist : Nat} {m : Mem} {L : List Block}
    (h : FreeListAt freelist m L) : MemListAt freelist m L := by
  have same : L.map Block.footprint = L := by
    rw [List.map_congr_left fun b mem => Block.footprint_of_le (h.spaced.size b mem), List.map_id']
  refine ⟨⟨fun b mem => Nat.mod_eq_zero_of_dvd (h.paged b mem).aligned,
    fun b mem => Nat.mod_eq_zero_of_dvd (h.paged b mem).whole, ?_⟩, h.linked⟩
  rw [same]
  exact h.spaced

theorem FreeListAt.freeBlocks_eq {freelist : Nat} {m : Mem} {L : List Block}
    (h : FreeListAt freelist m L) : freeBlocks freelist m = .ok L :=
  h.memList.freeBlocks_eq

/-- A free list of one page and of three, headed at `0x80480000`. -/
def twoBlocks : Mem :=
  store32 (store32 (store32 (store32 (store32 (store32 (store32 (fun _ => 0)
    0x80480000 0x80003000) 0x80003000 0x1000) 0x80003004 0x80005000) 0x80003008 0x80480000)
    0x80005000 0x3000) 0x80005004 0) 0x80005008 0x80003004

theorem twoBlocks_list :
    FreeListAt 0x80480000 twoBlocks [⟨0x80003000, 0x1000⟩, ⟨0x80005000, 0x3000⟩] := by
  refine ⟨by decide +kernel, ?_, ?_, by decide, by decide⟩
  · intro b mem
    simp only [List.mem_cons, List.not_mem_nil, or_false] at mem
    rcases mem with rfl | rfl
    · constructor <;> decide
    · constructor <;> decide
  · rw [List.pairwise_pair]
    exact Or.inl (by decide)

end Trunix
