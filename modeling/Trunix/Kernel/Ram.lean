import Trunix.Lib.Programs
import Trunix.Kernel.Store
import Trunix.Kernel.Move
import Mathlib

/-!
# The store on real memory

What the kernel does to memory as calls of an interface: it takes pages and heap blocks,
and loads, stores, clears and moves bytes.  One server is the store, which keeps the free
lists as lists of blocks; the other one has nothing but the bytes of memory, with the free
lists in the headers of the blocks.  Memory that was handed out has any content until it is
written, so the store is also given the set of the bytes that a program may read.
-/

set_option autoImplicit false

namespace Trunix

open Trunix.Lib

inductive MemOp where
  | allocPages (sz : Nat)
  | kmalloc (sz : Nat)
  | load (a : Nat)
  | store (a v : Nat)
  | memset (a : Nat) (b : UInt8) (n : Nat)
  | memmove (dst src n : Nat)
  /-- an access to an object of the kernel in the heap -/
  | touch (a n : Nat)

def MemOp.Answer : MemOp → Type
  | .allocPages _ | .kmalloc _ | .load _ => Nat
  | _ => Unit

def MemOp.writes : MemOp → Set Nat
  | .store a _ => Set.Ico a (a + 4)
  | .memset a _ n => Set.Ico a (a + n)
  | .memmove dst _ n => Set.Ico dst (dst + n)
  | _ => ∅

def Store.serve : Server MemOp MemOp.Answer Store Halt
  | .allocPages sz, s => .ok (s.allocPages sz)
  | .kmalloc sz, s => s.kmalloc sz
  | .load a, s => .ok (load32 s.mem a, s)
  | .store a v, s => .ok ((), { s with mem := store32 s.mem a v })
  | .memset a b n, s => (s.memset a b n).map ((), ·)
  | .memmove dst src n, s => (s.memmove dst (fun i => s.mem (src + i)) n).map ((), ·)
  | .touch a n, s => (Trunix.touch a n).map fun _ => ((), s)

def ramServe (freelist heap : Nat) : Server MemOp MemOp.Answer Mem Halt
  | .allocPages sz, m => Trunix.allocPages freelist m sz
  | .kmalloc sz, m => Trunix.kmalloc heap m sz
  | .load a, m => .ok (load32 m a, m)
  | .store a v, m => .ok ((), store32 m a v)
  | .memset a b n, m => (Trunix.touch a n).map fun _ => ((), fill m a n b)
  | .memmove dst src n, m => (Trunix.touch dst n).map fun _ => ((), blit m dst n fun i => m (src + i))
  | .touch a n, m => (Trunix.touch a n).map fun _ => ((), m)

/-- Between ranges that do not overlap the copy is the one that `memmove` of `string.S` makes. -/
theorem ramServe_memmove {freelist heap dst src n : Nat} {m : Mem} (boundD : dst < 4294967296)
    (boundS : src < 4294967296) (fitsD : dst + n ≤ 4294967296) (fitsS : src + n ≤ 4294967296)
    (apart : dst + n ≤ src ∨ src + n ≤ dst) :
    ramServe freelist heap (.memmove dst src n) m = (Trunix.touch dst n).map fun _ =>
      ((), Trunix.memmove m (.ofNat dst) (.ofNat src) (.ofNat n)) := by
  have toD : (UInt32.ofNat dst).toNat = dst := UInt32.toNat_ofNat_of_lt' boundD
  have toS : (UInt32.ofNat src).toNat = src := UInt32.toNat_ofNat_of_lt' boundS
  have toN : (UInt32.ofNat n).toNat = n := UInt32.toNat_ofNat_of_lt' (show n < 4294967296 by omega)
  have far : (UInt32.ofNat n).toNat ≤ distance (.ofNat dst) (.ofNat src) := by
    rw [distance, toD, toS, toN]
    omega
  rw [memmove_blit (by rwa [toD, toN]) (by rwa [toS, toN]) far, toD, toS, toN]
  rfl

structure Seen where
  store : Store
  seen : Set Nat

def Seen.serve : Server MemOp MemOp.Answer Seen Halt := fun i s =>
  (Store.serve i s.store).map fun r => (r.1, ⟨r.2, s.seen ∪ i.writes⟩)

/-- Where the allocators keep their data: the two list heads and the heap are apart from each
other and from the pages that are free at first. -/
structure RamLayout (freelist heap base : Nat) (init : List Block) : Prop where
  place : HeapPlace heap base
  freeBound : freelist + 4 ≤ 0x100000000
  freeHeap : freelist + 4 ≤ heap ∨ heap + 4 ≤ freelist
  freeBase : freelist + 4 ≤ base ∨ base + 0x10000 ≤ freelist
  freeApart : ∀ c ∈ init, freelist + 4 ≤ c.addr ∨ c.addr + c.sz ≤ freelist
  heapApart : ∀ c ∈ init, heap + 4 ≤ c.addr ∨ c.addr + c.sz ≤ heap
  baseApart : ∀ c ∈ init, base + 0x10000 ≤ c.addr ∨ c.addr + c.sz ≤ base

def Store.hidden (freelist heap base : Nat) (s : Store) : Set Nat :=
  { x | (freelist ≤ x ∧ x < freelist + 4) ∨ (heap ≤ x ∧ x < heap + 4) ∨
    (base ≤ x ∧ x < base + 0x10000) ∨ ∃ b ∈ s.free, b.addr ≤ x ∧ x < b.addr + b.sz }

/-- The memory holds the store: its headers are the lists of the store, and the bytes that
were written are those of the store. -/
structure HoldsStore (freelist heap base : Nat) (init : List Block) (m : Mem) (s : Seen) : Prop where
  sound : s.store.Sound init
  linked : Linked m freelist s.store.free
  chained : ∃ live, HeapArena.Sound heap base ⟨m, live⟩ s.store.heap
  same : ∀ x ∈ s.seen, m x = s.store.mem x
  visible : ∀ x ∈ s.seen, x ∉ s.store.hidden freelist heap base

/-- A program reads what was written, and keeps off the bytes of the allocators. -/
def MemOp.Allowed (freelist heap base : Nat) (s : Seen) : MemOp → Prop
  | .allocPages _ => True
  | .kmalloc sz => sz ≤ 0xFFFFFFF6
  | .load a => ∀ x, a ≤ x → x < a + 4 → x ∈ s.seen
  | .store a _ => ∀ x, a ≤ x → x < a + 4 → x ∉ s.store.hidden freelist heap base
  | .memset a _ n => 0x1000 ≤ a → ∀ x, a ≤ x → x < a + n → x ∉ s.store.hidden freelist heap base
  | .memmove dst src n => 0x1000 ≤ dst → (∀ x, src ≤ x → x < src + n → x ∈ s.seen) ∧
      ∀ x, dst ≤ x → x < dst + n → x ∉ s.store.hidden freelist heap base
  | .touch _ _ => True

/-! ## One call -/

theorem HeapArena.Sound.of_frame {heap base : Nat} {m m' : Mem} {live F : List Block} {W : Set Nat}
    (h : HeapArena.Sound heap base ⟨m, live⟩ F) (frame : Frame m m' W)
    (avoid : ∀ x ∈ W, ¬ (heap ≤ x ∧ x < heap + 4) ∧ ¬ (base ≤ x ∧ x < base + 0x10000)) :
    HeapArena.Sound heap base ⟨m', live⟩ F := by
  have inside : ∀ b ∈ F ++ live, base ≤ b.addr ∧ b.addr + b.sz ≤ base + 0x10000 := fun b mem =>
    h.tidy.inside_one mem
  refine ⟨{ h.list with chained := h.list.chained.frame frame ?_ }, h.tidy, h.full, fun b mem => ?_⟩
  · rintro x (⟨lo, hi⟩ | ⟨b, mem, lo, hi⟩) written
    · exact (avoid x written).1 ⟨lo, hi⟩
    · have place := inside b (List.mem_append_left _ mem)
      have sizes := h.list.sizes b mem
      exact (avoid x written).2 (by omega)
  · rw [← h.headers b mem]
    apply frame.loadLE_eq
    intro x lo hi written
    have place := inside b (List.mem_append_right _ mem)
    have grained := h.tidy.grained b (List.mem_append_right _ mem)
    have nonempty := grained.nonempty
    have whole := grained.whole
    exact (avoid x written).2 (by omega)

section HoldsStore

variable {freelist heap base : Nat} {init : List Block} (layout : RamLayout freelist heap base init)
  {m : Mem} {s : Seen}

theorem HoldsStore.free_inside (h : HoldsStore freelist heap base init m s) {b : Block}
    (mem : b ∈ s.store.free) :
    b.Paged ∧ ∃ c ∈ init, b.Inside c :=
  ⟨h.sound.tidy.grained b (List.mem_append_left _ mem), h.sound.tidy.inside b (List.mem_append_left _ mem)⟩

theorem HoldsStore.linkBytes_hidden (h : HoldsStore freelist heap base init m s) :
    ∀ x ∈ linkBytes freelist s.store.free, x ∈ s.store.hidden freelist heap base := by
  rintro x (cell | ⟨b, mem, lo, hi⟩)
  · exact .inl cell
  · have paged := (h.free_inside mem).1
    have nonempty := paged.nonempty
    have whole := paged.whole
    exact .inr (.inr (.inr ⟨b, mem, by omega, by omega⟩))

theorem HoldsStore.write (h : HoldsStore freelist heap base init m s) {m' mem' : Mem} {W : Set Nat}
    (frame : Frame m m' W) (frame' : Frame s.store.mem mem' W) (same : ∀ x ∈ W, m' x = mem' x)
    (clear : ∀ x ∈ W, x ∉ s.store.hidden freelist heap base) :
    HoldsStore freelist heap base init m' ⟨{ s.store with mem := mem' }, s.seen ∪ W⟩ := by
  obtain ⟨live, heapSound⟩ := h.chained
  refine ⟨h.sound.write rfl rfl, ?_, ⟨live, heapSound.of_frame frame fun x mem => ?_⟩, ?_, ?_⟩
  · exact h.linked.frame frame fun x inList written => clear x written (h.linkBytes_hidden x inList)
  · exact ⟨fun cell => clear x mem (.inr (.inl cell)), fun inHeap => clear x mem (.inr (.inr (.inl inHeap)))⟩
  · intro x mem
    by_cases written : x ∈ W
    · exact same x written
    · change m' x = mem' x
      rw [frame x written, frame' x written]
      exact h.same x (mem.resolve_right written)
  · rintro x (old | new)
    · exact h.visible x old
    · exact clear x new

include layout

theorem HoldsStore.allocPages (h : HoldsStore freelist heap base init m s) (sz : Nat) :
    Agree (HoldsStore freelist heap base init) (Trunix.allocPages freelist m sz)
      (Seen.serve (.allocPages sz) s) := by
  have list : FreeListAt freelist m s.store.free :=
    freeListAt_of_tidy h.linked h.sound.tidy layout.freeBound layout.freeApart
  have sound : (s.store.allocPages sz).2.Sound init := by
    have alloc := h.sound.alloc sz
    generalize s.store.allocPages sz = result at alloc
    cases alloc with
    | none small => exact h.sound
    | zero a free nothing nonnull sound => exact sound
    | some a free pos fits sound => exact sound
  cases taken : takeFit sz s.store.free with
  | none =>
      have nothing : s.store.allocPages sz = (0, s.store) := by simp only [Store.allocPages, taken]
      rw [allocPages_none list.memList taken]
      simp only [Seen.serve, Store.serve, nothing]
      change Agree _ (.ok (0, m)) (.ok (0, (⟨s.store, s.seen ∪ ∅⟩ : Seen)))
      rw [Set.union_empty]
      exact .ok h
  | some found =>
      obtain ⟨b, rest⟩ := found
      obtain ⟨m', done, linked, frame⟩ := allocPages_linked list.memList taken
      have memB : b ∈ s.store.free := (takeFit_perm taken).mem_iff.mpr List.mem_cons_self
      have answer : s.store.allocPages sz = (b.addr, (s.store.allocPages sz).2) := by
        simp only [Store.allocPages, taken]
      have free : (s.store.allocPages sz).2.free = splitRest (pgRoundup sz) b rest := by
        simp only [Store.allocPages, taken]
      have kept := Store.allocPages_mem s.store sz
      -- the call writes to no byte that was visible
      have written : ∀ x ∈ linkBytes freelist s.store.free ∪ Set.Ico b.addr (b.addr + b.sz),
          x ∈ s.store.hidden freelist heap base := by
        rintro x (link | inside)
        · exact h.linkBytes_hidden x link
        · exact .inr (.inr (.inr ⟨b, memB, inside.1, inside.2⟩))
      have smaller : ∀ x ∈ (s.store.allocPages sz).2.hidden freelist heap base,
          x ∈ s.store.hidden freelist heap base := by
        rintro x (cell | cell | inHeap | ⟨c, mem, lo, hi⟩)
        · exact .inl cell
        · exact .inr (.inl cell)
        · exact .inr (.inr (.inl inHeap))
        · rw [free, splitRest] at mem
          have rests : ∀ c ∈ rest, c ∈ s.store.free := fun c mem =>
            (takeFit_perm taken).mem_iff.mpr (List.mem_cons_of_mem b mem)
          split at mem
          · rename_i lt
            rcases mem_putBack mem with rfl | inRest
            · simp only [Block.rest] at lo hi
              exact .inr (.inr (.inr ⟨b, memB, by omega, by omega⟩))
            · exact .inr (.inr (.inr ⟨c, rests c inRest, lo, hi⟩))
          · exact .inr (.inr (.inr ⟨c, rests c mem, lo, hi⟩))
      obtain ⟨live, heapSound⟩ := h.chained
      have heapKept : HeapArena.Sound heap base ⟨m', live⟩ s.store.heap := by
        apply heapSound.of_frame frame
        rintro x ((⟨lo, hi⟩ | ⟨c, mem, lo, hi⟩) | ⟨lo, hi⟩)
        · have cells := layout.freeHeap
          have heaps := layout.freeBase
          omega
        · obtain ⟨paged, d, memD, inside⟩ := h.free_inside mem
          have nonempty := paged.nonempty
          have whole := paged.whole
          have cells := layout.heapApart d memD
          have heaps := layout.baseApart d memD
          simp only [Block.Inside] at inside
          omega
        · obtain ⟨paged, d, memD, inside⟩ := h.free_inside memB
          have cells := layout.heapApart d memD
          have heaps := layout.baseApart d memD
          simp only [Block.Inside] at inside
          omega
      rw [done]
      simp only [Seen.serve, Store.serve]
      rw [answer]
      refine .ok ⟨sound, ?_, ⟨live, ?_⟩, fun x mem => ?_, fun x mem => ?_⟩
      · rw [free]
        exact linked
      · rw [kept.2]
        exact heapKept
      · have old : x ∈ s.seen := mem.resolve_right (Set.notMem_empty x)
        rw [frame x fun out => h.visible x old (written x out), kept.1]
        exact h.same x old
      · have old : x ∈ s.seen := mem.resolve_right (Set.notMem_empty x)
        exact fun hidden => h.visible x old (smaller x hidden)

theorem HoldsStore.kmalloc (h : HoldsStore freelist heap base init m s) {sz : Nat} (small : sz ≤ 0xFFFFFFF6) :
    Agree (HoldsStore freelist heap base init) (Trunix.kmalloc heap m sz) (Seen.serve (.kmalloc sz) s) := by
  obtain ⟨live, heapSound⟩ := h.chained
  by_cases below : kmallocSize sz < 0x1000
  · have fits : sz ≤ 4086 := by
      have size := below
      rw [kmallocSize, u32_of_lt (by omega)] at size
      simp only [roundup, u32] at size
      split at size <;> omega
    have passed : ¬ ¬ kmallocSize sz < 0x1000 := not_not.mpr below
    rcases cutFit_eq (n := kmallocSize sz) s.store.heap with
      ⟨none, none'⟩ | ⟨pre, b, post, split, fit, first, cut⟩
    · rw [kmalloc_none heapSound.list fits none']
      simp only [Seen.serve, Store.serve, Store.kmalloc, if_neg passed, none]
      change Agree _ (.ok (0, m)) (.ok (0, (⟨s.store, s.seen ∪ ∅⟩ : Seen)))
      rw [Set.union_empty]
      exact .ok h
    · have memB : b ∈ s.store.heap := by
        rw [split]
        exact List.mem_append_right _ List.mem_cons_self
      have bound := heapSound.list.bound b memB
      have sizes := heapSound.list.sizes b memB
      have inside := heapSound.tidy.inside_one (List.mem_append_left live memB)
      have heapSound' : HeapArena.Sound heap base ⟨m, live⟩ (pre ++ b :: post) := split ▸ heapSound
      obtain ⟨m', done, sound'⟩ := HeapArena.kmalloc_taken layout.place heapSound' fits fit first
      obtain ⟨m'', done', _, _, frame⟩ := kmalloc_chained heapSound'.list fits fit first
      have sameMem : m'' = m' := by
        rw [done] at done'
        exact (Prod.mk.inj (Except.ok.inj done')).2.symm
      subst sameMem
      have answer : u32 (b.addr + 2) = b.addr + 2 := u32_of_lt (by omega)
      -- the call writes to the list head and to the heap
      have written : ∀ x ∈ chainBytes heap (pre ++ b :: post) ∪ Set.Ico b.addr (b.addr + b.sz),
          (heap ≤ x ∧ x < heap + 4) ∨ (base ≤ x ∧ x < base + 0x10000) := by
        rintro x ((cell | ⟨c, mem, lo, hi⟩) | ⟨lo, hi⟩)
        · exact .inl cell
        · have place := heapSound'.tidy.inside_one (List.mem_append_left live mem)
          have sizesC := heapSound'.list.sizes c mem
          exact .inr (by omega)
        · exact .inr (by omega)
      rw [done]
      simp only [Seen.serve, Store.serve, Store.kmalloc, if_neg passed, cut, answer]
      refine .ok ⟨h.sound.write rfl rfl, ?_, ⟨_, sound'⟩, fun x mem => ?_, fun x mem => ?_⟩
      · apply h.linked.frame frame
        intro x inList out
        have cells := layout.freeHeap
        have heaps := layout.freeBase
        rcases inList with ⟨lo, hi⟩ | ⟨c, memC, lo, hi⟩
        · rcases written x out with cell | inHeap
          · omega
          · omega
        · obtain ⟨paged, d, memD, insideC⟩ := h.free_inside memC
          have nonempty := paged.nonempty
          have whole := paged.whole
          have cells := layout.heapApart d memD
          have heaps := layout.baseApart d memD
          simp only [Block.Inside] at insideC
          rcases written x out with cell | inHeap
          · omega
          · omega
      · have old : x ∈ s.seen := mem.resolve_right (Set.notMem_empty x)
        have clear := h.visible x old
        have kept : m'' x = m x := by
          apply frame x
          intro out
          rcases written x out with cell | inHeap
          · exact clear (.inr (.inl cell))
          · exact clear (.inr (.inr (.inl inHeap)))
        rw [kept]
        exact h.same x old
      · exact h.visible x (mem.resolve_right (Set.notMem_empty x))
  · have stopped : Trunix.kmalloc heap m sz = .error .assertion := by
      simp only [Trunix.kmalloc, if_pos below]
    rw [stopped]
    simp only [Seen.serve, Store.serve, Store.kmalloc, if_pos below]
    exact .error _

/-- Memory with the allocators of the code is as good as the store. -/
theorem ram_simulates : Simulates Seen.serve (ramServe freelist heap) (MemOp.Allowed freelist heap base)
    (HoldsStore freelist heap base init) := by
  intro i m s h allowed
  cases i with
  | allocPages sz => exact h.allocPages layout sz
  | kmalloc sz => exact h.kmalloc layout allowed
  | load a =>
      have same : load32 m a = load32 s.store.mem a :=
        load32_congr fun x lo hi => h.same x (allowed x lo hi)
      simp only [ramServe, Seen.serve, Store.serve, same]
      change Agree _ (.ok (_, m)) (.ok (_, (⟨s.store, s.seen ∪ ∅⟩ : Seen)))
      rw [Set.union_empty]
      exact .ok h
  | store a v =>
      refine .ok (h.write (store32_frame m a v) (store32_frame s.store.mem a v) ?_ ?_)
      · intro x inside
        have range : a ≤ x ∧ x < a + 4 := inside
        unfold store32 storeLE
        rw [if_pos range, if_pos range]
      · exact fun x inside => allowed x inside.1 inside.2
  | memset a b n =>
      simp only [ramServe, Seen.serve, Store.serve, Store.memset]
      cases mapped : Trunix.touch a n with
      | error e => exact .error e
      | ok u =>
          have low := touch_eq_ok mapped
          refine .ok (h.write (fill_frame m a n b) (fill_frame s.store.mem a n b) ?_ ?_)
          · intro x inside
            have range : a ≤ x ∧ x < a + n := inside
            unfold fill
            rw [if_pos range, if_pos range]
          · intro x inside
            have range : a ≤ x ∧ x < a + n := inside
            exact allowed (by omega) x range.1 range.2
  | memmove dst src n =>
      simp only [ramServe, Seen.serve, Store.serve, Store.memmove]
      cases mapped : Trunix.touch dst n with
      | error e => exact .error e
      | ok u =>
          have low := touch_eq_ok mapped
          refine .ok (h.write (blit_frame m dst n _) (blit_frame s.store.mem dst n _) ?_ ?_)
          · intro x inside
            have range : dst ≤ x ∧ x < dst + n := inside
            have offset : x - dst < n := by omega
            unfold blit
            rw [if_pos range, if_pos range]
            exact h.same _ ((allowed (by omega)).1 _ (Nat.le_add_right _ _) (Nat.add_lt_add_left offset _))
          · intro x inside
            have range : dst ≤ x ∧ x < dst + n := inside
            exact (allowed (by omega)).2 x range.1 range.2
  | touch a n =>
      simp only [ramServe, Seen.serve, Store.serve]
      cases Trunix.touch a n with
      | error e => exact .error e
      | ok u =>
          change Agree _ (.ok ((), m)) (.ok ((), (⟨s.store, s.seen ∪ ∅⟩ : Seen)))
          rw [Set.union_empty]
          exact .ok h

end HoldsStore

end Trunix
