import Trunix.Boot.Memmap
import Trunix.Mem.PagesRun
import Trunix.Mem.Heap

/-!
# `init_mem` and where allocations lie in physical memory

`init_mem` of `kernel/mem.c` links one block for every available entry of the boot map
into the free list, at `p2v` of the entry's address, and takes the kernel heap out of it.
`p2v` sets the top bit, so only an entry that lies below 2 GiB gets a block whose
addresses `v2p` takes back into the entry.
-/

set_option autoImplicit false

namespace Trunix

open Trunix.Lib

def listInsertHead (m : Mem) (head elm : Nat) : Mem :=
  let m := store32 m (elm + 4) (load32 m head)
  let m := if leNext m elm ≠ 0 then store32 m (load32 m head + 8) (elm + 4) else m
  let m := store32 m head elm
  store32 m (elm + 8) head

/-- `LIST_FOREACH_SAFE` of `init_mem`: the node behind which the new one goes. -/
def placeLoop (m : Mem) (p : Nat) : Nat → Nat → Except Halt Nat
  | 0, _ => .error .loops
  | fuel + 1, n =>
      let tmp := leNext m n
      if load32 m p < load32 m n ∨ tmp = 0 then .ok n else placeLoop m p fuel tmp

/-- The body of the loop of `init_mem`. -/
def initEntry (freelist : Nat) (m : Mem) (e : MultibootMmapEntry) : Except Halt Mem := do
  if e.type ≠ multibootMemoryAvailable then return m
  else
    let p := p2v (u32 e.addr)
    let m := store32 m p (u32 e.len)
    if load32 m freelist = 0 then return listInsertHead m freelist p
    else
      let n ← placeLoop m p walkLimit (load32 m freelist)
      return listInsertAfter m n p

def initLoop (freelist : Nat) : Mem → List MultibootMmapEntry → Except Halt Mem
  | m, [] => .ok m
  | m, e :: rest => do
      let m ← initEntry freelist m e
      initLoop freelist m rest

def Kinfo.entries (k : Kinfo) : List MultibootMmapEntry :=
  ((List.finRange maxmemmap).take k.mmapN).map k.memmap

/-- The address of the kernel heap comes back with the memory. -/
def initMem (freelist heap : Nat) (m : Mem) (k : Kinfo) : Except Halt (Nat × Mem) := do
  let m := store32 m freelist 0
  let m ← initLoop freelist m k.entries
  let (sb, m) ← allocPages freelist m 0x10000
  if sb = 0 then .error .fault
  else return (sb, initHeap heap m sb)

/-! ## The list that the loop builds -/

/-- How `init_mem` adds a block: behind the first larger one, or last. -/
def putAfter (n : Block) : List Block → List Block
  | [] => [n]
  | [b] => [b, n]
  | b :: c :: rest => if n.sz < b.sz then b :: n :: c :: rest else b :: putAfter n (c :: rest)

theorem putAfter_perm (n : Block) : ∀ L : List Block, (putAfter n L).Perm (n :: L) := by
  intro L
  induction L with
  | nil => exact List.Perm.refl _
  | cons b rest ih =>
      cases rest with
      | nil => exact List.Perm.swap n b []
      | cons c rest =>
          by_cases larger : n.sz < b.sz
          · simp only [putAfter, if_pos larger]
            exact List.Perm.swap n b (c :: rest)
          · simp only [putAfter, if_neg larger]
            exact (ih.cons b).trans (List.Perm.swap n b (c :: rest))

theorem listInsertHead_linked {m : Mem} {cell : Nat} {n : Block} (linked : Linked m cell [])
    (headed : Headed cell []) (fits : HeadFits n cell []) (size : load32 m n.addr = n.sz) :
    Linked (listInsertHead m cell n.addr) cell [n] := by
  have first : load32 m cell = 0 := linked
  have cellN := fits.cellApart
  have boundN := fits.bound
  have cellBound := headed.cellBound
  have written : listInsertHead m cell n.addr =
      store32 (store32 (store32 m (n.addr + 4) 0) cell n.addr) (n.addr + 8) cell := by
    simp [listInsertHead, first, leNext]
  rw [written]
  refine ⟨?_, fits.nonnull, ?_, ?_, ?_⟩
  · rw [load32_store32_of_apart _ (by omega), load32_store32_same]
    omega
  · rw [load32_store32_of_apart _ (by omega), load32_store32_of_apart _ (by omega),
      load32_store32_of_apart _ (by omega), size]
  · rw [lePrev, load32_store32_same]
    omega
  · rw [Linked, load32_store32_of_apart _ (by omega), load32_store32_of_apart _ (by omega),
      load32_store32_same]

theorem placeLoop_linked {m : Mem} {n : Block} (size : load32 m n.addr = n.sz) :
    ∀ (L : List Block) (cell fuel : Nat), L ≠ [] → Linked m cell L → Headed cell L →
      HeadFits n cell L → L.length < fuel →
      ∃ p, placeLoop m n.addr fuel (load32 m cell) = .ok p ∧
        Linked (listInsertAfter m p n.addr) cell (putAfter n L) ∧
        Frame m (listInsertAfter m p n.addr) (insertBytes n.addr cell L) := by
  intro L
  induction L with
  | nil =>
      intro cell fuel nonempty
      exact absurd rfl nonempty
  | cons b rest ih =>
      intro cell fuel _ linked headed fits enough
      have parts := linked
      obtain ⟨first, nonnull, sizeB, _, restLinked⟩ := parts
      obtain ⟨linkedAfter, frameAfter⟩ := listInsertAfter_linked linked headed fits size
      cases fuel with
      | zero => simp at enough
      | succ fuel =>
          simp only [placeLoop, first, size, sizeB]
          cases rest with
          | nil =>
              have last : leNext m b.addr = 0 := restLinked
              rw [if_pos (Or.inr last)]
              exact ⟨b.addr, rfl, linkedAfter, frameAfter⟩
          | cons c rest =>
              by_cases larger : n.sz < b.sz
              · rw [if_pos (Or.inl larger)]
                refine ⟨b.addr, rfl, ?_, frameAfter⟩
                simp only [putAfter, if_pos larger]
                exact linkedAfter
              · have next : leNext m b.addr = c.addr := restLinked.1
                have more : ¬ (n.sz < b.sz ∨ leNext m b.addr = 0) := by
                  rw [next]
                  rintro (fits | null)
                  · exact larger fits
                  · exact restLinked.2.1 null
                rw [if_neg more]
                obtain ⟨p, found, linked', frame⟩ := ih (b.addr + 4) fuel (by simp) restLinked
                  headed.tail fits.tail (by simp at enough ⊢; omega)
                obtain ⟨keeps, frame'⟩ := insert_behind linked headed fits frame
                refine ⟨p, found, ?_, frame'⟩
                simp only [putAfter, if_neg larger]
                exact keeps _ linked'

def MultibootMmapEntry.block (e : MultibootMmapEntry) : Block := ⟨p2v (u32 e.addr), u32 e.len⟩

def bootBlocks (entries : List MultibootMmapEntry) : List Block :=
  (entries.filter fun e => e.type = multibootMemoryAvailable).map MultibootMmapEntry.block

theorem initEntry_linked {freelist : Nat} {m : Mem} {e : MultibootMmapEntry} {L : List Block}
    (available : e.type = multibootMemoryAvailable) (linked : Linked m freelist L)
    (headed : Headed freelist L) (fits : HeadFits e.block freelist L) :
    ∃ m', initEntry freelist m e = .ok m' ∧ Linked m' freelist (putAfter e.block L) := by
  let m₁ := store32 m e.block.addr e.block.sz
  have cellE := fits.cellApart
  have size₁ : load32 m₁ e.block.addr = e.block.sz := by
    rw [load32_store32_same]
    exact u32_of_lt (u32_lt _)
  have linked₁ : Linked m₁ freelist L := by
    apply linked.frame (store32_frame m _ _)
    intro x mem inside
    simp only [Set.mem_Ico] at inside
    rcases mem with ⟨lo, hi⟩ | ⟨b, memB, lo, hi⟩
    · omega
    · have apart := fits.apart b memB
      simp only [Block.HeadsApart] at apart
      omega
  have unfolded : initEntry freelist m e =
      if load32 m₁ freelist = 0 then pure (listInsertHead m₁ freelist e.block.addr)
      else placeLoop m₁ e.block.addr walkLimit (load32 m₁ freelist) >>= fun n =>
        pure (listInsertAfter m₁ n e.block.addr) := by
    rw [initEntry, if_neg (fun ne => ne available)]
    rfl
  cases L with
  | nil =>
      have first : load32 m₁ freelist = 0 := linked₁
      rw [if_pos first] at unfolded
      exact ⟨_, unfolded, listInsertHead_linked linked₁ headed fits size₁⟩
  | cons b rest =>
      have first : load32 m₁ freelist ≠ 0 := by
        rw [linked₁.1]
        exact linked₁.2.1
      obtain ⟨p, found, linked', _⟩ := placeLoop_linked size₁ (b :: rest) freelist walkLimit
        (by simp) linked₁ headed fits headed.length_lt
      rw [if_neg first, found, ok_bind] at unfolded
      exact ⟨_, unfolded, linked'⟩

def placeAll (L blocks : List Block) : List Block := blocks.foldl (fun L n => putAfter n L) L

theorem placeAll_perm : ∀ blocks L : List Block, (placeAll L blocks).Perm (L ++ blocks) := by
  intro blocks
  induction blocks with
  | nil =>
      intro L
      rw [List.append_nil]
      exact List.Perm.refl L
  | cons b rest ih =>
      intro L
      have placed := (ih (putAfter b L)).trans ((putAfter_perm b L).append_right rest)
      exact placed.trans List.perm_middle.symm

theorem MultibootMmapEntry.block_nonnull (e : MultibootMmapEntry) : e.block.addr ≠ 0 := by
  have high : kernelOffset ≤ p2v (u32 e.addr) := Nat.right_le_or
  exact Nat.ne_of_gt (Nat.lt_of_lt_of_le (by decide) high)

theorem Headed.perm {cell : Nat} {L L' : List Block} (h : Headed cell L) (perm : L.Perm L') :
    Headed cell L' :=
  ⟨h.cellBound, fun b mem => h.bound b (perm.mem_iff.mpr mem),
    (perm.pairwise_iff Block.HeadsApart.symm).mp h.apart,
    fun b mem => h.cellApart b (perm.mem_iff.mpr mem)⟩

/-- The loop of `init_mem` links the blocks of all available entries, if their headers
overlap neither each other nor the head. -/
theorem initLoop_placed {freelist : Nat} : ∀ (entries : List MultibootMmapEntry) (m : Mem)
    (L : List Block), Linked m freelist L → Headed freelist (L ++ bootBlocks entries) →
      ∃ m', initLoop freelist m entries = .ok m' ∧
        Linked m' freelist (placeAll L (bootBlocks entries)) := by
  intro entries
  induction entries with
  | nil => intro m L linked _; exact ⟨m, rfl, linked⟩
  | cons e rest ih =>
      intro m L linked headed
      by_cases available : e.type = multibootMemoryAvailable
      · have blocks : bootBlocks (e :: rest) = e.block :: bootBlocks rest := by
          simp [bootBlocks, available]
        rw [blocks] at headed ⊢
        have front : (L ++ e.block :: bootBlocks rest).Perm (e.block :: (L ++ bootBlocks rest)) :=
          List.perm_middle
        have headedFront := headed.perm front
        have apart := (List.pairwise_cons.mp headedFront.apart).1
        have fits : HeadFits e.block freelist L :=
          ⟨e.block_nonnull, headedFront.bound _ (by simp), fun b mem => apart b (by simp [mem]),
            headedFront.cellApart _ (by simp)⟩
        have headedL := headed.sublist (List.sublist_append_left L (e.block :: bootBlocks rest))
        obtain ⟨m₁, done₁, linked₁⟩ := initEntry_linked available linked headedL fits
        have perm : (L ++ e.block :: bootBlocks rest).Perm (putAfter e.block L ++ bootBlocks rest) :=
          front.trans ((putAfter_perm e.block L).symm.append_right _)
        obtain ⟨m', done', linked'⟩ := ih m₁ (putAfter e.block L) linked₁ (headed.perm perm)
        refine ⟨m', ?_, linked'⟩
        rw [initLoop, done₁, ok_bind, done']
      · have blocks : bootBlocks (e :: rest) = bootBlocks rest := by
          simp [bootBlocks, available]
        rw [blocks] at headed ⊢
        obtain ⟨m', done', linked'⟩ := ih m L linked headed
        refine ⟨m', ?_, linked'⟩
        have skipped : initEntry freelist m e = .ok m := by
          rw [initEntry, if_pos available]
          rfl
        rw [initLoop, skipped, ok_bind, done']

theorem initLoop_linked {freelist : Nat} {init : List Block}
    (headBound : freelist + 4 ≤ 0x100000000)
    (headApart : ∀ c ∈ init, freelist + 4 ≤ c.addr ∨ c.addr + c.sz ≤ freelist)
    (entries : List MultibootMmapEntry) (m : Mem) (empty : Linked m freelist [])
    (tidy : Tidy 0x1000 init (bootBlocks entries)) :
    ∃ m' L', initLoop freelist m entries = .ok m' ∧ Linked m' freelist L' ∧
      L'.Perm (bootBlocks entries) := by
  have size : ∀ b ∈ bootBlocks entries, 12 ≤ b.sz := by
    intro b mem
    have whole := (tidy.grained b mem).whole
    have nonempty := (tidy.grained b mem).nonempty
    omega
  have spaced : Spaced freelist (bootBlocks entries) := by
    refine ⟨headBound, size, fun b mem => (tidy.grained b mem).bound, tidy.apart, fun b mem => ?_⟩
    obtain ⟨c, memC, inside⟩ := tidy.inside b mem
    have apart := headApart c memC
    simp only [Block.Inside] at inside
    omega
  obtain ⟨m', done, linked⟩ := initLoop_placed entries m [] empty spaced.headed
  exact ⟨m', _, done, linked, placeAll_perm (bootBlocks entries) []⟩

/-! ## Requests of any size

`alloc_pages(0)` hands out the address of a block that stays on the list.  Such an
allocation owns no memory, and what is kept of the others does not depend on it. -/

def Arena.solid (s : Arena) : Arena := { s with live := s.live.filter fun b => 0 < b.sz }

/-- Requests may be of any size; what is given back is an outstanding allocation that
owns memory. -/
def Arena.Asked (s : Arena) : PageCall → Prop
  | .alloc _ => True
  | .free addr sz => ⟨addr, sz⟩ ∈ s.live ∧ 0 < sz
  | .write addr _ => ∃ b ∈ s.live, b.extent.addr ≤ addr ∧ addr < b.extent.addr + b.extent.sz

structure Arena.Kept (freelist : Nat) (init : List Block) (s : Arena) : Prop where
  sound : s.solid.Sound freelist init
  empty : ∀ b ∈ s.live, b.sz = 0 → ∃ c ∈ init, c.addr ≤ b.addr ∧ b.addr < c.addr + c.sz

theorem extent_sz_of_zero {b : Block} (empty : b.sz = 0) : b.extent.sz = 0 := by
  rw [Block.extent, empty]
  rfl

/-- A call that does not ask for zero bytes does the same to the allocations that own
memory, whether the others are there or not. -/
theorem Arena.solid_step {freelist : Nat} {s : Arena} {c : PageCall} (nonzero : c ≠ .alloc 0)
    {t : Arena} (done : s.solid.step freelist c = .ok t) :
    ∃ s', s.step freelist c = .ok s' ∧ s'.solid = t ∧
      ∀ b ∈ s'.live, b.sz = 0 → b ∈ s.live := by
  cases c with
  | alloc sz =>
      have pos : 0 < sz := by
        rcases Nat.eq_zero_or_pos sz with rfl | pos
        · exact absurd rfl nonzero
        · exact pos
      rw [Arena.step] at done
      obtain ⟨⟨addr, m⟩, call, done⟩ := bind_eq_ok.mp done
      have call' : allocPages freelist s.mem sz = .ok (addr, m) := call
      by_cases null : addr = 0
      · simp only [if_pos null] at done
        cases done
        refine ⟨{ s with mem := m }, ?_, rfl, fun b mem _ => mem⟩
        simp only [Arena.step, call', ok_bind, if_pos null]
        rfl
      · simp only [if_neg null] at done
        cases done
        refine ⟨⟨m, carve addr (pgRoundup sz) s.free, ⟨addr, sz⟩ :: s.live⟩, ?_, ?_, ?_⟩
        · simp only [Arena.step, call', ok_bind, if_neg null]
          rfl
        · simp [Arena.solid, pos]
        · intro b mem zero
          rcases List.mem_cons.mp mem with rfl | old
          · exact absurd zero (Nat.ne_of_gt pos)
          · exact old
  | free addr sz =>
      rw [Arena.step] at done
      obtain ⟨m, call, done⟩ := bind_eq_ok.mp done
      have call' : freePages freelist s.mem addr sz = .ok m := call
      cases done
      refine ⟨⟨m, putBack (Block.extent ⟨addr, sz⟩) s.free, s.live.erase ⟨addr, sz⟩⟩, ?_, ?_,
        fun b mem _ => List.mem_of_mem_erase mem⟩
      · simp only [Arena.step, call', ok_bind]
        rfl
      · simp only [Arena.solid, List.erase_filter]
  | write addr byte =>
      cases done
      exact ⟨_, rfl, rfl, fun b mem _ => mem⟩

section Asked

variable {freelist : Nat} {init : List Block} {s : Arena}
  (headApart : ∀ c ∈ init, freelist + 4 ≤ c.addr ∨ c.addr + c.sz ≤ freelist)

include headApart

theorem Arena.Kept.alloc_zero (kept : s.Kept freelist init) :
    ∃ s', s.step freelist (.alloc 0) = .ok s' ∧ s'.Kept freelist init := by
  have tidyFree : Tidy 0x1000 init s.free :=
    kept.sound.tidy.subperm (List.sublist_append_left _ _).subperm
  cases taken : takeFit 0 s.free with
  | none =>
      have call : allocPages freelist s.mem 0 = .ok (0, s.mem) :=
        allocPages_none kept.sound.list.memList taken
      refine ⟨s, ?_, kept⟩
      simp only [Arena.step, call]
      rfl
  | some found =>
      obtain ⟨b, rest⟩ := found
      have memB : b ∈ s.free := (takeFit_perm taken).mem_iff.mpr (by simp)
      have pagedB := kept.sound.list.paged b memB
      obtain ⟨m', done, linked, _⟩ := allocPages_linked kept.sound.list.memList taken
      have carved : carve b.addr (pgRoundup 0) s.free = splitRest (pgRoundup 0) b rest :=
        carve_eq tidyFree taken
      have back : splitRest (pgRoundup 0) b rest = putBack b rest := by
        rw [show pgRoundup 0 = 0 from rfl, splitRest, if_pos pagedB.nonempty]
        rfl
      have sub : (putBack b rest).Subperm s.free :=
        (putBack_subperm b rest).trans (takeFit_perm taken).symm.subperm
      let s' : Arena := ⟨m', putBack b rest, ⟨b.addr, 0⟩ :: s.live⟩
      have live : s'.solid.live = s.solid.live := by
        simp [Arena.solid, s']
      have tidy : Tidy 0x1000 init s'.solid.blocks := by
        rw [Arena.blocks, live]
        exact kept.sound.tidy.subperm ((List.subperm_append_right _).mpr sub)
      refine ⟨s', ?_, ⟨⟨?_, tidy⟩, fun c mem zero => ?_⟩⟩
      · have call : allocPages freelist s.mem 0 = .ok (b.addr, m') := done
        simp only [Arena.step, call, ok_bind, if_neg pagedB.nonnull, carved, back]
        rfl
      · rw [back] at linked
        exact freeListAt_of_tidy linked tidy kept.sound.list.headBound headApart
      · rcases List.mem_cons.mp mem with rfl | old
        · obtain ⟨d, memD, inside⟩ := tidyFree.inside b memB
          have nonempty := pagedB.nonempty
          simp only [Block.Inside] at inside
          exact ⟨d, memD, inside.1, by simp only; omega⟩
        · exact kept.empty c old zero

/-- Every call that may be asked returns and keeps what is known of the arena. -/
theorem Arena.Kept.step (kept : s.Kept freelist init) (c : PageCall) (asked : s.Asked c) :
    ∃ s', s.step freelist c = .ok s' ∧ s'.Kept freelist init := by
  by_cases zero : c = .alloc 0
  · rw [zero]
    exact kept.alloc_zero headApart
  · have allowed : s.solid.Allowed c := by
      cases c with
      | alloc sz =>
          rcases Nat.eq_zero_or_pos sz with rfl | pos
          · exact absurd rfl zero
          · exact pos
      | free addr sz => exact List.mem_filter.mpr ⟨asked.1, by simpa using asked.2⟩
      | write addr byte =>
          obtain ⟨b, mem, lo, hi⟩ := asked
          refine ⟨b, List.mem_filter.mpr ⟨mem, ?_⟩, lo, hi⟩
          by_cases empty : b.sz = 0
          · rw [extent_sz_of_zero empty] at hi
            omega
          · simpa using Nat.pos_of_ne_zero empty
    obtain ⟨t, done, sound, _⟩ := Arena.step_sound headApart kept.sound c allowed
    obtain ⟨s', done', solid, old⟩ := Arena.solid_step zero done
    exact ⟨s', done', solid ▸ sound, fun b mem empty => kept.empty b (old b mem empty) empty⟩

end Asked

/-! ## Physical images -/

def Arena.booted (freelist : Nat) (m : Mem) (sb : Nat) : Arena :=
  ⟨m, match freeBlocks freelist m with | .ok L => L | .error _ => [], [⟨sb, 0x10000⟩]⟩

/-- The list heads `freelist` and `heap` are two variables of the kernel. -/
structure HeadsPlaced (freelist heap : Nat) : Prop where
  freelistBound : freelist + 4 ≤ 0x100000000
  heapBound : heap + 4 ≤ 0x100000000
  apart : freelist + 4 ≤ heap ∨ heap + 4 ≤ freelist

/-- Every available entry in front of `mmap_n` is a region of whole pages below 2 GiB that
meets neither another one nor the two list heads. -/
structure Kinfo.Bootable (k : Kinfo) (freelist heap : Nat) : Prop where
  paged : ∀ e ∈ k.entries, e.type = multibootMemoryAvailable →
    e.addr % 0x1000 = 0 ∧ e.len % 0x1000 = 0 ∧ 0 < e.len
  low : ∀ e ∈ k.entries, e.type = multibootMemoryAvailable → e.addr + e.len ≤ 0x80000000
  apart : (k.entries.filter fun e => e.type = multibootMemoryAvailable).Pairwise
    fun e f => Disjoint e.bytes f.bytes
  heads : ∀ e ∈ k.entries, e.type = multibootMemoryAvailable → ∀ head ∈ [freelist, heap],
    head + 4 ≤ p2v e.addr ∨ p2v e.addr + e.len ≤ head

section Booted

variable {k : Kinfo} {freelist heap : Nat}

theorem Kinfo.Bootable.block_eq (ok : k.Bootable freelist heap) {e : MultibootMmapEntry}
    (mem : e ∈ k.entries) (available : e.type = multibootMemoryAvailable) :
    e.block = ⟨0x80000000 + e.addr, e.len⟩ := by
  have low := ok.low e mem available
  have nonempty := (ok.paged e mem available).2.2
  rw [MultibootMmapEntry.block, u32_of_lt (by omega), u32_of_lt (by omega),
    p2v_of_lt (by omega)]

theorem mem_bootBlocks {entries : List MultibootMmapEntry} {b : Block} :
    b ∈ bootBlocks entries ↔
      ∃ e ∈ entries, e.type = multibootMemoryAvailable ∧ e.block = b := by
  simp [bootBlocks, and_assoc]

theorem Kinfo.Bootable.tidy (ok : k.Bootable freelist heap) :
    Tidy 0x1000 (bootBlocks k.entries) (bootBlocks k.entries) := by
  refine ⟨fun b mem => ?_, fun b mem => ⟨b, mem, Nat.le_refl _, Nat.le_refl _⟩, ?_⟩
  · obtain ⟨e, memE, available, rfl⟩ := mem_bootBlocks.mp mem
    obtain ⟨aligned, whole, nonempty⟩ := ok.paged e memE available
    have low := ok.low e memE available
    rw [ok.block_eq memE available]
    exact ⟨by simp only; omega, Nat.dvd_of_mod_eq_zero (by simp only; omega),
      Nat.dvd_of_mod_eq_zero whole, nonempty, by simp only; omega⟩
  · rw [bootBlocks, List.pairwise_map]
    refine ok.apart.imp_of_mem fun {e f} memE memF disjoint => ?_
    obtain ⟨memE, availableE⟩ := List.mem_filter.mp memE
    obtain ⟨memF, availableF⟩ := List.mem_filter.mp memF
    simp only [decide_eq_true_eq] at availableE availableF
    have nonemptyE := (ok.paged e memE availableE).2.2
    have nonemptyF := (ok.paged f memF availableF).2.2
    rw [ok.block_eq memE availableE, ok.block_eq memF availableF]
    simp only [Block.Apart]
    by_contra meets
    have inE : max e.addr f.addr ∈ e.bytes :=
      MultibootMmapEntry.mem_bytes.mpr ⟨by omega, by omega⟩
    have inF : max e.addr f.addr ∈ f.bytes :=
      MultibootMmapEntry.mem_bytes.mpr ⟨by omega, by omega⟩
    exact Set.disjoint_left.mp disjoint inE inF

theorem Kinfo.Bootable.head_apart (ok : k.Bootable freelist heap) (head : Nat)
    (mem : head ∈ [freelist, heap]) :
    ∀ c ∈ bootBlocks k.entries, head + 4 ≤ c.addr ∨ c.addr + c.sz ≤ head := by
  intro c memC
  obtain ⟨e, memE, available, rfl⟩ := mem_bootBlocks.mp memC
  have apart := ok.heads e memE available head mem
  have low := ok.low e memE available
  have nonempty := (ok.paged e memE available).2.2
  rw [p2v_of_lt (by omega)] at apart
  rw [ok.block_eq memE available]
  exact apart

theorem initHeap_frame (m : Mem) (sb : Nat) :
    Frame m (initHeap heap m sb) (Set.Ico sb (sb + 8) ∪ Set.Ico heap (heap + 4)) := by
  apply Frame.trans ((store32_frame _ _ _).mono ?_)
    (Frame.trans ((store32_frame _ _ _).mono ?_)
      (Frame.trans ((store32_frame _ _ _).mono ?_) ((store32_frame _ _ _).mono ?_)))
  all_goals
    intro x mem
    simp only [Set.mem_Ico, Set.mem_union] at mem ⊢
    omega

theorem initMem_kept (placed : HeadsPlaced freelist heap) (ok : k.Bootable freelist heap)
    {m m' : Mem} {sb : Nat} (boot : initMem freelist heap m k = .ok (sb, m')) :
    (Arena.booted freelist m' sb).Kept freelist (bootBlocks k.entries) := by
  have headApart := ok.head_apart freelist (by simp)
  have heapApart := ok.head_apart heap (by simp)
  have empty : Linked (store32 m freelist 0) freelist [] := load32_store32_same _ _ _
  obtain ⟨m₁, L, done₁, linked₁, perm⟩ := initLoop_linked placed.freelistBound headApart k.entries _
    empty ok.tidy
  rw [initMem] at boot
  simp only [done₁, ok_bind] at boot
  obtain ⟨⟨a, m₂⟩, taken, boot⟩ := bind_eq_ok.mp boot
  by_cases null : a = 0
  · rw [if_pos null] at boot
    cases boot
  rw [if_neg null] at boot
  cases boot
  -- the list that was linked, and the allocation of the heap from it
  have tidyL : Tidy 0x1000 (bootBlocks k.entries) (L ++ []) := by
    rw [List.append_nil]
    exact ok.tidy.subperm perm.subperm
  have list := freeListAt_of_tidy linked₁ tidyL placed.freelistBound headApart
  have start : (Arena.start m₁ L).Sound freelist (bootBlocks k.entries) := ⟨list, tidyL⟩
  obtain ⟨s, done, sound, _⟩ := Arena.step_alloc headApart start (show 1 ≤ 0x10000 by decide)
  have call : allocPages freelist (Arena.start m₁ L).mem 0x10000 = .ok (a, m₂) := taken
  simp only [Arena.step, call, ok_bind, if_neg null] at done
  cases done
  generalize carve a (pgRoundup 0x10000) (Arena.start m₁ L).free = free at sound
  have extent : Block.extent ⟨a, 0x10000⟩ = ⟨a, 0x10000⟩ := by
    rw [Block.extent, show pgRoundup 0x10000 = 0x10000 by decide]
  have inHeap : ∃ c ∈ bootBlocks k.entries, Block.Inside ⟨a, 0x10000⟩ c :=
    sound.tidy.inside ⟨a, 0x10000⟩ (List.mem_append_right _ (List.mem_singleton.mpr extent.symm))
  have apartHeap : ∀ c ∈ free, c.Apart ⟨a, 0x10000⟩ := fun c mem =>
    (List.pairwise_append.mp sound.tidy.apart).2.2 c mem ⟨a, 0x10000⟩
      (List.mem_singleton.mpr extent.symm)
  have heads := placed.apart
  have linked' : Linked (initHeap heap m₂ a) freelist free := by
    apply sound.list.linked.frame (initHeap_frame m₂ a)
    intro x inList written
    simp only [Set.mem_union, Set.mem_Ico] at written
    rcases inList with ⟨lo, hi⟩ | ⟨c, memC, lo, hi⟩
    · obtain ⟨d, memD, inside⟩ := inHeap
      have := headApart d memD
      simp only [Block.Inside] at inside
      omega
    · have apart := apartHeap c memC
      have size := sound.list.spaced.size c memC
      obtain ⟨d, memD, inside⟩ := sound.tidy.inside c (List.mem_append_left _ memC)
      have := heapApart d memD
      simp only [Block.Apart] at apart
      simp only [Block.Inside] at inside
      omega
  have list' : FreeListAt freelist (initHeap heap m₂ a) free := { sound.list with linked := linked' }
  have booted : Arena.booted freelist (initHeap heap m₂ a) a =
      ⟨initHeap heap m₂ a, free, [⟨a, 0x10000⟩]⟩ := by
    rw [Arena.booted, list'.freeBlocks_eq]
  rw [booted]
  refine ⟨⟨list', sound.tidy⟩, fun b mem zero => ?_⟩
  rw [List.mem_singleton.mp mem] at zero
  cases zero

def Block.ImagesApart (b c : Block) : Prop :=
  ∀ x y, b.addr ≤ x → x < b.addr + pgRoundup b.sz → c.addr ≤ y → y < c.addr + pgRoundup c.sz →
    v2p x ≠ v2p y

/-- In every run after `init_mem` on a bootable map, every outstanding allocation is a range
of the kernel half that does not wrap and whose physical image lies inside one available
entry, no two have a physical byte in common, and every further call returns. -/
theorem allocations_physical (placed : HeadsPlaced freelist heap) (ok : k.Bootable freelist heap)
    {m m' : Mem} {sb : Nat} (boot : initMem freelist heap m k = .ok (sb, m')) {s : Arena}
    (run : Runs (Arena.step freelist) Arena.Asked (Arena.booted freelist m' sb) s) :
    (∀ b ∈ s.live, 0x80000000 ≤ b.addr ∧ b.addr + pgRoundup b.sz ≤ 0x100000000 ∧
      ∃ e ∈ k.entries, e.type = multibootMemoryAvailable ∧
        ∀ x, b.addr ≤ x → x < b.addr + pgRoundup b.sz → v2p x ∈ e.bytes) ∧
      s.live.Pairwise Block.ImagesApart ∧
      ∀ c, s.Asked c → ∃ s', s.step freelist c = .ok s' := by
  have headApart := ok.head_apart freelist (by simp)
  have kept : s.Kept freelist (bootBlocks k.entries) := by
    apply run.invariant _ (initMem_kept placed ok boot)
    intro t c t' kept asked done
    obtain ⟨t'', done', kept'⟩ := kept.step headApart c asked
    rw [done] at done'
    cases done'
    exact kept'
  -- an allocation lies inside the block of an entry
  have inside : ∀ b ∈ s.live, ∃ e ∈ k.entries, e.type = multibootMemoryAvailable ∧
      0x80000000 + e.addr ≤ b.addr ∧ b.addr + pgRoundup b.sz ≤ 0x80000000 + e.addr + e.len := by
    intro b mem
    by_cases empty : b.sz = 0
    · obtain ⟨c, memC, lo, hi⟩ := kept.empty b mem empty
      obtain ⟨e, memE, available, rfl⟩ := mem_bootBlocks.mp memC
      rw [ok.block_eq memE available] at lo hi
      simp only at lo hi
      exact ⟨e, memE, available, lo, by rw [empty]; exact Nat.le_of_lt hi⟩
    · have solid : b ∈ s.solid.live :=
        List.mem_filter.mpr ⟨mem, by simpa using Nat.pos_of_ne_zero empty⟩
      obtain ⟨c, memC, lo, hi⟩ := kept.sound.tidy.inside b.extent
        (List.mem_append_right _ (List.mem_map_of_mem solid))
      obtain ⟨e, memE, available, rfl⟩ := mem_bootBlocks.mp memC
      rw [ok.block_eq memE available] at lo hi
      exact ⟨e, memE, available, lo, hi⟩
  have image : ∀ b ∈ s.live, ∀ x, b.addr ≤ x → x < b.addr + pgRoundup b.sz →
      0x80000000 ≤ x ∧ v2p x = x - 0x80000000 := by
    intro b mem x lo hi
    obtain ⟨e, memE, available, low, high⟩ := inside b mem
    have bound := ok.low e memE available
    rw [v2p_eq]
    omega
  refine ⟨fun b mem => ?_, ?_, fun c asked => ?_⟩
  · obtain ⟨e, memE, available, low, high⟩ := inside b mem
    have bound := ok.low e memE available
    refine ⟨by omega, by omega, e, memE, available, fun x lo hi => ?_⟩
    rw [(image b mem x lo hi).2, MultibootMmapEntry.mem_bytes]
    omega
  · have apart : s.solid.live.Pairwise fun b c => b.extent.Apart c.extent :=
      List.pairwise_map.mp (kept.sound.tidy.apart.sublist (List.sublist_append_right _ _))
    refine (List.pairwise_filter.mp apart).imp_of_mem fun {b c} memB memC apartBC => ?_
    intro x y loX hiX loY hiY same
    have imageX := image b memB x loX hiX
    have imageY := image c memC y loY hiY
    have posB : b.sz ≠ 0 := by
      intro zero
      rw [zero, show pgRoundup 0 = 0 from rfl] at hiX
      omega
    have posC : c.sz ≠ 0 := by
      intro zero
      rw [zero, show pgRoundup 0 = 0 from rfl] at hiY
      omega
    have disjoint := apartBC (by simpa using Nat.pos_of_ne_zero posB)
      (by simpa using Nat.pos_of_ne_zero posC)
    simp only [Block.Apart, Block.extent] at disjoint
    omega
  · obtain ⟨s', done, _⟩ := kept.step headApart c asked
    exact ⟨s', done⟩

end Booted

def twoRegions (a b : Nat) : Kinfo :=
  ⟨fun i => if i.val = 0 then ⟨a, 0x20000, multibootMemoryAvailable⟩
    else if i.val = 1 then ⟨b, 0x20000, multibootMemoryAvailable⟩ else ⟨0, 0, 0⟩, 2, 0⟩

theorem twoRegions_entries (a b : Nat) : (twoRegions a b).entries =
    [⟨a, 0x20000, multibootMemoryAvailable⟩, ⟨b, 0x20000, multibootMemoryAvailable⟩] := rfl

theorem twoRegions_run (a b sb addr : Nat)
    (heap : (initMem 0x80480000 0x80480010 (fun _ => 0) (twoRegions a b)).toOption.map Prod.fst =
      some sb)
    (page : (initMem 0x80480000 0x80480010 (fun _ => 0) (twoRegions a b)).toOption.bind (fun r =>
      ((Arena.booted 0x80480000 r.2 r.1).step 0x80480000 (.alloc 0x1000)).toOption.map Arena.live) =
        some [⟨addr, 0x1000⟩, ⟨sb, 0x10000⟩]) :
    ∃ m' s, initMem 0x80480000 0x80480010 (fun _ => 0) (twoRegions a b) = .ok (sb, m') ∧
      Runs (Arena.step 0x80480000) Arena.Asked (Arena.booted 0x80480000 m' sb) s ∧
      s.live = [⟨addr, 0x1000⟩, ⟨sb, 0x10000⟩] := by
  cases boot : initMem 0x80480000 0x80480010 (fun _ => 0) (twoRegions a b) with
  | error e =>
      rw [boot] at heap
      cases heap
  | ok r =>
      obtain ⟨sb', m'⟩ := r
      rw [boot] at heap page
      cases heap
      simp only [Except.toOption, Option.bind_some] at page
      cases done : (Arena.booted 0x80480000 m' sb').step 0x80480000 (.alloc 0x1000) with
      | error e =>
          rw [done] at page
          cases page
      | ok s =>
          rw [done] at page
          exact ⟨m', s, rfl, .snoc (.alloc 0x1000) .refl trivial done, Option.some.inj page⟩

theorem allocations_physical_low_regions :
    ∃ s : Arena, s.live = [⟨0x81010000, 0x1000⟩, ⟨0x81000000, 0x10000⟩] ∧
      s.live.Pairwise Block.ImagesApart := by
  obtain ⟨m', s, boot, run, live⟩ := twoRegions_run 0x1000000 0x2000000 0x81000000 0x81010000
    (by decide +kernel) (by decide +kernel)
  have placed : HeadsPlaced 0x80480000 0x80480010 := ⟨by decide, by decide, by decide⟩
  have ok : (twoRegions 0x1000000 0x2000000).Bootable 0x80480000 0x80480010 := by
    refine ⟨by decide, by decide, ?_, by decide⟩
    rw [twoRegions_entries, List.filter_eq_self.mpr (by decide), List.pairwise_pair,
      Set.disjoint_left]
    intro x first second
    rw [MultibootMmapEntry.mem_bytes] at first second
    simp only at first second
    omega
  exact ⟨s, live, (allocations_physical placed ok boot run).2.1⟩

/-- Two regions above 2 GiB: the page that `alloc_pages` returns has its physical image in
neither of them. -/
theorem high_region_image_outside :
    ∃ m' s, initMem 0x80480000 0x80480010 (fun _ => 0) (twoRegions 0x90100000 0x90200000) =
        .ok (0x90100000, m') ∧
      Runs (Arena.step 0x80480000) Arena.Asked (Arena.booted 0x80480000 m' 0x90100000) s ∧
      ⟨0x90110000, 0x1000⟩ ∈ s.live ∧
      ∀ e ∈ (twoRegions 0x90100000 0x90200000).entries, v2p 0x90110000 ∉ e.bytes := by
  obtain ⟨m', s, boot, run, live⟩ := twoRegions_run 0x90100000 0x90200000 0x90100000 0x90110000
    (by decide +kernel) (by decide +kernel)
  refine ⟨m', s, boot, run, by rw [live]; exact List.mem_cons_self, fun e mem => ?_⟩
  have image : v2p 0x90110000 = 0x10110000 := by decide
  rw [image, MultibootMmapEntry.mem_bytes]
  rw [twoRegions_entries] at mem
  rcases List.mem_cons.mp mem with rfl | mem
  · decide
  · rw [List.mem_singleton.mp mem]
    decide

end Trunix
