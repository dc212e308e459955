import Trunix.Mem.Heap

/-!
# Memory as the rest of the kernel uses it

Behind the allocators the kernel sees the two free lists only through what the calls
return.  A store therefore keeps them as lists of blocks, next to the bytes of memory
that the kernel reads and writes through its own mappings.  `given` records the blocks
that `alloc_pages` has handed out; no function reads it.  The theorems at the end of the
first section say that the calls on lists are those of the code on the lists in memory.
-/

set_option autoImplicit false

namespace Trunix

open Trunix.Lib

structure Store where
  mem : Mem
  free : List Block
  heap : List Block
  /-- every block handed out by `alloc_pages`, with its rounded size -/
  given : List Block

def Store.allocPages (s : Store) (sz : Nat) : Nat × Store :=
  match takeFit sz s.free with
  | none => (0, s)
  | some (b, rest) =>
      let r := pgRoundup sz
      (b.addr, { s with
        free := splitRest r b rest
        given := if r = 0 then s.given else ⟨b.addr, r⟩ :: s.given })

/-- First fit on the heap: what is left of the block stays where the block was. -/
def cutFit (n : Nat) : List Block → Option (Block × List Block)
  | [] => none
  | b :: rest =>
      if n ≤ b.sz then some (b, cutRest n b ++ rest)
      else (cutFit n rest).map fun found => (found.1, b :: found.2)

def Store.kmalloc (s : Store) (sz : Nat) : Except Halt (Nat × Store) :=
  if ¬ kmallocSize sz < 0x1000 then .error .assertion
  else
    match cutFit (kmallocSize sz) s.heap with
    | none => .ok (0, s)
    | some (b, heap) => .ok (u32 (b.addr + 2), { s with heap := heap })

/-- An access of the kernel that may be one through `NULL`.  The model ends there; where the
first page is mapped in the current directory the code goes on in that page. -/
def touch (addr n : Nat) : Except Halt Unit :=
  if n ≠ 0 ∧ addr < 0x1000 then .error .fault else .ok ()

theorem touch_eq_ok {addr n : Nat} {u : Unit} (done : touch addr n = .ok u) : n = 0 ∨ 0x1000 ≤ addr := by
  rw [touch] at done
  split at done
  · cases done
  · omega

def Store.memset (s : Store) (addr : Nat) (b : UInt8) (n : Nat) : Except Halt Store := do
  touch addr n
  return { s with mem := fill s.mem addr n b }

/-- `memmove` of `n` bytes, which are `src 0`, `src 1`, and so on before the call. -/
def Store.memmove (s : Store) (addr : Nat) (src : Nat → UInt8) (n : Nat) : Except Halt Store := do
  touch addr n
  return { s with mem := blit s.mem addr n src }

theorem Store.memmove_congr {s : Store} {dst n : Nat} {src src' : Nat → UInt8}
    (same : ∀ x < n, src x = src' x) : s.memmove dst src n = s.memmove dst src' n := by
  unfold Store.memmove
  rw [blit_congr same]

/-! ## The calls on lists are those of the code -/

theorem Store.allocPages_refines {freelist sz : Nat} {m : Mem} (s : Store)
    (list : FreeListAt freelist m s.free) :
    ∃ m', Trunix.allocPages freelist m sz = .ok ((s.allocPages sz).1, m') ∧
      Linked m' freelist (s.allocPages sz).2.free := by
  cases taken : takeFit sz s.free with
  | none =>
      refine ⟨m, ?_, ?_⟩
      · simp only [allocPages_none list.memList taken, Store.allocPages, taken]
      · simp only [Store.allocPages, taken]
        exact list.linked
  | some found =>
      obtain ⟨b, rest⟩ := found
      obtain ⟨m', done, linked, _⟩ := allocPages_linked list.memList taken
      refine ⟨m', ?_, ?_⟩
      · simp only [done, Store.allocPages, taken]
      · simp only [Store.allocPages, taken]
        exact linked

theorem cutFit_eq {n : Nat} : ∀ L : List Block,
    cutFit n L = none ∧ takeFit n L = none ∨
      ∃ pre b post, L = pre ++ b :: post ∧ n ≤ b.sz ∧ (∀ c ∈ pre, c.sz < n) ∧
        cutFit n L = some (b, pre ++ (cutRest n b ++ post)) := by
  intro L
  induction L with
  | nil => exact Or.inl ⟨rfl, rfl⟩
  | cons c rest ih =>
      by_cases fits : n ≤ c.sz
      · exact Or.inr ⟨[], c, rest, rfl, fits, by simp, by simp [cutFit, fits]⟩
      · rcases ih with ⟨none, none'⟩ | ⟨pre, b, post, split, fit, small, cut⟩
        · exact Or.inl ⟨by simp [cutFit, fits, none], by simp [takeFit, fits, none']⟩
        · refine Or.inr ⟨c :: pre, b, post, by rw [split]; rfl, fit, ?_, ?_⟩
          · intro d mem
            rcases List.mem_cons.mp mem with rfl | inPre
            · exact Nat.lt_of_not_le fits
            · exact small d inPre
          · simp [cutFit, fits, cut]

theorem Store.kmalloc_refines {heap sz : Nat} {m : Mem} (s : Store)
    (list : HeapListAt heap m s.heap) (small : sz ≤ 4086) :
    ∃ p s' m', s.kmalloc sz = .ok (p, s') ∧ Trunix.kmalloc heap m sz = .ok (p, m') ∧
      Chained m' heap s'.heap := by
  have below : ¬ ¬ kmallocSize sz < 0x1000 := not_not.mpr (kmallocSize_spec small).2.2.1
  rcases cutFit_eq (n := kmallocSize sz) s.heap with
    ⟨none, none'⟩ | ⟨pre, b, post, split, fit, first, cut⟩
  · refine ⟨0, s, m, ?_, kmalloc_none list small none', list.chained⟩
    simp only [Store.kmalloc, if_neg below, none]
  · have bound := list.bound b (by rw [split]; simp)
    have sizes := list.sizes b (by rw [split]; simp)
    rw [split] at list
    obtain ⟨m', done, chained, _, _⟩ := kmalloc_chained list small fit first
    refine ⟨b.addr + 2, { s with heap := pre ++ (cutRest (kmallocSize sz) b ++ post) }, m', ?_, done,
      chained⟩
    have inside : u32 (b.addr + 2) = b.addr + 2 := u32_of_lt (by omega)
    simp only [Store.kmalloc, if_neg below, cut, inside]

/-- `alloc_pages` writes to no byte outside the free blocks. -/
theorem Store.allocPages_mem (s : Store) (sz : Nat) :
    (s.allocPages sz).2.mem = s.mem ∧ (s.allocPages sz).2.heap = s.heap := by
  rw [Store.allocPages]
  split <;> exact ⟨rfl, rfl⟩

theorem Store.kmalloc_heap {s s' : Store} {sz p : Nat} (done : s.kmalloc sz = .ok (p, s')) :
    s'.mem = s.mem ∧ s'.free = s.free ∧ s'.given = s.given := by
  simp only [Store.kmalloc] at done
  split at done
  · cases done
  · split at done
    · cases done
      exact ⟨rfl, rfl, rfl⟩
    · cases done
      exact ⟨rfl, rfl, rfl⟩

theorem Store.allocPages_same {s s' : Store} (free : s'.free = s.free) (sz : Nat) :
    (s'.allocPages sz).1 = (s.allocPages sz).1 ∧
      (s'.allocPages sz).2.free = (s.allocPages sz).2.free := by
  simp only [Store.allocPages, free]
  cases found : takeFit sz s.free with
  | none => exact ⟨rfl, free⟩
  | some b => exact ⟨rfl, rfl⟩

theorem Store.kmalloc_same {s s' : Store} (heap : s'.heap = s.heap) (sz : Nat) :
    (0x1000 ≤ kmallocSize sz ∧ s'.kmalloc sz = .error .assertion) ∨
      kmallocSize sz < 0x1000 ∧ ∃ p t t', s.kmalloc sz = .ok (p, t) ∧ s'.kmalloc sz = .ok (p, t') := by
  by_cases small : kmallocSize sz < 0x1000
  · refine Or.inr ⟨small, ?_⟩
    simp only [Store.kmalloc, if_neg (not_not.mpr small), heap]
    cases cutFit (kmallocSize sz) s.heap with
    | none => exact ⟨0, s, s', rfl, rfl⟩
    | some found => exact ⟨_, _, _, rfl, rfl⟩
  · exact Or.inl ⟨by omega, by simp only [Store.kmalloc, if_pos small]⟩

/-! ## What `alloc_pages` keeps -/

/-- The free blocks and those that were handed out are disjoint page blocks inside the
memory that was free at boot, which the kernel maps in its own half. -/
structure Store.Sound (init : List Block) (s : Store) : Prop where
  tidy : Tidy 0x1000 init (s.free ++ s.given)
  high : ∀ c ∈ init, 0x80000000 ≤ c.addr

theorem Store.Sound.write {init : List Block} {s s' : Store} (h : s.Sound init)
    (free : s'.free = s.free) (given : s'.given = s.given) : s'.Sound init := by
  refine ⟨?_, h.high⟩
  rw [free, given]
  exact h.tidy

theorem Store.Sound.paged {init : List Block} {s : Store} {b : Block} (h : s.Sound init)
    (mem : b ∈ s.given) :
    b.addr % 0x1000 = 0 ∧ b.sz % 0x1000 = 0 ∧ 0 < b.sz ∧ 0x80000000 ≤ b.addr ∧
      b.addr + b.sz ≤ 0x100000000 := by
  have inBlocks := List.mem_append_right s.free mem
  have grained := h.tidy.grained b inBlocks
  obtain ⟨c, memC, inside⟩ := h.tidy.inside b inBlocks
  exact ⟨Nat.mod_eq_zero_of_dvd grained.aligned, Nat.mod_eq_zero_of_dvd grained.whole,
    grained.nonempty, Nat.le_trans (h.high c memC) inside.1, grained.bound⟩

theorem Store.Sound.apart {init : List Block} {s : Store} (h : s.Sound init) :
    s.given.Pairwise Block.Apart := (List.pairwise_append.mp h.tidy.apart).2.1

theorem Store.Sound.apart_of_ne {init : List Block} {s : Store} {b c : Block} (h : s.Sound init)
    (memB : b ∈ s.given) (memC : c ∈ s.given) (ne : b ≠ c) : b.Apart c :=
  h.tidy.apart_of_ne (List.mem_append_right _ memB) (List.mem_append_right _ memC) ne

inductive Store.Alloc (init : List Block) (s : Store) (sz : Nat) : Nat × Store → Prop where
  | none (small : ∀ b ∈ s.free, b.sz < sz) : Store.Alloc init s sz (0, s)
  | zero (a : Nat) (free : List Block) (nothing : sz = 0) (nonnull : 0x80000000 ≤ a)
      (sound : Store.Sound init { s with free := free }) :
      Store.Alloc init s sz (a, { s with free := free })
  | some (a : Nat) (free : List Block) (pos : 0 < pgRoundup sz) (fits : sz ≤ 0x80000000)
      (sound : Store.Sound init { s with free := free, given := ⟨a, pgRoundup sz⟩ :: s.given }) :
      Store.Alloc init s sz (a, { s with free := free, given := ⟨a, pgRoundup sz⟩ :: s.given })

theorem Store.Sound.alloc {init : List Block} {s : Store} (h : s.Sound init) (sz : Nat) :
    s.Alloc init sz (s.allocPages sz) := by
  cases taken : takeFit sz s.free with
  | none =>
      have same : s.allocPages sz = (0, s) := by simp only [Store.allocPages, taken]
      rw [same]
      exact .none (takeFit_eq_none.mp taken)
  | some found =>
      obtain ⟨b, rest⟩ := found
      have memB : b ∈ s.free := (takeFit_perm taken).mem_iff.mpr (by simp)
      have pagedB := h.tidy.grained b (List.mem_append_left _ memB)
      obtain ⟨c, memC, insideB⟩ := h.tidy.inside b (List.mem_append_left _ memB)
      have highC := h.high c memC
      have boundB := pagedB.bound
      have fit : sz ≤ b.sz := by
        obtain ⟨_, _, _, _, fit, _⟩ := takeFit_split taken
        exact fit
      have le := pagedB.pgRoundup_le fit
      have oldPerm : (s.free ++ s.given).Perm (b :: (rest ++ s.given)) :=
        (takeFit_perm taken).append_right _
      simp only [Block.Inside] at insideB
      by_cases nothing : pgRoundup sz = 0
      · have zero : sz = 0 := by
          have := le_pgRoundup (x := sz) (by omega)
          omega
        have done : s.allocPages sz = (b.addr, { s with free := splitRest (pgRoundup sz) b rest }) := by
          simp only [Store.allocPages, taken, if_pos nothing]
        have sub : (splitRest (pgRoundup sz) b rest ++ s.given).Subperm (s.free ++ s.given) := by
          have whole : b.rest 0 = b := rfl
          rw [nothing, splitRest, if_pos pagedB.nonempty, whole]
          refine List.Subperm.trans ?_ oldPerm.symm.subperm
          exact (List.subperm_append_right s.given).mpr (putBack_subperm b rest)
        rw [done]
        exact .zero _ _ zero (by omega) ⟨h.tidy.subperm sub, h.high⟩
      · have pos : 0 < pgRoundup sz := Nat.pos_of_ne_zero nothing
        have done : s.allocPages sz = (b.addr, { s with
            free := splitRest (pgRoundup sz) b rest
            given := ⟨b.addr, pgRoundup sz⟩ :: s.given }) := by
          simp only [Store.allocPages, taken, if_neg nothing]
        have newSub : (splitRest (pgRoundup sz) b rest ++ ⟨b.addr, pgRoundup sz⟩ :: s.given).Subperm
            (pieces (pgRoundup sz) b ++ (rest ++ s.given)) := by
          rw [← List.append_assoc]
          exact List.perm_middle.subperm_right.mpr
            ((List.subperm_append_right s.given).mpr (split_subperm _ b rest))
        have tidy := ((h.tidy.subperm oldPerm.symm.subperm).pieces pos
          (Nat.dvd_of_mod_eq_zero (pgRoundup_mod sz)) le).subperm newSub
        rw [done]
        exact .some _ _ pos (by omega) ⟨tidy, h.high⟩

end Trunix
