import Trunix.Slist

/-!
# `malloc` of the C library

`malloc` of `lib/libc/stdlib/malloc.c` on the bytes of a process.  The list head `heap` is
a static variable whose address is a parameter.  `mmap` is asked only while the list is
empty; its answer comes with the request, and the run assumes that it is a fresh region.
The regions and the blocks handed out are recorded beside the memory; `malloc` reads
neither.
-/

set_option autoImplicit false

namespace Trunix.Libc

open Trunix.Lib

/-- A block handed out: its header, its size with the header and the bytes asked for,
which start behind the header. -/
structure UserBlock where
  addr : Nat
  sz : Nat
  n : Nat
  deriving DecidableEq, Repr

structure UserHeap where
  mem : Mem
  regions : List Block
  blocks : List UserBlock

/-- The size `malloc` looks for, with the header. -/
def mallocSize (n : Nat) : Nat := roundup (u32 (n + 4)) 4

/-- `answer` is what `mmap` returns if it is called. -/
def malloc (heap answer : Nat) (s : UserHeap) (n : Nat) : Except Halt (Nat × UserHeap) := do
  let sz := mallocSize n
  -- first allocation
  if load32 s.mem heap = 0 then
    let m := store32 s.mem heap 0
    let m := fill m answer (pgRoundup sz) 0
    let p := u32 (answer + sz)
    let m := store32 m p (u32 (sz + 0x100000000 - pgRoundup sz))
    let m := slistInsertHead m heap p
    let m := store32 m answer sz
    return (u32 (answer + 4), ⟨m, ⟨answer, pgRoundup sz⟩ :: s.regions, ⟨answer, sz, n⟩ :: s.blocks⟩)
  else
    let p ← findFit s.mem sz walkLimit (load32 s.mem heap)
    if p = 0 then return (0, s)
    else
      let m := if sz < load32 s.mem p then
          let q := u32 (p + sz)
          let m := store32 s.mem q (load32 s.mem p - sz)
          slistInsertAfter m p q
        else s.mem
      let m ← slistRemove m heap p
      let m := store32 m p sz
      return (u32 (p + 4), ⟨m, s.regions, ⟨p, sz, n⟩ :: s.blocks⟩)

structure Request where
  size : Nat
  answer : Nat

def mallocs (heap : Nat) (s : UserHeap) : List Request → Except Halt UserHeap
  | [] => .ok s
  | r :: rest => do
      let (_, s) ← malloc heap r.answer s r.size
      mallocs heap s rest

/-- A region that `mmap` may return: whole pages apart from the older regions and from the
list head, and not at the very end of the address space. -/
structure FreshRegion (heap : Nat) (regions : List Block) (answer len : Nat) : Prop where
  aligned : answer % 0x1000 = 0
  bound : answer + len < 0x100000000
  apart : ∀ b ∈ regions, b.addr + b.sz ≤ answer ∨ answer + len ≤ b.addr
  head : heap + 4 ≤ answer ∨ answer + len ≤ heap

/-- Whenever a call finds the list empty, `mmap` answers with a fresh region. -/
def Answered (heap : Nat) (s : UserHeap) : List Request → Prop
  | [] => True
  | r :: rest =>
      (load32 s.mem heap = 0 → FreshRegion heap s.regions r.answer (pgRoundup (mallocSize r.size))) ∧
        ∀ p s', malloc heap r.answer s r.size = .ok (p, s') → Answered heap s' rest

/-! ## What the heap should keep -/

def UserHeap.Mapped (s : UserHeap) (x : Nat) : Prop := ∃ b ∈ s.regions, b.addr ≤ x ∧ x < b.addr + b.sz

inductive OnList (m : Mem) (cell : Nat) : Nat → Prop where
  | first {p : Nat} (here : load32 m cell = p) (nonnull : p ≠ 0) : OnList m cell p
  | next {p q : Nat} (before : OnList m cell q) (link : sleNext m q = p) (nonnull : p ≠ 0) :
      OnList m cell p

/-- The bytes handed out are mapped, the blocks are disjoint, and every node lies with its
whole recorded size, and with the node itself, in mapped memory that is not handed out. -/
structure UserHeap.Good (heap : Nat) (s : UserHeap) : Prop where
  results : ∀ b ∈ s.blocks, ∀ x, b.addr + 4 ≤ x → x < b.addr + 4 + b.n → s.Mapped x
  apart : s.blocks.Pairwise fun b c => b.addr + b.sz ≤ c.addr ∨ c.addr + c.sz ≤ b.addr
  nodes : ∀ p, OnList s.mem heap p → ∀ x, p ≤ x → x < p + max 8 (load32 s.mem p) →
    s.Mapped x ∧ ∀ b ∈ s.blocks, ¬ (b.addr ≤ x ∧ x < b.addr + b.sz)

def UserHeap.start (m : Mem) : UserHeap := ⟨m, [], []⟩

theorem UserHeap.start_good {heap : Nat} {m : Mem} (empty : load32 m heap = 0) :
    (UserHeap.start m).Good heap := by
  refine ⟨fun b none => absurd none List.not_mem_nil, List.Pairwise.nil, fun p node => ?_⟩
  have none : ∀ q, ¬ OnList m heap q := by
    intro q node
    induction node with
    | first here nonnull => exact nonnull (here.symm.trans empty)
    | next _ _ _ ih => exact ih
  exact absurd node (none p)

/-! ## The first call -/

theorem mallocSize_spec {n : Nat} (small : n < 0x80000000) :
    4 ≤ mallocSize n ∧ n + 4 ≤ mallocSize n ∧ mallocSize n ≤ 0x80000004 ∧ mallocSize n % 4 = 0 := by
  rw [mallocSize, u32_of_lt (by omega)]
  simp only [roundup, u32]
  split <;> omega

/-- The node that the first call leaves behind its block: it is the first on the list, and
where it lies in the region its recorded size is the room behind it, negated. -/
theorem malloc_first {heap : Nat} {s : UserHeap} {r : Request} (empty : load32 s.mem heap = 0)
    (small : r.size < 0x80000000)
    (fresh : FreshRegion heap s.regions r.answer (pgRoundup (mallocSize r.size))) :
    ∃ s', malloc heap r.answer s r.size = .ok (r.answer + 4, s') ∧
      s'.regions = ⟨r.answer, pgRoundup (mallocSize r.size)⟩ :: s.regions ∧
      OnList s'.mem heap (r.answer + mallocSize r.size) ∧
      (mallocSize r.size + 8 ≤ pgRoundup (mallocSize r.size) →
        load32 s'.mem (r.answer + mallocSize r.size) =
          0x100000000 - (pgRoundup (mallocSize r.size) - mallocSize r.size)) := by
  obtain ⟨four, _, upper, whole⟩ := mallocSize_spec small
  obtain ⟨aligned, bound, _, head⟩ := fresh
  have le := le_pgRoundup (x := mallocSize r.size) (by omega)
  simp only [malloc, if_pos empty]
  generalize mallocSize r.size = sz at *
  generalize r.answer = a at *
  have place : u32 (a + sz) = a + sz := u32_of_lt (by omega)
  have result : u32 (a + 4) = a + 4 := u32_of_lt (by omega)
  rw [place, result]
  refine ⟨_, rfl, rfl, .first ?_ (by omega), fun room => ?_⟩
  · rw [load32_store32_of_apart _ (by omega), slistInsertHead, load32_store32_same]
    omega
  · rw [load32_store32_of_apart _ (by omega), slistInsertHead, load32_store32_of_apart _ (by omega),
      load32_store32_of_apart _ (by omega), load32_store32_same]
    simp only [u32]
    omega

theorem malloc_first_not_good {heap : Nat} {m : Mem} {r : Request} (empty : load32 m heap = 0)
    (small : r.size < 0x80000000) (fresh : FreshRegion heap [] r.answer (pgRoundup (mallocSize r.size)))
    {s' : UserHeap} (done : mallocs heap (.start m) [r] = .ok s') : ¬ s'.Good heap := by
  intro good
  obtain ⟨s₁, first, regions, node, size⟩ := malloc_first (s := .start m) empty small fresh
  have run : mallocs heap (.start m) [r] = .ok s₁ := by
    rw [mallocs, first]
    rfl
  rw [run] at done
  cases done
  obtain ⟨_, _, upper, _⟩ := mallocSize_spec small
  have bound := fresh.bound
  have rounded := pgRoundup_lt (x := mallocSize r.size) (by omega)
  -- every byte of the node and of its recorded size would be a byte of the region
  have inside : ∀ x, r.answer + mallocSize r.size ≤ x →
      x < r.answer + mallocSize r.size + max 8 (load32 s'.mem (r.answer + mallocSize r.size)) →
      x < r.answer + pgRoundup (mallocSize r.size) := by
    intro x lo hi
    obtain ⟨b, mem, _, below⟩ := (good.nodes _ node x lo hi).1
    rw [regions] at mem
    rw [List.mem_singleton.mp mem] at below
    exact below
  by_cases room : mallocSize r.size + 8 ≤ pgRoundup (mallocSize r.size)
  · have last := inside (r.answer + pgRoundup (mallocSize r.size)) (by omega) (by rw [size room]; omega)
    omega
  · have last := inside (r.answer + mallocSize r.size + 7) (by omega) (by omega)
    omega

/-- The heap is as it should be only until `malloc` is called: for every sequence of
calls the heap is good in all states it reaches exactly when there is no call. -/
theorem malloc_good_iff {heap : Nat} {m : Mem} {reqs : List Request} (empty : load32 m heap = 0)
    (small : ∀ r ∈ reqs, r.size < 0x80000000) (answered : Answered heap (.start m) reqs) :
    (∀ pre, pre <+: reqs → ∃ s, mallocs heap (.start m) pre = .ok s ∧ s.Good heap) ↔ reqs = [] := by
  constructor
  · intro good
    cases reqs with
    | nil => rfl
    | cons r rest =>
        obtain ⟨s, done, ok⟩ := good [r] ⟨rest, rfl⟩
        exact absurd ok (malloc_first_not_good empty (small r List.mem_cons_self) (answered.1 empty) done)
  · intro none pre below
    rw [none, List.prefix_nil] at below
    subst below
    exact ⟨_, rfl, UserHeap.start_good empty⟩

/-- A list head at `0x5000` and a page at `0x10000`. -/
theorem malloc_good_iff_one_call :
    load32 (fun _ => 0) 0x5000 = 0 ∧
      ((∀ pre, pre <+: [(⟨16, 0x10000⟩ : Request)] →
        ∃ s, mallocs 0x5000 (.start fun _ => 0) pre = .ok s ∧ s.Good 0x5000) ↔
      [(⟨16, 0x10000⟩ : Request)] = []) := by
  have region : FreshRegion 0x5000 [] 0x10000 (pgRoundup (mallocSize 16)) :=
    ⟨by decide, by decide, fun b none => absurd none List.not_mem_nil, by decide⟩
  have small : ∀ r ∈ [(⟨16, 0x10000⟩ : Request)], r.size < 0x80000000 := by
    intro r mem
    rw [List.mem_singleton.mp mem]
    decide
  exact ⟨by decide, malloc_good_iff (by decide) small ⟨fun _ => region, fun _ _ _ => trivial⟩⟩

/-- The node behind the first block claims nearly 4 GiB. -/
theorem malloc_beyond_region :
    ∃ s, mallocs 0x5000 (.start fun _ => 0) [⟨16, 0x10000⟩] = .ok s ∧
      s.regions = [⟨0x10000, 0x1000⟩] ∧ OnList s.mem 0x5000 0x10014 ∧
      load32 s.mem 0x10014 = 0xFFFFF014 ∧ ¬ s.Good 0x5000 := by
  have run : ((mallocs 0x5000 (.start fun _ => 0) [⟨16, 0x10000⟩]).toOption.map
      fun s => (s.regions, load32 s.mem 0x5000, load32 s.mem 0x10014)) =
      some ([⟨0x10000, 0x1000⟩], 0x10014, 0xFFFFF014) := by decide +kernel
  obtain ⟨s, done, values⟩ := Option.map_eq_some_iff.mp run
  obtain ⟨regions, values⟩ := Prod.mk.inj values
  obtain ⟨first, size⟩ := Prod.mk.inj values
  have node : OnList s.mem 0x5000 0x10014 := .first first (by decide)
  refine ⟨s, ok_of_toOption done, regions, node, size, fun good => ?_⟩
  obtain ⟨b, mem, _, below⟩ := (good.nodes 0x10014 node 0x11000 (by decide) (by rw [size]; decide)).1
  rw [regions] at mem
  rw [List.mem_singleton.mp mem] at below
  exact absurd below (by decide)

end Trunix.Libc
