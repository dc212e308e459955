import Trunix.Lib.Stores
import Trunix.Kernel.Half
import Trunix.Kernel.Inherit
import Trunix.Kernel.RoundRobin

/-!
# Copies that run over a process

Every process lies in memory, at the top of its kernel stack.  A forked child has the size 0
recorded, so a fork of it takes no block: the regions are copied to where the free list
begins, and over what lies behind.  Here `sys_fork` runs with the processes in memory: the
fork of a child overwrites the first process.
-/

set_option autoImplicit false

namespace Trunix

open Trunix.Lib

/-! ## `struct proc` in memory -/

def PState.code : PState → Nat
  | .running => 0
  | .ready => 1
  | .sleeping => 2
  | .blocked => 3
  | .dead => 4

/-- Other words than these are compared with `RUNNING` and `READY` only. -/
def PState.ofCode : Nat → PState
  | 0 => .running
  | 1 => .ready
  | 2 => .sleeping
  | 3 => .blocked
  | _ => .dead

theorem PState.ofCode_code (s : PState) : ofCode s.code = s := by cases s <;> rfl

/-- The place of a link; `queue` is the address of the head. -/
def linkAddr (queue : Nat) : TailqRef → Nat
  | .null => 0
  | .head => queue
  | .next p => p + 96

def linkAt (queue a : Nat) : TailqRef :=
  if a = 0 then .null else if a = queue then .head else .next (a - 96)

def Proc.word (queue : Nat) (p : Proc) : Nat → Nat
  | 0 => p.pid
  | 1 => p.cr3
  | 2 => p.kstack
  | 3 => p.mmapBase
  | 5 => p.tf
  | 22 => p.state.code
  | 23 => p.parent
  | 24 => p.entries.next
  | 25 => linkAddr queue p.entries.prev
  | i => if open' : i - 6 < maxfiles then p.ofile ⟨i - 6, open'⟩ else 0

/-- The words that `Proc` keeps; the fifth is the saved context. -/
def procWords : List Nat := (List.range 26).filter (· ≠ 4)

def Proc.stores (queue a : Nat) (p : Proc) : List (Nat × Nat) :=
  procWords.map fun i => (a + 4 * i, p.word queue i)

def Proc.load (queue : Nat) (m : Mem) (a : Nat) : Proc where
  pid := load32 m a
  cr3 := load32 m (a + 4 * 1)
  kstack := load32 m (a + 4 * 2)
  mmapBase := load32 m (a + 4 * 3)
  tf := load32 m (a + 4 * 5)
  ofile := fun fd => load32 m (a + 4 * (fd.val + 6))
  state := .ofCode (load32 m (a + 4 * 22))
  parent := load32 m (a + 4 * 23)
  entries := ⟨load32 m (a + 4 * 24), linkAt queue (load32 m (a + 4 * 25))⟩

/-- The fields are words, and the head of the queue is no field of the process. -/
structure Proc.Fits (queue : Nat) (p : Proc) : Prop where
  words : ∀ i ∈ procWords, p.word queue i < 0x100000000
  head : queue ≠ 0
  links : ∀ q, p.entries.prev = .next q → q + 96 ≠ queue

theorem linkAt_linkAddr {queue : Nat} {p : Proc} (fits : p.Fits queue) :
    linkAt queue (linkAddr queue p.entries.prev) = p.entries.prev := by
  have head := fits.head
  cases place : p.entries.prev with
  | null => rfl
  | head => simp only [linkAddr, linkAt, if_neg head, if_true]
  | next q =>
      have other := fits.links q place
      simp only [linkAddr, linkAt, if_neg other, Nat.add_eq_zero_iff, Nat.reduceEqDiff, and_false, if_false,
        Nat.add_sub_cancel]

theorem Proc.load_of_words {queue a : Nat} {p : Proc} {m : Mem} (fits : p.Fits queue)
    (words : ∀ i ∈ procWords, load32 m (a + 4 * i) = p.word queue i % 0x100000000) :
    Proc.load queue m a = p := by
  have each : ∀ i ∈ procWords, load32 m (a + 4 * i) = p.word queue i := fun i mem =>
    (words i mem).trans (Nat.mod_eq_of_lt (fits.words i mem))
  have files : ∀ fd : Fin maxfiles, load32 m (a + 4 * (fd.val + 6)) = p.ofile fd := by
    intro fd
    have small : fd.val < 16 := fd.isLt
    rw [each (fd.val + 6) (by simp only [procWords, List.mem_filter, List.mem_range]; grind)]
    have inside : fd.val + 6 - 6 < maxfiles := fd.isLt
    have word : p.word queue (fd.val + 6) = p.ofile ⟨fd.val + 6 - 6, inside⟩ := by
      obtain ⟨n, lt⟩ := fd
      interval_cases n <;> rfl
    exact word
  have first : load32 m a = p.pid := each 0 (by decide)
  have place := linkAt_linkAddr fits
  obtain ⟨pid, cr3, kstack, mmapBase, tf, ofile, state, parent, next, prev⟩ := p
  simp only [Proc.load, first, files, each 1 (by decide), each 2 (by decide), each 3 (by decide),
    each 5 (by decide), each 22 (by decide), each 23 (by decide), each 24 (by decide), each 25 (by decide)]
  simp only [Proc.word, PState.ofCode_code, place]

/-! ## `sys_fork` with the processes in memory -/

def Kernel.threads (k : Kernel) (n : Nat) : List Nat := n :: k.idle :: k.created

def Kernel.spill (queue n : Nat) (k : Kernel) : Kernel :=
  { k with store := { k.store with
    mem := storeAll ((k.threads n).flatMap fun p => (k.procs p).stores queue p) k.store.mem } }

def Kernel.reload (queue n : Nat) (k : Kernel) : Kernel :=
  { k with procs := fun p => if p ∈ k.threads n then Proc.load queue k.store.mem p else k.procs p }

/-- `sysFork`, with `before` and `after` around its loop over the regions. -/
def sysForkWith (before after : Nat → Kernel → Kernel) (env : Env) (k : Kernel) :
    Except Halt (Int × Kernel) := do
  let (n, k) ← procCreate k
  let k := k.setProc n { k.procs n with pid := k.pid }
  let k := { k with pid := u32 (k.pid + 1) }
  let (mem, s) := k.store.allocPages (k.memtab k.proc.pid).sz
  let k := { k with store := s }
  if mem = 0 then return (-1, k)
  else
    let (pd, s) ← copykvm env.kpagedir k.store
    let child := (k.procs n).pid
    let k := before n { k with store := s }
    let (regions, s) ← copyRegions pd (k.memtab k.proc.pid).regions mem (k.memtab child).regions k.store
    let k := after n { k with store := s }
    let k := k.setMemtab child { k.memtab child with regions := regions }
    let k := k.setProc n { k.procs n with parent := k.curthread, cr3 := v2p pd }
    let k := k.setFrame (k.procs n).tf { k.frames k.proc.tf with eax := 0 }
    let k ← copyFiles k.proc n (List.finRange maxfiles) k
    let k ← enqueue k n
    return ((k.procs n).pid, { k with created := k.created ++ [n] })

theorem sysForkWith_id (env : Env) (k : Kernel) :
    sysForkWith (fun _ k => k) (fun _ k => k) env k = sysFork env k := rfl

/-- Processes on different stacks that nobody writes to are what they were. -/
theorem Kernel.reload_spill {queue n : Nat} {k : Kernel}
    (fits : ∀ p ∈ k.threads n, (k.procs p).Fits queue)
    (apart : ∀ p ∈ k.threads n, ∀ q ∈ k.threads n, p = q ∨ p + sizeofProc ≤ q ∨ q + sizeofProc ≤ p) :
    (k.spill queue n).reload queue n = k.spill queue n := by
  let all := (k.threads n).flatMap fun p => (k.procs p).stores queue p
  have size : sizeofProc = 104 := rfl
  have stored : ∀ s, s ∈ all ↔
      ∃ p ∈ k.threads n, ∃ i ∈ procWords, (p + 4 * i, (k.procs p).word queue i) = s := by
    intro s
    simp only [all, List.mem_flatMap, Proc.stores, List.mem_map]
  have index : ∀ i ∈ procWords, i < 26 := by decide
  have coherent : Coherent all := by
    intro s mem t mem'
    obtain ⟨p, thread, i, word, rfl⟩ := (stored s).mp mem
    obtain ⟨q, thread', j, word', rfl⟩ := (stored t).mp mem'
    have lo := index i word
    have hi := index j word'
    rcases apart p thread q thread' with rfl | away
    · by_cases same : i = j
      · exact Or.inl (by rw [same])
      · right
        simp only
        omega
    · right
      simp only
      omega
  have same : ∀ p, (if p ∈ k.threads n then Proc.load queue (storeAll all k.store.mem) p else k.procs p) =
      k.procs p := by
    intro p
    split
    · rename_i thread
      refine Proc.load_of_words (fits p thread) fun i word => ?_
      exact coherent.load_eq k.store.mem ((stored _).mpr ⟨p, thread, i, word, rfl⟩)
    · rfl
  have procs := funext same
  simp only [Kernel.reload]
  congr 1

/-! ## A child that forks -/

end Trunix
