import Trunix.Kernel.Leaks

/-!
# Calls that give up

What `sys_fork` and `sys_mmap` leave behind when they report failure, or when they should
have.  Neither looks at what `kmalloc` returns, and neither gives back what it has taken
before it gives up.
-/

set_option autoImplicit false

namespace Trunix

open Trunix.Lib

/-! ## `sys_fork` -/

structure Kernel.Unforked (k k' : Kernel) : Prop where
  free : k'.store.free.Perm k.store.free
  heap : k'.store.heap.Perm k.store.heap
  pid : k'.pid = k.pid
  memtab : k'.memtab = k.memtab
  queue : ∀ Q, k.queue.Holds Q → k'.queue.Holds Q

/-- What `copykvm` writes when it gets no page and the first page is mapped to `pd`. -/
def copykvmNull (kpagedir pd : Nat) (m : Mem) : Mem :=
  let m := fill m pd 0x1000 0
  let half := kernelOffset / 0x400000
  blit m (pd + 4 * half) (4 * (1024 - half)) (fun i => m (kpagedir + 4 * half + i))

/-- `sys_fork` as far as it may return -1: for want of a block for the copy of the memory, or for
want of a directory.  The second test is reached only where the first page is mapped, since
`copykvm` makes no test. -/
def forkGivesUp (env : Env) (k : Kernel) : Except Halt (Option Kernel) := do
  let (n, k) ← procCreate k
  let k := k.setProc n { k.procs n with pid := k.pid }
  let k := { k with pid := u32 (k.pid + 1) }
  let (mem, s) := k.store.allocPages (k.memtab k.proc.pid).sz
  let k := { k with store := s }
  if mem = 0 then return some k
  else
    let (pd, s) := k.store.allocPages 0x1000
    if pd ≠ 0 then return none
    else
      match walk k.store.mem (p2v k.cr3) 0 with
      | none => .error .fault
      | some pa => return some { k with store := { s with mem := copykvmNull env.kpagedir (p2v pa) s.mem } }

/-- Behind its two tests `sys_fork` returns the number of the child. -/
theorem givesUp_of_sysFork {env : Env} {k k' : Kernel} (failed : sysFork env k = .ok (-1, k')) :
    forkGivesUp env k = .ok (some k') := by
  rw [sysFork] at failed
  obtain ⟨⟨n, k₁⟩, created, after⟩ := bind_eq_ok.mp failed
  rw [forkGivesUp, created, ok_bind]
  simp only at after ⊢
  split at after
  · rename_i full
    rw [if_pos full]
    cases after
    rfl
  · obtain ⟨_, _, after⟩ := bind_eq_ok.mp after
    obtain ⟨_, _, after⟩ := bind_eq_ok.mp after
    obtain ⟨k₂, _, after⟩ := bind_eq_ok.mp after
    obtain ⟨k₃, _, result⟩ := bind_eq_ok.mp after
    have minus := congrArg Prod.fst (Except.ok.inj result)
    simp only at minus
    omega

/-- Where the first page is not mapped, the first test is the only one that counts. -/
theorem sysFork_of_givesUp {env : Env} {k k' : Kernel} (gaveUp : forkGivesUp env k = .ok (some k'))
    (unmapped : ∀ n k₁, procCreate k = .ok (n, k₁) → ¬ k₁.NullMapped) : sysFork env k = .ok (-1, k') := by
  rw [forkGivesUp] at gaveUp
  obtain ⟨⟨n, k₁⟩, created, after⟩ := bind_eq_ok.mp gaveUp
  have none : walk k₁.store.mem (p2v k₁.cr3) 0 = none :=
    Option.not_isSome_iff_eq_none.mp (unmapped n k₁ created)
  rw [sysFork, created, ok_bind]
  simp only at after ⊢
  split at after
  · rename_i full
    rw [if_pos full]
    cases after
    rfl
  · split at after
    · cases after
    · simp only [Kernel.setProc, (Store.allocPages_mem _ _).1, none] at after
      cases after

def Kernel.childDir (k : Kernel) : Nat :=
  (((k.store.allocPages kstackSize).2.allocPages (k.memtab k.proc.pid).sz).2.allocPages 0x1000).1

section Fork

variable {init : List Block} {env : Env} {k k' : Kernel}

theorem procCreate_served (sound : k.store.Sound init) (page : (k.store.allocPages kstackSize).1 ≠ 0) :
    ∃ kstack s frames, k.store.Took init kstack s ∧ procCreate k = .ok (kstack + 3992, { k with
      store := s
      procs := Function.update k.procs (kstack + 3992) (newProc kstack)
      frames := frames }) := by
  have alloc := sound.alloc kstackSize
  have threads : ∃ n k₁, allocThread k = .ok (n, k₁) := by
    rw [allocThread]
    generalize taken : k.store.allocPages kstackSize = result at alloc page
    cases alloc with
    | none => exact absurd rfl page
    | zero a free nothing => exact absurd nothing (by decide)
    | some a free pos fits sound' =>
        have paged := sound'.paged List.mem_cons_self
        simp only at paged
        have mapped : touch a kstackSize = .ok () := by
          rw [touch, if_neg (by omega)]
        simp only [if_neg page, Store.memset, mapped, ok_bind]
        exact ⟨_, _, rfl⟩
  obtain ⟨n, k₁, made⟩ := threads
  obtain ⟨n, k₂, created⟩ : ∃ n k₂, procCreate k = .ok (n, k₂) := by
    rw [procCreate, made]
    exact ⟨_, _, rfl⟩
  obtain ⟨kstack, s, took, rfl, same⟩ := procCreate_spec sound created
  exact ⟨kstack, s, k₂.frames, took, by rw [created, ← same]⟩

theorem Store.Took.walk_eq {s : Store} {kstack pd va : Nat} (took : k.store.Took init kstack s)
    (dir : PageDir k.store pd) (user : va < 0x80000000) :
    walk s.mem pd va = walk k.store.mem pd va := by
  apply walk_of_frame took.frame user
  intro x inTables inStack
  obtain ⟨b, given, inBlock⟩ := dir.mem_block inTables
  have ne : b ≠ ⟨kstack, 0x1000⟩ := fun same => took.fresh (same ▸ given)
  have apart := took.sound.apart_of_ne (took.grows.given _ given)
    (took.given ▸ List.mem_cons_self : (⟨kstack, 0x1000⟩ : Block) ∈ s.given) ne
  simp only [Block.Apart] at apart
  simp only [page, Set.mem_Ico] at inStack
  omega

/-- Whenever `sys_fork` returns -1, something is lost; so it keeps its word exactly when
it does not come to that. -/
theorem fork_restores_iff (sound : k.store.Sound init) (home : k.Home k.curthread)
    (dir : PageDir k.store (p2v k.cr3)) :
    (∀ k', forkGivesUp env k = .ok (some k') → k.Unforked k') ↔
      (k.store.allocPages kstackSize).1 = 0 ∨
        k.childMem ≠ 0 ∧ (k.childDir ≠ 0 ∨ ¬ k.NullMapped) := by
  by_cases page : (k.store.allocPages kstackSize).1 = 0
  · have stopped : forkGivesUp env k = .error .assertion := by
      simp only [forkGivesUp, procCreate, allocThread, page, if_true, error_bind]
    refine ⟨fun _ => Or.inl page, fun _ k' gaveUp => ?_⟩
    rw [stopped] at gaveUp
    cases gaveUp
  obtain ⟨kstack, s, frames, took, created⟩ := procCreate_served sound page
  have ne := took.ne_home home
  -- the answers of `alloc_pages` are those of the free list after the first page
  obtain ⟨memEq, freeEq⟩ := Store.allocPages_same took.free (k.memtab k.proc.pid).sz
  have dirEq := (Store.allocPages_same freeEq 0x1000).1
  have bytes := (Store.allocPages_mem s (k.memtab (k.procs k.curthread).pid).sz).1
  have mapped := took.walk_eq dir (show 0 < 0x80000000 by decide)
  have number : ¬ u32 (k.pid + 1) = k.pid := by
    rw [u32]
    omega
  rw [forkGivesUp, created, ok_bind, Kernel.childMem, Kernel.childDir, ← memEq, ← dirEq, Kernel.NullMapped,
    ← mapped]
  simp only [Kernel.setProc, Kernel.proc, Function.update_of_ne ne, page, false_or, bytes]
  by_cases full : (s.allocPages (k.memtab (k.procs k.curthread).pid).sz).1 = 0
  · -- the page of the new process and its number are gone
    rw [if_pos full]
    refine ⟨fun restores => absurd (restores _ rfl).pid number, fun supplied => absurd full supplied.1⟩
  rw [if_neg full]
  by_cases directory :
      ((s.allocPages (k.memtab (k.procs k.curthread).pid).sz).2.allocPages 0x1000).1 = 0
  · rw [if_neg (not_not.mpr directory)]
    cases first : walk s.mem (p2v k.cr3) 0 with
    | none => exact ⟨fun _ => ⟨full, Or.inr (by decide)⟩, fun _ k' gaveUp => by cases gaveUp⟩
    | some pa =>
        refine ⟨fun restores => absurd (restores _ rfl).pid number, fun supplied => ?_⟩
        exact absurd rfl (supplied.2.resolve_left (not_not.mpr directory))
  · rw [if_pos directory]
    exact ⟨fun _ => ⟨full, Or.inl directory⟩, fun _ k' gaveUp => by cases gaveUp⟩

end Fork

def wholeSegment : Proghdr := ⟨1, 84, 0x400000, 8, 0xB000⟩

def tightKernel : Kernel :=
  { smallKernel with store := { smallKernel.store with
      free := [⟨0x80001000, 0xA000⟩, ⟨0x80100000, 0xB000⟩, ⟨0x80400000, 0xC000⟩] } }

theorem fork_loses_page : ∃ k₁ k k',
    initsys (smallEnv wholeSegment) tightKernel = .ok k₁ ∧ initSched k₁ 0 = .ok k ∧
      sysFork (smallEnv wholeSegment) k = .ok (-1, k') ∧ ¬ k.Unforked k' := by
  have all : (initsys (smallEnv wholeSegment) tightKernel >>= fun k₁ => initSched k₁ 0 >>= fun k =>
      sysFork (smallEnv wholeSegment) k >>= fun r => .ok (r.1, decide (r.2.pid = k.pid))) =
      .ok (-1, false) :=
    ok_of_toOption (by decide +kernel)
  obtain ⟨k₁, booted, all⟩ := bind_eq_ok.mp all
  obtain ⟨k, scheduled, all⟩ := bind_eq_ok.mp all
  obtain ⟨⟨r, k'⟩, forked, same⟩ := bind_eq_ok.mp all
  obtain ⟨minus, number⟩ := Prod.mk.inj (Except.ok.inj same)
  dsimp only at minus number
  subst minus
  exact ⟨k₁, k, k', booted, scheduled, forked, fun restored => of_decide_eq_false number restored.pid⟩

/-- The first process of the small machine forks without loss. -/
theorem fork_restores_first : ∃ k, smallBoot alignedSegment = .ok k ∧
    ∀ k', forkGivesUp (smallEnv alignedSegment) k = .ok (some k') → k.Unforked k' := by
  have all : (smallBoot alignedSegment >>= fun k => (.ok (decide
      (k.cr3 = k.proc.cr3 ∧ k.childMem ≠ 0 ∧ k.childDir ≠ 0)) : Except Halt Bool)) = .ok true :=
    ok_of_toOption (by decide +kernel)
  obtain ⟨k, boot, values⟩ := bind_eq_ok.mp all
  obtain ⟨current, block, directory⟩ := of_decide_eq_true (Except.ok.inj values)
  obtain ⟨k₁, booted, scheduled⟩ := bind_eq_ok.mp boot
  have started := boot_started smallKernel_atBoot booted scheduled
  obtain ⟨root, sched⟩ := started.scheduled
  have accounted := started.accounted smallKernel_atBoot smallKernel_tables smallEnv_gapless
  have home := sched.homes _ (List.mem_cons_of_mem _ sched.mem_created)
  have dir : PageDir k.store (p2v k.cr3) := by
    rw [current]
    exact accounted.ledger.separate.dirs _ sched.mem_created
  exact ⟨k, boot, (fork_restores_iff sched.sound home dir).mpr (Or.inr ⟨block, Or.inl directory⟩)⟩

/-! ## `sys_mmap` -/

structure Kernel.Unmapped (k k' : Kernel) : Prop where
  free : k'.store.free = k.store.free
  heap : k'.store.heap = k.store.heap
  regions : (k'.memtab k.proc.pid).regions = (k.memtab k.proc.pid).regions
  walks : ∀ va, walk k'.store.mem (p2v k.proc.cr3) va = walk k.store.mem (p2v k.proc.cr3) va
  mmapBase : k'.proc.mmapBase = k.proc.mmapBase

inductive Kernel.CannotMap (k : Kernel) (len flags fd : Nat) : Prop where
  | empty (none : len = 0)
  | room (full : mmapLimit ≤ k.proc.mmapBase + (len + 0xFFF) / 0x1000 * 0x1000)
  | heap (none : ∀ b ∈ k.store.heap, b.sz < kmallocSize 16)
  | block (anon : flags &&& mapAnon ≠ 0) (none : ∀ b ∈ k.store.free, b.sz < pgRoundup len)
  | file (device : flags &&& mapAnon = 0) (closed : ∀ inside : fd < maxfiles, k.proc.ofile ⟨fd, inside⟩ = 0)

def Kernel.RefusesMap (env : Env) (k : Kernel) (len flags fd : Nat) : Prop :=
  ∃ a k', sysMmap env k len flags fd = .ok (a, k') ∧ (a = 0 ∨ a = 0xFFFFFFFF) ∧ k.Unmapped k'

theorem Kernel.Unmapped.refl (k : Kernel) : k.Unmapped k := ⟨rfl, rfl, rfl, fun _ => rfl, rfl⟩

theorem Store.kmalloc_kept {s s' : Store} {sz p : Nat} (pos : 0 < kmallocSize sz)
    (done : s.kmalloc sz = .ok (p, s')) (same : s'.heap = s.heap) :
    ∀ b ∈ s.heap, b.sz < kmallocSize sz := by
  rw [Store.kmalloc] at done
  split at done
  · cases done
  · rcases cutFit_eq (n := kmallocSize sz) s.heap with ⟨_, none⟩ | ⟨pre, b, post, split, fit, _, cut⟩
    · exact takeFit_eq_none.mp none
    · rw [cut] at done
      cases done
      have heaps : pre ++ (cutRest (kmallocSize sz) b ++ post) = pre ++ b :: post := same.trans split
      have rest := List.append_cancel_left heaps
      rw [cutRest] at rest
      split at rest
      · have sizes := congrArg Block.sz (List.cons.inj rest).1
        simp only [Block.rest] at sizes
        omega
      · have lengths := congrArg List.length rest
        simp at lengths

theorem Store.kmalloc_full {s : Store} {sz : Nat} (small : kmallocSize sz < 0x1000)
    (none : ∀ b ∈ s.heap, b.sz < kmallocSize sz) : s.kmalloc sz = .ok (0, s) := by
  rw [Store.kmalloc, if_neg (not_not.mpr small)]
  rcases cutFit_eq (n := kmallocSize sz) s.heap with ⟨nothing, _⟩ | ⟨pre, b, post, split, fit, _, _⟩
  · rw [nothing]
  · have tooSmall := none b (by rw [split]; simp)
    omega

theorem backing_none {env : Env} {k : Kernel} {len flags fd mem : Nat}
    (done : backing env k len flags fd mem = .ok none) :
    flags &&& mapAnon = 0 ∧ ∃ inside : fd < maxfiles, k.proc.ofile ⟨fd, inside⟩ = 0 := by
  rw [backing] at done
  split at done
  · obtain ⟨_, _, later⟩ := bind_eq_ok.mp done
    obtain ⟨_, _, result⟩ := bind_eq_ok.mp later
    cases result
  · rename_i device
    refine ⟨not_not.mp device, ?_⟩
    split at done
    · rename_i inside
      simp only at done
      split at done
      · rename_i closed
        exact ⟨inside, closed⟩
      · split at done
        · cases done
        · obtain ⟨_, _, result⟩ := bind_eq_ok.mp done
          cases result
        · cases done
    · cases done

/-- Behind the two tests at its beginning `sys_mmap` gives up without a trace only when the
heap was empty and the descriptor is not open. -/
theorem refusesMap_late {env : Env} {k : Kernel} {len flags fd : Nat} (nonzero : len ≠ 0)
    (room : ¬ mmapLimit ≤ u32 (k.proc.mmapBase + pgRoundup len))
    (refuses : k.RefusesMap env len flags fd) :
    flags &&& mapAnon = 0 ∧ (∃ inside : fd < maxfiles, k.proc.ofile ⟨fd, inside⟩ = 0) ∧
      ∀ b ∈ k.store.heap, b.sz < kmallocSize 16 := by
  obtain ⟨a, k', done, _, unmapped⟩ := refuses
  rw [sysMmap, if_neg nonzero] at done
  simp only [if_neg room] at done
  obtain ⟨⟨mem, s⟩, allocated, afterAlloc⟩ := bind_eq_ok.mp done
  obtain ⟨backed, found, afterBacking⟩ := bind_eq_ok.mp afterAlloc
  cases backed with
  | none =>
      cases afterBacking
      obtain ⟨device, closed⟩ := backing_none found
      exact ⟨device, closed, Store.kmalloc_kept (by decide) allocated unmapped.heap⟩
  | some pair =>
      obtain ⟨pa, k₁⟩ := pair
      obtain ⟨s₁, _, rfl⟩ := backing_cases found
      obtain ⟨s₂, _, result⟩ := bind_eq_ok.mp afterBacking
      cases result
      -- the new region is in the list
      have longer := congrArg List.length unmapped.regions
      simp [Kernel.setMemtab, Kernel.setProc, Kernel.proc] at longer

/-- A mapping that cannot be made is refused exactly by the two tests at the beginning, or
when the lost list node could not be allocated in the first place. -/
theorem mmap_refuses_iff {env : Env} {k : Kernel} {len flags fd : Nat} :
    (k.CannotMap len flags fd → k.RefusesMap env len flags fd) ↔
      ¬ k.CannotMap len flags fd ∨ len = 0 ∨ mmapLimit ≤ u32 (k.proc.mmapBase + pgRoundup len) ∨
        flags &&& mapAnon = 0 ∧ (∃ inside : fd < maxfiles, k.proc.ofile ⟨fd, inside⟩ = 0) ∧
          ∀ b ∈ k.store.heap, b.sz < kmallocSize 16 := by
  constructor
  · intro refuses
    by_cases cannot : k.CannotMap len flags fd
    · right
      by_cases zero : len = 0
      · exact Or.inl zero
      · right
        by_cases full : mmapLimit ≤ u32 (k.proc.mmapBase + pgRoundup len)
        · exact Or.inl full
        · exact Or.inr (refusesMap_late zero full (refuses cannot))
    · exact Or.inl cannot
  · rintro (can | zero | full | ⟨device, ⟨inside, closed⟩, none⟩) cannot
    · exact absurd cannot can
    · exact ⟨0, k, by rw [sysMmap, if_pos zero], Or.inl rfl, .refl k⟩
    · refine ⟨0, k, ?_, Or.inl rfl, .refl k⟩
      rw [sysMmap]
      split
      · rfl
      · simp only [if_pos full]
    · by_cases early : len = 0 ∨ mmapLimit ≤ u32 (k.proc.mmapBase + pgRoundup len)
      · refine ⟨0, k, ?_, Or.inl rfl, .refl k⟩
        rw [sysMmap]
        rcases early with zero | full
        · rw [if_pos zero]
        · simp only [if_pos full, ite_self]
      · obtain ⟨nonzero, room⟩ := not_or.mp early
        refine ⟨0xFFFFFFFF, k, ?_, Or.inr rfl, .refl k⟩
        have nothing : k.store.kmalloc 16 = .ok (0, k.store) := Store.kmalloc_full (by decide) none
        rw [sysMmap, if_neg nonzero]
        simp only [if_neg room, nothing, ok_bind, backing, device, ne_eq, not_true_eq_false, if_false,
          dif_pos inside]
        rw [if_pos closed]
        rfl

/-- A descriptor that is not open costs a piece of the kernel heap. -/
theorem mmap_loses_node : ∃ k, smallBoot alignedSegment = .ok k ∧
    k.CannotMap 1 0 3 ∧ ¬ k.RefusesMap (smallEnv alignedSegment) 1 0 3 := by
  obtain ⟨k, boot⟩ := exists_eq_ok (x := smallBoot alignedSegment) (by decide +kernel)
  have state : (smallBoot alignedSegment).toOption.map (fun k => (decide (k.proc.ofile ⟨3, by decide⟩ = 0),
      decide (mmapLimit ≤ u32 (k.proc.mmapBase + pgRoundup 1)),
      decide (∀ b ∈ k.store.heap, b.sz < kmallocSize 16))) = some (true, false, false) := by
    decide +kernel
  rw [boot] at state
  obtain ⟨closed, rest⟩ := Prod.mk.inj (Option.some.inj state)
  obtain ⟨room, node⟩ := Prod.mk.inj rest
  refine ⟨k, boot, .file rfl fun _ => of_decide_eq_true closed, fun refuses => ?_⟩
  have late := refusesMap_late (by decide) (of_decide_eq_false room) refuses
  exact of_decide_eq_false node late.2.2

end Trunix
