import Trunix.Kernel.Grows

/-!
# New processes

What `alloc_thread`, `proc_create`, `kthread_create` and `sys_fork` do to the kernel, as
equations for the state they return.
-/

set_option autoImplicit false

namespace Trunix

open Trunix.Lib

structure Store.Took (init : List Block) (a : Nat) (s s' : Store) : Prop where
  sound : s'.Sound init
  given : s'.given = ⟨a, 0x1000⟩ :: s.given
  free : s'.free = (s.allocPages kstackSize).2.free
  heap : s'.heap = s.heap
  frame : Frame s.mem s'.mem (page a)

theorem Store.Took.fresh {init : List Block} {a : Nat} {s s' : Store} (h : s.Took init a s') :
    (⟨a, 0x1000⟩ : Block) ∉ s.given := by
  intro mem
  have apart := h.sound.apart
  rw [h.given] at apart
  have self := (List.pairwise_cons.mp apart).1 _ mem
  simp only [Block.Apart] at self
  omega

theorem Store.Took.grows {init : List Block} {a : Nat} {s s' : Store} (h : s.Took init a s') :
    s.Grows init s' :=
  ⟨h.sound, fun _ mem => h.given ▸ List.mem_cons_of_mem _ mem⟩

/-! ## Threads -/

/-- A process lies at the top of a page of its own. -/
def Kernel.Home (k : Kernel) (p : Nat) : Prop :=
  ∃ kstack, p = kstack + 3992 ∧ (⟨kstack, 0x1000⟩ : Block) ∈ k.store.given

theorem allocThread_spec {init : List Block} {k k' : Kernel} {p : Nat} (sound : k.store.Sound init)
    (done : allocThread k = .ok (p, k')) :
    ∃ kstack s, k.store.Took init kstack s ∧ p = kstack + 3992 ∧
      k' = { k with
        store := s
        procs := Function.update k.procs p { Proc.zero with kstack := kstack, tf := kstack + 3924 }
        frames := Function.update k.frames (kstack + 3924) .zero } := by
  have alloc := sound.alloc kstackSize
  have page : pgRoundup kstackSize = 0x1000 := by decide
  rw [allocThread] at done
  generalize taken : k.store.allocPages kstackSize = result at alloc done
  cases alloc with
  | none _ => cases done
  | zero a free nothing _ _ => exact absurd nothing (by decide)
  | some a free pos _ sound' =>
      rw [page] at sound' done
      have paged := sound'.paged (List.mem_cons_self : _ ∈ (⟨a, 0x1000⟩ :: k.store.given : List Block))
      simp only at paged
      have nonnull : a ≠ 0 := by omega
      simp only [if_neg nonnull] at done
      obtain ⟨s, cleared, result⟩ := bind_eq_ok.mp done
      have mapped : touch a kstackSize = .ok () := by
        rw [touch, if_neg (by omega)]
      rw [Store.memset, mapped, ok_bind] at cleared
      cases cleared
      have place : a + kstackSize - sizeofProc = a + 3992 := by
        have size : kstackSize = 4096 := rfl
        have proc : sizeofProc = 104 := rfl
        omega
      have frame : a + 3992 - sizeofTrapframe = a + 3924 := by
        have size : sizeofTrapframe = 68 := rfl
        omega
      simp only [place, frame, Kernel.setProc, Kernel.setFrame] at result
      cases result
      refine ⟨a, ⟨fill k.store.mem a kstackSize 0, free, k.store.heap, ⟨a, 0x1000⟩ :: k.store.given⟩,
        ⟨sound'.write rfl rfl, rfl, by rw [taken], rfl, ?_⟩, rfl, rfl⟩
      exact fill_frame _ _ _ _

theorem allocThread_stops (k : Kernel) : Returns Halt.InCall (fun _ => True) (allocThread k) := by
  rw [allocThread]
  generalize k.store.allocPages kstackSize = r
  obtain ⟨kstack, s⟩ := r
  simp only
  split
  · trivial
  · exact ((touch_stops _ _).bind fun _ _ => trivial : Returns _ (fun _ => True) (s.memset _ _ _)).bind
      fun _ _ => trivial

def newProc (kstack : Nat) : Proc :=
  { Proc.zero with kstack := kstack, tf := kstack + 3924, state := .ready }

theorem procCreate_spec {init : List Block} {k k' : Kernel} {p : Nat} (sound : k.store.Sound init)
    (done : procCreate k = .ok (p, k')) :
    ∃ kstack s, k.store.Took init kstack s ∧ p = kstack + 3992 ∧
      k' = { k with
        store := s, procs := Function.update k.procs p (newProc kstack), frames := k'.frames } := by
  rw [procCreate] at done
  obtain ⟨⟨p₁, k₁⟩, allocated, result⟩ := bind_eq_ok.mp done
  obtain ⟨kstack, s, took, rfl, rfl⟩ := allocThread_spec sound allocated
  cases result
  refine ⟨kstack, s, took, rfl, ?_⟩
  simp only [Kernel.setProc, Kernel.setFrame, Function.update_self, Function.update_idem, newProc]

theorem kthreadCreate_spec {init : List Block} {k k' : Kernel} {p eip : Nat}
    (sound : k.store.Sound init) (done : kthreadCreate k eip = .ok (p, k')) :
    ∃ kstack s, k.store.Took init kstack s ∧ p = kstack + 3992 ∧
      k' = { k with
        store := s, procs := Function.update k.procs p (newProc kstack), frames := k'.frames } := by
  rw [kthreadCreate] at done
  obtain ⟨⟨p₁, k₁⟩, allocated, result⟩ := bind_eq_ok.mp done
  obtain ⟨kstack, s, took, rfl, rfl⟩ := allocThread_spec sound allocated
  cases result
  refine ⟨kstack, s, took, rfl, ?_⟩
  simp only [Kernel.setProc, Kernel.setFrame, Function.update_self, Function.update_idem, newProc,
    Proc.zero]

theorem procCreate_stops (k : Kernel) : Returns Halt.InCall (fun _ => True) (procCreate k) :=
  (allocThread_stops k).bind fun _ _ => trivial

/-! ## Fork -/

theorem copyFiles_spec {parent : Proc} {n : Nat} : ∀ (fds : List (Fin maxfiles)) (k : Kernel)
    {k' : Kernel}, copyFiles parent n fds k = .ok k' →
    k'.store.mem = k.store.mem ∧ k'.store.free = k.store.free ∧ k'.store.given = k.store.given ∧
      k' = { k with
        store := k'.store
        procs := Function.update k.procs n { k.procs n with ofile := (k'.procs n).ofile }
        files := k'.files } := by
  intro fds
  induction fds with
  | nil =>
      intro k k' done
      simp only [copyFiles] at done
      split at done
      · cases done
        refine ⟨rfl, rfl, rfl, ?_⟩
        rw [Function.update_eq_self]
      · cases done
  | cons fd rest ih =>
      intro k k' done
      simp only [copyFiles] at done
      split at done
      · cases done
        refine ⟨rfl, rfl, rfl, ?_⟩
        rw [Function.update_eq_self]
      · obtain ⟨⟨f, s⟩, allocated, afterAlloc⟩ := bind_eq_ok.mp done
        obtain ⟨_, _, afterTouch⟩ := bind_eq_ok.mp afterAlloc
        obtain ⟨mem, free, given, same⟩ := ih _ afterTouch
        obtain ⟨mem₀, free₀, given₀⟩ := Store.kmalloc_heap allocated
        refine ⟨mem.trans mem₀, free.trans free₀, given.trans given₀, ?_⟩
        rw [same]
        simp only [Kernel.setProc, Function.update_self, Function.update_idem]

/-- A fork: it finds no memory and leaves a process behind that nobody knows, or it makes
a child and puts it into the run queue. -/
inductive Forked (init : List Block) (env : Env) (k : Kernel) : Int × Kernel → Prop where
  | failed (kstack : Nat) (s s' : Store) (frames : Nat → Trapframe) (took : k.store.Took init kstack s)
      (full : s.allocPages (k.memtab k.proc.pid).sz = (0, s')) :
      Forked init env k (-1, { k with
        store := s'
        procs := Function.update k.procs (kstack + 3992) { newProc kstack with pid := k.pid }
        frames := frames
        pid := u32 (k.pid + 1) })
  | child (kstack mem pd : Nat) (s s₁ s₂ s₃ s₄ : Store) (regions : List VmRegion)
      (ofile : Fin maxfiles → Nat) (frames : Nat → Trapframe) (files : Nat → File) (k₁ : Kernel)
      (took : k.store.Took init kstack s)
      (made : ∃ k₀, procCreate k = .ok (kstack + 3992, k₀) ∧ k₀.store = s)
      (block : s.allocPages (k.memtab k.proc.pid).sz = (mem, s₁)) (nonnull : mem ≠ 0)
      (copied : copykvm env.kpagedir s₁ = .ok (pd, s₂))
      (filled : copyRegions pd (k.memtab k.proc.pid).regions mem (k.memtab k.pid).regions s₂ =
        .ok (regions, s₃))
      (bytes : s₄.mem = s₃.mem) (free : s₄.free = s₃.free) (given : s₄.given = s₃.given)
      (queued : enqueue { k with
        store := s₄
        procs := Function.update k.procs (kstack + 3992) { newProc kstack with
          pid := k.pid, parent := k.curthread, cr3 := v2p pd, ofile := ofile }
        frames := frames
        files := files
        memtab := Function.update k.memtab k.pid { k.memtab k.pid with regions := regions }
        pid := u32 (k.pid + 1) } (kstack + 3992) = .ok k₁) :
      Forked init env k (k.pid, { k₁ with created := k₁.created ++ [kstack + 3992] })

theorem Store.Took.ne_home {init : List Block} {kstack p : Nat} {k : Kernel} {s : Store}
    (h : k.store.Took init kstack s) (home : k.Home p) : p ≠ kstack + 3992 := by
  intro same
  obtain ⟨kstack', place, given⟩ := home
  have : kstack' = kstack := by omega
  exact h.fresh (this ▸ given)

theorem enqueue_proc {k k' : Kernel} {n : Nat} (done : enqueue k n = .ok k') :
    ∃ q, k.queue.insertTail n = some q ∧ k' = k.setQueue q := by
  rw [enqueue] at done
  cases inserted : k.queue.insertTail n with
  | none =>
      rw [inserted] at done
      cases done
  | some q =>
      rw [inserted] at done
      cases done
      exact ⟨q, rfl, rfl⟩

theorem sysFork_steps {init : List Block} {env : Env} {k : Kernel} {r : Int × Kernel}
    (sound : k.store.Sound init) (home : k.Home k.curthread) (done : sysFork env k = .ok r) :
    (∃ kstack s s' frames, k.store.Took init kstack s ∧
      s.allocPages (k.memtab k.proc.pid).sz = (0, s') ∧ r = (-1, { k with
        store := s'
        procs := Function.update k.procs (kstack + 3992) { newProc kstack with pid := k.pid }
        frames := frames
        pid := u32 (k.pid + 1) })) ∨
    ∃ kstack mem pd s s₁ s₂ s₃ regions frames k₁ k₂, k.store.Took init kstack s ∧
      (∃ k₀, procCreate k = .ok (kstack + 3992, k₀) ∧ k₀.store = s) ∧
      s.allocPages (k.memtab k.proc.pid).sz = (mem, s₁) ∧ mem ≠ 0 ∧
      copykvm env.kpagedir s₁ = .ok (pd, s₂) ∧
      copyRegions pd (k.memtab k.proc.pid).regions mem (k.memtab k.pid).regions s₂ = .ok (regions, s₃) ∧
      copyFiles k.proc (kstack + 3992) (List.finRange maxfiles) { k with
        store := s₃
        procs := Function.update k.procs (kstack + 3992) { newProc kstack with
          pid := k.pid, parent := k.curthread, cr3 := v2p pd }
        frames := frames
        memtab := Function.update k.memtab k.pid { k.memtab k.pid with regions := regions }
        pid := u32 (k.pid + 1) } = .ok k₁ ∧
      enqueue k₁ (kstack + 3992) = .ok k₂ ∧
      r = (((k₂.procs (kstack + 3992)).pid : Int), { k₂ with created := k₂.created ++ [kstack + 3992] }) := by
  rw [sysFork] at done
  obtain ⟨⟨n, k₁⟩, created, afterCreate⟩ := bind_eq_ok.mp done
  obtain ⟨kstack, s, took, rfl, same⟩ := procCreate_spec sound created
  have made : ∃ k₀, procCreate k = .ok (kstack + 3992, k₀) ∧ k₀.store = s :=
    ⟨k₁, created, by rw [same]⟩
  have ne := took.ne_home home
  rw [same] at afterCreate
  generalize k₁.frames = frames at afterCreate
  simp only [Kernel.setProc, Kernel.proc, Function.update_self, Function.update_idem,
    Function.update_of_ne ne] at afterCreate
  generalize call : s.allocPages (k.memtab (k.procs k.curthread).pid).sz = result at afterCreate
  obtain ⟨mem, s₁⟩ := result
  simp only at afterCreate
  by_cases full : mem = 0
  · rw [if_pos full] at afterCreate
    cases afterCreate
    exact Or.inl ⟨kstack, s, s₁, frames, took, by rw [← full]; exact call, rfl⟩
  · rw [if_neg full] at afterCreate
    obtain ⟨⟨pd, s₂⟩, copied, afterCopy⟩ := bind_eq_ok.mp afterCreate
    obtain ⟨⟨regions, s₃⟩, filled, afterFill⟩ := bind_eq_ok.mp afterCopy
    obtain ⟨k₂, filed, afterFiles⟩ := bind_eq_ok.mp afterFill
    obtain ⟨k₃, queued, result⟩ := bind_eq_ok.mp afterFiles
    simp only [Kernel.setMemtab, Kernel.setFrame, Function.update_self, Function.update_idem,
      Function.update_of_ne ne] at filed
    cases result
    exact Or.inr ⟨kstack, mem, pd, s, s₁, s₂, s₃, regions, _, k₂, k₃, took, made, call, full, copied,
      filled, filed, queued, rfl⟩

theorem sysFork_cases {init : List Block} {env : Env} {k : Kernel} {r : Int × Kernel}
    (sound : k.store.Sound init) (home : k.Home k.curthread) (done : sysFork env k = .ok r) :
    Forked init env k r := by
  rcases sysFork_steps sound home done with ⟨kstack, s, s', frames, took, full, rfl⟩ |
    ⟨kstack, mem, pd, s, s₁, s₂, s₃, regions, frames, k₁, k₂, took, made, block, nonnull, copied, filled,
      filed, queued, rfl⟩
  · exact .failed kstack s s' frames took full
  · obtain ⟨bytes, free, given, same⟩ := copyFiles_spec _ _ filed
    simp only [Function.update_self, Function.update_idem] at same
    rw [same] at queued
    have number : (k₂.procs (kstack + 3992)).pid = k.pid := by
      obtain ⟨q, _, rfl⟩ := enqueue_proc queued
      simp only [Kernel.setQueue, Function.update_self]
    rw [number]
    exact .child kstack mem pd s s₁ s₂ s₃ k₁.store regions _ frames _ k₂ took made block nonnull copied
      filled bytes free given queued

/-! ## Where a fork may stop -/

theorem Respected.copyRegions {R : Store → Store → Prop} (h : Respected R) {pd : Nat} :
    ∀ (old : List VmRegion) (mem : Nat) (regions : List VmRegion) (s : Store),
      Returns Halt.InCall (fun r => R s r.2) (copyRegions pd old mem regions s) := by
  intro old
  induction old with
  | nil => intro mem regions s; exact h.refl s
  | cons m₁ rest ih =>
      intro mem regions s
      rw [Trunix.copyRegions]
      refine (h.kmalloc _ _).bind fun r node => ?_
      refine (touch_stops _ _).bind fun _ _ => ?_
      refine (h.allocPt _ _ _ _ _ _).bind fun s₁ linked => ?_
      refine (h.memmove _ _ _ _).bind fun s₂ moved => ?_
      exact (ih _ _ s₂).mono fun r later => h.trans (h.trans (h.trans node linked) moved) later

theorem copyRegions_grows {init : List Block} {pd : Nat} (old : List VmRegion) (mem : Nat)
    (regions : List VmRegion) {s : Store} (sound : s.Sound init) :
    Returns Halt.InCall (fun r => s.Grows init r.2) (copyRegions pd old mem regions s) :=
  ((grows_respected init).copyRegions old mem regions s).mono fun _ grows => grows sound

theorem copyFiles_stops {parent : Proc} {n : Nat} : ∀ (fds : List (Fin maxfiles)) (k : Kernel),
    Returns Halt.InCall (fun _ => True) (copyFiles parent n fds k) := by
  intro fds
  induction fds with
  | nil =>
      intro k
      rw [copyFiles]
      split <;> trivial
  | cons fd rest ih =>
      intro k
      rw [copyFiles]
      split
      · trivial
      · exact (kmalloc_stops _ _).bind fun r _ => (touch_stops _ _).bind fun _ _ => ih _

theorem enqueue_stops (k : Kernel) (n : Nat) : Returns Halt.InCall (fun _ => True) (enqueue k n) := by
  rw [enqueue]
  cases k.queue.insertTail n <;> trivial

theorem sysFork_stops {init : List Block} {env : Env} {k : Kernel} (sound : k.store.Sound init) :
    Returns Halt.InCall (fun _ => True) (sysFork env k) := by
  have created : Returns Halt.InCall (fun r => r.2.store.Sound init) (procCreate k) := by
    refine (procCreate_stops k).intro fun r done => ?_
    obtain ⟨kstack, s, took, _, same⟩ := procCreate_spec (p := r.1) sound done
    rw [same]
    exact took.sound
  rw [sysFork]
  refine created.bind fun r sound₁ => ?_
  obtain ⟨n, k₁⟩ := r
  simp only
  split
  · trivial
  · refine (copykvm_grows (Store.allocPages_grows sound₁ _).sound _).bind fun r copied => ?_
    refine (copyRegions_grows _ _ _ copied.sound).bind fun r _ => ?_
    refine (copyFiles_stops _ _).bind fun _ _ => ?_
    exact (enqueue_stops _ _).bind fun _ _ => trivial

end Trunix
