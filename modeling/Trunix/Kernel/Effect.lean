import Trunix.Kernel.Sched

/-!
# What a step does to the memory of the processes

One case for everything a step of the machine can do to the page directories, the region
lists and the memory behind them.  The fields that belong to the scheduler are left out
of the comparison of the processes before and after the step.
-/

set_option autoImplicit false

namespace Trunix

open Trunix.Lib

def Proc.unqueued (p : Proc) : Proc := { p with state := .ready, entries := ⟨0, .null⟩ }

structure Keeps (k k' : Kernel) : Prop where
  memtab : k'.memtab = k.memtab
  pid : k'.pid = k.pid
  created : k'.created = k.created
  procs : ∀ p ∈ k.created, (k'.procs p).unqueued = (k.procs p).unqueued

inductive Effect (init : List Block) (env : Env) (k : Kernel) : Call → Kernel → Prop where
  | paused (c : Call) (k' : Kernel) (call : c = .yield ∨ c = .exit) (store : k'.store = k.store)
      (keeps : Keeps k k') : Effect init env k c k'
  | wrote (addr : Nat) (byte : UInt8) (k' : Kernel) (free : k'.store.free = k.store.free)
      (given : k'.store.given = k.store.given)
      (bytes : k'.store.mem = fun x => if x = addr then byte else k.store.mem x) (keeps : Keeps k k') :
      Effect init env k (.write addr byte) k'
  | refused (path : List UInt8) (k' : Kernel) (none : env.initrd.program path = none)
      (left : Refused env path k.store k'.store) (keeps : Keeps k k') :
      Effect init env k (.execve path) k'
  | loaded (path : List UInt8) (bin cr3 entry base sz : Nat) (regions : List VmRegion) (k' : Kernel)
      (file : env.initrd.program path = some bin)
      (image : loadImage env.kpagedir env.initrd.bytes bin k.store =
        .ok (.loaded cr3 entry base sz regions, k'.store))
      (memtab : k'.memtab = Function.update k.memtab k.proc.pid ⟨regions, sz⟩)
      (pid : k'.pid = k.pid) (created : k'.created = k.created)
      (others : ∀ p ∈ k.created, p ≠ k.curthread → (k'.procs p).unqueued = (k.procs p).unqueued)
      (self : (k'.procs k.curthread).unqueued =
        { k.proc.unqueued with mmapBase := base, cr3 := cr3 }) :
      Effect init env k (.execve path) k'
  | declined (len flags fd : Nat) (k' : Kernel) (bytes : k'.store.mem = k.store.mem)
      (free : k'.store.free = k.store.free) (given : k'.store.given = k.store.given)
      (keeps : Keeps k k') : Effect init env k (.mmap len flags fd) k'
  | mapped (len flags fd mem pa : Nat) (s s₁ : Store) (k' : Kernel) (nonzero : len ≠ 0)
      (limit : u32 (k.proc.mmapBase + pgRoundup len) < mmapLimit)
      (bytes : s.mem = k.store.mem) (free : s.free = k.store.free) (given : s.given = k.store.given)
      (backed : Backed { k with store := s } (pgRoundup len) flags fd mem pa s₁)
      (linked : allocPt (p2v k.proc.cr3) k.proc.mmapBase pa (pgRoundup len) userFlags s₁ =
        .ok k'.store)
      (memtab : k'.memtab = Function.update k.memtab k.proc.pid { k.memtab k.proc.pid with
        regions := ⟨k.proc.mmapBase, pa, pgRoundup len⟩ :: (k.memtab k.proc.pid).regions })
      (pid : k'.pid = k.pid) (created : k'.created = k.created)
      (others : ∀ p ∈ k.created, p ≠ k.curthread → (k'.procs p).unqueued = (k.procs p).unqueued)
      (self : (k'.procs k.curthread).unqueued =
        { k.proc.unqueued with mmapBase := u32 (k.proc.mmapBase + pgRoundup len) }) :
      Effect init env k (.mmap len flags fd) k'
  | unforked (kstack : Nat) (s : Store) (k' : Kernel) (took : k.store.Took init kstack s)
      (full : s.allocPages (k.memtab k.proc.pid).sz = (0, k'.store))
      (memtab : k'.memtab = k.memtab) (pid : k'.pid = u32 (k.pid + 1))
      (created : k'.created = k.created)
      (procs : ∀ p ∈ k.created, (k'.procs p).unqueued = (k.procs p).unqueued) :
      Effect init env k .fork k'
  | forked (kstack mem pd : Nat) (s s₁ s₂ s₃ : Store) (regions : List VmRegion) (k' : Kernel)
      (took : k.store.Took init kstack s)
      (made : ∃ k₀, procCreate k = .ok (kstack + 3992, k₀) ∧ k₀.store = s)
      (block : s.allocPages (k.memtab k.proc.pid).sz = (mem, s₁)) (nonnull : mem ≠ 0)
      (copied : copykvm env.kpagedir s₁ = .ok (pd, s₂))
      (filled : copyRegions pd (k.memtab k.proc.pid).regions mem (k.memtab k.pid).regions s₂ =
        .ok (regions, s₃))
      (bytes : k'.store.mem = s₃.mem) (free : k'.store.free = s₃.free)
      (given : k'.store.given = s₃.given)
      (memtab : k'.memtab =
        Function.update k.memtab k.pid { k.memtab k.pid with regions := regions })
      (pid : k'.pid = u32 (k.pid + 1)) (created : k'.created = k.created ++ [kstack + 3992])
      (others : ∀ p ∈ k.created, (k'.procs p).unqueued = (k.procs p).unqueued)
      (child : (k'.procs (kstack + 3992)).pid = k.pid ∧ (k'.procs (kstack + 3992)).cr3 = v2p pd ∧
        (k'.procs (kstack + 3992)).mmapBase = 0 ∧ (k'.procs (kstack + 3992)).kstack = kstack ∧
        (k'.procs (kstack + 3992)).tf = kstack + 3924) :
      Effect init env k .fork k'

theorem Yielded.unqueued {k k' : Kernel} {p : Nat} (h : Yielded k k' p) (x : Nat) :
    (k'.procs x).unqueued = (k.procs x).unqueued := by
  rw [h.procs, Proc.unqueued, Proc.unqueued]

theorem Yielded.keeps {k k' : Kernel} {p : Nat} (h : Yielded k k' p) : Keeps k k' := by
  have same := h.same
  exact ⟨by rw [same], by rw [same], by rw [same], fun x _ => h.unqueued x⟩

theorem Yielded.store {k k' : Kernel} {p : Nat} (h : Yielded k k' p) : k'.store = k.store := by
  rw [h.same]

theorem Keeps.refl (k : Kernel) : Keeps k k := ⟨rfl, rfl, rfl, fun _ _ => rfl⟩

theorem Queued.yielded {init : List Block} {root : Nat} {Q : List Nat} {k k' : Kernel}
    (h : Queued init root Q k) (done : Trunix.yield k = .ok k') : ∃ p, Yielded k k' p := by
  obtain ⟨p, k'', Q', done', yielded, _, _⟩ := h.yields
  rw [done] at done'
  cases done'
  exact ⟨p, yielded⟩

theorem mmap_effect {init : List Block} {env : Env} {k k' : Kernel} {len flags fd r : Nat}
    (done : sysMmap env k len flags fd = .ok (r, k')) :
    Effect init env k (.mmap len flags fd) k' := by
  rcases sysMmap_cases done with ⟨_, same⟩ | ⟨nonzero, mapped⟩
  · cases same
    exact .declined len flags fd k rfl rfl rfl (.refl k)
  · cases mapped with
    | refused => exact .declined len flags fd k rfl rfl rfl (.refl k)
    | unopened s bytes free given =>
        exact .declined len flags fd _ bytes free given ⟨rfl, rfl, rfl, fun _ _ => rfl⟩
    | region mem pa s s₁ s₂ limit bytes free given backed linked =>
        refine .mapped len flags fd mem pa s s₁ _ nonzero limit bytes free given backed linked rfl rfl rfl
          (fun p _ ne => ?_) ?_
        · simp only [Function.update_of_ne ne]
        · simp only [Function.update_self, Proc.unqueued]

section Step

variable {init : List Block} {root : Nat} {Q : List Nat} {env : Env} {k k' : Kernel}
  (h : Scheduled init root Q k)

include h

theorem Scheduled.exit_effect (done : sysExit k = .ok k') : Effect init env k .exit k' := by
  rw [sysExit] at done
  split at done
  · cases done
  · rename_i notFirst
    obtain ⟨p, yielded⟩ := (h.killed notFirst).yielded done
    have keeps := yielded.keeps
    refine .paused .exit k' (Or.inr rfl) yielded.store ⟨keeps.memtab, keeps.pid, keeps.created, fun x mem => ?_⟩
    rw [keeps.procs x mem]
    by_cases here : x = k.curthread
    · subst here
      simp only [Kernel.setProc, Function.update_self, Proc.unqueued, Kernel.proc]
    · simp only [Kernel.setProc, Function.update_of_ne here]

theorem Scheduled.execve_effect {path : List UInt8} (done : sysExecve env k path = .ok k') :
    Effect init env k (.execve path) k' := by
  rw [sysExecve] at done
  obtain ⟨⟨r, k₁⟩, loaded, after⟩ := bind_eq_ok.mp done
  rcases loadelf_cases loaded with ⟨rfl, none, s, left, rfl⟩ |
    ⟨bin, cr3, entry, base, sz, regions, s, file, image, rfl, rfl⟩
  · cases after
    exact .refused path _ none left ⟨rfl, rfl, rfl, fun _ _ => rfl⟩
  · obtain ⟨p, yielded⟩ := (h.quiet (h.reloaded loaded)).1.toQueued.yielded after
    have keeps := yielded.keeps
    have store : k'.store = s := yielded.store
    refine .loaded path bin cr3 entry base sz regions k' file (store ▸ image) keeps.memtab keeps.pid
      keeps.created (fun x mem ne => ?_) ?_
    · rw [yielded.unqueued]
      simp only [Kernel.setProc, Kernel.setMemtab, Kernel.setFrame, Function.update_of_ne ne]
    · rw [yielded.unqueued]
      simp only [Kernel.setProc, Kernel.setMemtab, Kernel.setFrame, Function.update_self, Proc.unqueued]

theorem Scheduled.fork_effect {r : Int} (done : sysFork env k = .ok (r, k')) :
    Effect init env k .fork k' := by
  have homeCur := h.homes _ (List.mem_cons_of_mem _ h.mem_created)
  cases sysFork_cases h.sound homeCur done with
  | failed kstack s s' frames took full =>
      refine .unforked kstack s _ took full rfl rfl rfl fun p mem => ?_
      have ne := took.ne_home (h.homes p (List.mem_cons_of_mem _ mem))
      simp only [Function.update_of_ne ne]
  | child kstack mem pd s s₁ s₂ s₃ s₄ regions ofile frames files k₁ took made block nonnull copied filled
      bytes free given queued =>
      obtain ⟨q, inserted, rfl⟩ := enqueue_proc queued
      refine .forked kstack mem pd s s₁ s₂ s₃ regions _ took made block nonnull copied filled bytes free given
        rfl rfl rfl (fun p mem => ?_) ⟨?_, ?_, ?_, ?_, ?_⟩
      · have ne := took.ne_home (h.homes p (List.mem_cons_of_mem _ mem))
        simp only [Kernel.setQueue, Function.update_of_ne ne, Proc.unqueued]
      all_goals simp only [Kernel.setQueue, Function.update_self, newProc, Proc.zero]

theorem Scheduled.effect {c : Call} (done : k.step env c = .ok k') : Effect init env k c k' := by
  cases c with
  | yield =>
      obtain ⟨p, yielded⟩ := h.toQueued.yielded done
      exact .paused .yield k' (Or.inl rfl) yielded.store yielded.keeps
  | fork =>
      obtain ⟨⟨r, k₁⟩, forked, same⟩ := bind_eq_ok.mp done
      cases same
      exact h.fork_effect forked
  | execve path => exact h.execve_effect done
  | exit => exact h.exit_effect done
  | mmap len flags fd =>
      obtain ⟨⟨r, k₁⟩, mapped, same⟩ := bind_eq_ok.mp done
      cases same
      exact mmap_effect mapped
  | write addr byte =>
      cases done
      exact .wrote addr byte _ rfl rfl rfl ⟨rfl, rfl, rfl, fun _ _ => rfl⟩

end Step

end Trunix
