import Trunix.Kernel.Preempt
import Trunix.Kernel.Sheltered

/-!
# Preemption is transparent

Over every run of the machine the stacks stay in order, so whatever the others do, and
however long the scheduler takes to come back to it, a process that the timer interrupted goes
on with the registers it had.

That takes a kernel that is left alone: the directory that the scheduler loads has to have the
kernel in it, which a step that goes astray can destroy, and the data segments and the
direction flag with which the kernel works are those of the process.
-/

set_option autoImplicit false

namespace Trunix

open Trunix.Lib

/-! ## The machine and the kernel -/

section Refines

variable {code : Code} {env : Env} {m m' : Machine}

theorem Code.dispatch_kernel {k k' : Kernel} {c c' : Cpu} (done : code.dispatch k c = .ok (k', c')) :
    k' = k := by
  rw [Code.dispatch] at done
  simp only at done
  split at done
  · cases done
  · cases done
    rfl

theorem Code.callYield_kernel {k k' : Kernel} {c c' : Cpu} (done : code.callYield k c = .ok (k', c')) :
    Trunix.yield k = .ok k' := by
  rw [Code.callYield] at done
  split at done
  · obtain ⟨k₁, again, switched⟩ := bind_eq_ok.mp done
    rw [code.dispatch_kernel switched]
    exact again
  · cases done

theorem Code.ret_kernel {k : Kernel} {c : Cpu} {r : Nat} (done : code.ret k c r = .ok m') :
    m'.kernel = k := by
  rw [Code.ret] at done
  split at done
  · cases done
  · cases done
    rfl

theorem Machine.handle_kernel {c : Call} (done : m.handle code env c = .ok m') :
    m.kernel.step env c = .ok m'.kernel := by
  cases c with
  | yield =>
      obtain ⟨⟨k, c⟩, called, result⟩ := bind_eq_ok.mp done
      cases result
      exact code.callYield_kernel called
  | fork =>
      obtain ⟨⟨n, k₀⟩, _, after⟩ := bind_eq_ok.mp done
      obtain ⟨⟨r, k⟩, forked, returned⟩ := bind_eq_ok.mp after
      rw [Kernel.step, forked, code.ret_kernel returned]
      rfl
  | execve path =>
      obtain ⟨⟨loaded, k⟩, read, after⟩ := bind_eq_ok.mp done
      rw [Kernel.step, sysExecve, read]
      cases loaded with
      | none =>
          rw [code.ret_kernel after]
          rfl
      | some p =>
          obtain ⟨⟨k₁, c⟩, called, result⟩ := bind_eq_ok.mp after
          cases result
          exact code.callYield_kernel called
  | exit =>
      rw [Machine.handle] at done
      rw [Kernel.step, sysExit]
      split at done
      · cases done
      · rename_i notFirst
        obtain ⟨⟨k, c⟩, called, result⟩ := bind_eq_ok.mp done
        cases result
        rw [if_neg notFirst]
        exact code.callYield_kernel called
  | mmap len flags fd =>
      obtain ⟨⟨addr, k⟩, mapped, returned⟩ := bind_eq_ok.mp done
      rw [Kernel.step, mapped, code.ret_kernel returned]
      rfl
  | write addr byte =>
      obtain ⟨k, wrote, result⟩ := bind_eq_ok.mp done
      cases result
      exact wrote

/-- The user's data segment is in `ds`, and where the call gets to a string instruction also in
`es`, with the direction flag clear. -/
def Machine.Ready (env : Env) (m : Machine) : Call → Prop
  | .write _ _ => True
  | c => m.cpu.regs.ds / 4 = 8 ∧
      (m.kernel.Strings env c → m.cpu.regs.es / 4 = 8 ∧ m.cpu.regs.eflags / 0x400 % 2 = 0)

theorem Machine.step_handle {c : Call} (done : m.step code env c = .ok m') :
    m.handle code env c = .ok m' := by
  cases c with
  | write addr byte => exact done
  | _ =>
      obtain ⟨_, _, afterFirst⟩ := bind_eq_ok.mp done
      obtain ⟨_, _, afterEnter⟩ := bind_eq_ok.mp afterFirst
      obtain ⟨m₁, handled, afterHandle⟩ := bind_eq_ok.mp afterEnter
      obtain ⟨_, _, result⟩ := bind_eq_ok.mp afterHandle
      cases result
      exact handled

theorem Machine.step_kernel {c : Call} (done : m.step code env c = .ok m') :
    m.kernel.step env c = .ok m'.kernel :=
  Machine.handle_kernel (Machine.step_handle done)

end Refines

/-! ## The kernel in the loaded directory -/

/-- At the boot `kpagedir` has the kernel and all memory that `alloc_pages` hands out in pages of
4 MiB, it lies itself outside that memory, and no process has a list. -/
structure Code.MappedAtBoot (code : Code) (init : List Block) (env : Env) (k : Kernel) : Prop where
  reserved : Reserved init env.kpagedir
  empty : ∀ i, 1 ≤ i → i ≤ maxprocs → (k.memtab i).regions = []
  large : ∀ a, (a ∈ code.pages ∨ ∃ b ∈ init, b.addr ≤ a ∧ a < b.addr + b.sz) →
    kernelOffset ≤ a ∧ a < 0x100000000 ∧ Large k.store.mem env.kpagedir (a / 0x400000) ∧
      walk k.store.mem env.kpagedir a = some (v2p a)

def Kernel.upperHalf (env : Env) (k : Kernel) (i : Nat) : Nat := load32 k.store.mem (env.kpagedir + 4 * i)

/-- A page of 4 MiB leads to the same place in two directories with the same entry. -/
theorem walk_large {m m' : Mem} {pd pd' x : Nat} (large : Large m pd (x / 0x400000))
    (same : load32 m' (pd' + 4 * (x / 0x400000)) = load32 m (pd + 4 * (x / 0x400000))) :
    walk m' pd' x = walk m pd x := by
  obtain ⟨here, size⟩ := large
  simp only [present] at here
  rw [walk, walk]
  simp only [same]
  rw [if_neg (by omega), if_pos size, if_neg (by omega), if_pos size]

/-- The kernel finds itself in the directory of the running process. -/
theorem Kernel.Sheltered.maps {init : List Block} {env : Env} {code : Code} {root : Nat} {Q : List Nat}
    {k₀ k : Kernel} (h : k.Sheltered init env (k₀.upperHalf env)) (register : k.cr3 = k.proc.cr3)
    (sched : Scheduled init root Q k) (mapped : code.MappedAtBoot init env k₀) : code.Maps k := by
  have offset : kernelOffset = 0x80000000 := rfl
  have leads : ∀ a, (a ∈ code.pages ∨ ∃ b ∈ init, b.addr ≤ a ∧ a < b.addr + b.sz) →
      walk k.store.mem (p2v k.cr3) a = some (v2p a) := by
    intro a kernel
    obtain ⟨high, word, large, there⟩ := mapped.large a kernel
    rw [← there, register]
    exact walk_large large (h.upper.processes _ sched.mem_created _ (by omega) (by omega))
  intro a listed
  have either : a = k.curthread - 3992 ∨ a ∈ code.pages := List.mem_cons.mp listed
  rcases either with here | inImage
  · obtain ⟨kstack, place, given⟩ := sched.homes _ (List.mem_cons_of_mem _ sched.mem_created)
    obtain ⟨b, inInit, inside⟩ := sched.sound.tidy.inside _ (List.mem_append_right _ given)
    simp only [Block.Inside] at inside
    exact leads _ (Or.inr ⟨b, inInit, by omega, by omega⟩)
  · exact leads a (Or.inl inImage)

/-! ## Runs -/

/-- A process computes in user mode; its calls do not go astray and overflow no stack, and it makes
them with the segments and the direction flag that the kernel needs. -/
def Machine.Permits (code : Code) (env : Env) (m : Machine) : Event → Prop
  | .compute regs => regs.User
  | .call c => m.kernel.Careful env c ∧ m.Fits code env c ∧ m.Ready env c

/-- The machine is settled, and its kernel is sheltered and on the directory of the process that
runs. -/
structure Machine.Guarded (init : List Block) (code : Code) (base : Nat) (env : Env) (k₀ : Kernel)
    (m : Machine) : Prop where
  settled : Settled init code base m
  sheltered : m.kernel.Sheltered init env (k₀.upperHalf env)
  register : m.kernel.cr3 = m.kernel.proc.cr3

section Runs

variable {init : List Block} {code : Code} {base : Nat} {env : Env} {k₀ : Kernel} {m m' : Machine}

theorem Settled.event {e : Event} (h : Settled init code base m) (boot : BootStack init base)
    (user : ∀ regs, e = .compute regs → regs.User) (fits : ∀ c, e = .call c → m.Fits code env c)
    (done : m.event code env e = .ok m') :
    Settled init code base m' ∧ ∀ p ∈ m.kernel.created, p ≠ m.kernel.curthread → ∀ Q,
      Waits code m.kernel m.cpu p Q → Waits code m'.kernel m'.cpu p Q := by
  obtain ⟨k', cpu⟩ := m'
  cases e with
  | compute regs =>
      cases done
      refine ⟨⟨h.seated, h.scheduler, fun p mem alive => ?_⟩, fun p mem ne Q waits => ?_⟩
      · have waits := h.waits p mem alive
        rw [Waits] at waits ⊢
        split
        · exact user regs rfl
        · rename_i elsewhere
          rw [if_neg elsewhere] at waits
          exact waits
      · rw [Waits, if_neg (Ne.symm ne)] at waits ⊢
        exact waits
  | call c =>
      have stepped : m.kernel.step env c = .ok k' := Machine.step_kernel done
      obtain ⟨c', again, goes⟩ := h.goes boot (fits c rfl) stepped
      cases Except.ok.inj (again.symm.trans (Machine.step_handle done))
      refine ⟨h.after stepped goes, fun p mem ne Q waits => ?_⟩
      rw [Waits, if_neg (Ne.symm ne)] at waits
      exact goes.others p mem ne Q waits

theorem Machine.Permits.settled {e : Event} (permits : m.Permits code env e) (h : Settled init code base m)
    (boot : BootStack init base) (done : m.event code env e = .ok m') :
    Settled init code base m' ∧ ∀ p ∈ m.kernel.created, p ≠ m.kernel.curthread → ∀ Q,
      Waits code m.kernel m.cpu p Q → Waits code m'.kernel m'.cpu p Q := by
  refine h.event boot ?_ ?_ done
  · rintro regs rfl
    exact permits
  · rintro c rfl
    exact permits.2.1

theorem Machine.Guarded.maps (h : m.Guarded init code base env k₀) (mapped : code.MappedAtBoot init env k₀) :
    code.Maps m.kernel := by
  obtain ⟨root, Q, scheduled⟩ := h.settled.seated.sched
  exact h.sheltered.maps h.register scheduled mapped

theorem Machine.Guarded.step {c : Call} {k' : Kernel} {cpu : Cpu} (h : m.Guarded init code base env k₀)
    (mapped : code.MappedAtBoot init env k₀) (careful : m.kernel.Careful env c)
    (done : m.kernel.step env c = .ok k') (settled : Settled init code base ⟨k', cpu⟩) :
    Machine.Guarded init code base env k₀ ⟨k', cpu⟩ := by
  obtain ⟨root, Q, scheduled⟩ := h.settled.seated.sched
  exact ⟨settled, h.sheltered.step scheduled mapped.reserved careful done,
    scheduled.register h.register done⟩

theorem Machine.Guarded.event {e : Event} (h : m.Guarded init code base env k₀) (boot : BootStack init base)
    (mapped : code.MappedAtBoot init env k₀) (permits : m.Permits code env e)
    (done : m.event code env e = .ok m') : m'.Guarded init code base env k₀ := by
  have settled := (permits.settled h.settled boot done).1
  cases e with
  | compute regs =>
      cases done
      exact ⟨settled, h.sheltered, h.register⟩
  | call c => exact h.step mapped permits.1 (Machine.step_kernel done) settled

theorem Machine.Guarded.run (h : m.Guarded init code base env k₀) (boot : BootStack init base)
    (mapped : code.MappedAtBoot init env k₀)
    (run : Runs (Machine.event code env) (Machine.Permits code env) m m') :
    m'.Guarded init code base env k₀ :=
  run.invariant (Machine.Guarded init code base env k₀) h fun _ _ _ guarded permits done =>
    guarded.event boot mapped permits done

end Runs

/-! ## The boot -/

section Boot

variable {init : List Block} {code : Code} {base entry : Nat} {env : Env} {k₀ k₁ k : Kernel} {c : Cpu}

theorem boot_seated (atBoot : AtBoot init k₀) (booted : initsys env k₀ = .ok k₁)
    (sched : initSched k₁ entry = .ok k) :
    Seated init k ∧ k.curthread = k₁.curthread ∧ k.created = [k₁.curthread] ∧
      (k₁.procs k₁.curthread).tf = k₁.curthread - 68 := by
  obtain ⟨root, scheduled⟩ := (initSched_scheduled atBoot booted).of_ok sched
  have member := scheduled.mem_created
  rw [initSched] at sched
  obtain ⟨⟨idle, k₂⟩, made, switch⟩ := bind_eq_ok.mp sched
  obtain ⟨first, k', done, switched, _⟩ := boot_switches atBoot booted made
  cases Except.ok.inj (done.symm.trans switch)
  have same := switched.same
  have procs := switched.procs
  cases initsys_cases atBoot.sound booted with
  | mk kstack bin cr3 entry base sz regions ofile s₁ s₂ s₃ frames files fbdevs k₃ took file loaded before
      grown bytes queued =>
      obtain ⟨q, inserted, rfl⟩ := enqueue_proc queued
      obtain ⟨stack, s₄, took', rfl, made'⟩ := kthreadCreate_spec grown.sound made
      have grown₂ := (loadImage_grows took.sound env.kpagedir env.initrd.bytes bin).of_ok loaded
      have homeRoot : (⟨kstack, 0x1000⟩ : Block) ∈ s₃.given := by
        apply grown.given _ (grown₂.given _ _)
        rw [took.given]
        exact List.mem_cons_self
      have ne : kstack + 3992 ≠ stack + 3992 := by
        intro here
        have : stack = kstack := by omega
        exact took'.fresh (this ▸ homeRoot)
      have created : k.created = [kstack + 3992] := by
        rw [same, made']
        simp only [Kernel.setQueue, atBoot.created, List.nil_append]
      have chosen : k.curthread = kstack + 3992 := by
        rw [created] at member
        exact List.mem_singleton.mp member
      have frame : (k.procs (kstack + 3992)).tf = kstack + 3924 := by
        rw [procs, made']
        simp only [Function.update_of_ne ne, Kernel.setQueue, Function.update_self]
        rfl
      refine ⟨⟨⟨root, [], scheduled⟩, ?_, fun p mem => ?_⟩, chosen, created, ?_⟩
      · rw [same]
      · rw [created] at mem
        rw [List.mem_singleton.mp mem, frame]
        omega
      · simp only [Kernel.setQueue, Function.update_self]
        rfl

theorem holds_frame (w : Words) (a : Nat) : ∃ r e, Holds w a (Regs.frame r e) ∧ r.cs = w (a + 52) := by
  refine ⟨⟨w a, w (a + 4), w (a + 8), w (a + 60), w (a + 16), w (a + 20), w (a + 24), w (a + 28),
    w (a + 32), w (a + 36), w (a + 40), w (a + 44), w (a + 48), w (a + 52), w (a + 56), w (a + 64)⟩,
    w (a + 12), ?_, rfl⟩
  simp only [Regs.frame, Holds, and_true]

theorem Code.kthreadCreate_out {n eip x : Nat} {w : Words} (home : 3992 ≤ n)
    (out : x ∉ page (n - 3992)) : code.kthreadCreate n eip w x = w x := by
  rw [← code.allocThread_out (w := w) home out]
  simp only [page, Set.mem_Ico] at out
  simp only [Code.kthreadCreate]
  iterate 7 rw [Function.update_of_ne (by omega)]

/-- The first process waits on the stack that was built for it. -/
theorem Code.first_suspended {p : Nat} {w : Words} (home : 3992 ≤ p) :
    Suspended code p (loadFrame k (p - 68) (code.procCreate p w)) Regs.User := by
  have context : contextAt = 16 := rfl
  have other : ∀ x, x ≠ p - 68 + 48 → x ≠ p - 68 + 60 →
      loadFrame k (p - 68) (code.procCreate p w) x = code.procCreate p w x := by
    intro x ne ne'
    rw [loadFrame, Function.update_of_ne ne', Function.update_of_ne ne]
  obtain ⟨first, second, third⟩ := code.procCreate_chain (w := w) home
  obtain ⟨r, e, holds, segment⟩ := holds_frame (loadFrame k (p - 68) (code.procCreate p w)) (p - 68)
  have user : r.User := by
    rw [Regs.User, segment, other _ (by omega) (by omega), Code.procCreate,
      Function.update_of_ne (by omega), Function.update_of_ne (by omega), Function.update_self]
    rfl
  refine (Suspended.born home user ?_ ?_ ?_ holds).mono fun regs same => same ▸ user
  · rw [other _ (by omega) (by omega), first]
  · rw [other _ (by omega) (by omega), second]
  · rw [other _ (by omega) (by omega), third]

theorem Code.boot_settled {m : Machine} (atBoot : AtBoot init k₀) (stack : BootStack init base)
    (esp : c.regs.esp = base) (done : code.boot env entry k₀ c = .ok m) :
    Settled init code base m := by
  rw [Code.boot] at done
  obtain ⟨k₁, booted, afterBoot⟩ := bind_eq_ok.mp done
  obtain ⟨k, sched, afterSched⟩ := bind_eq_ok.mp afterBoot
  obtain ⟨⟨k', c'⟩, dispatched, afterSwitch⟩ := bind_eq_ok.mp afterSched
  obtain ⟨_, _, result⟩ := bind_eq_ok.mp afterSwitch
  cases result
  obtain ⟨seated, chosen, created, frame⟩ := boot_seated atBoot booted sched
  have apart := seated.stacksApart stack
  have member : k.curthread ∈ k.created := by
    rw [created, chosen]
    exact List.mem_singleton.mpr rfl
  have home := apart.homes _ (List.mem_cons_of_mem _ member)
  have homeIdle := apart.homes k.idle List.mem_cons_self
  have ne : k.curthread ≠ k.idle := fun same => apart.idle (same ▸ member)
  rw [frame, ← chosen] at dispatched
  let w := loadFrame k₁ (k.curthread - 68) (code.procCreate k.curthread c.words)
  have waiting : ∀ p ∈ k.created, ∀ Q, Q = Regs.User →
      Suspended code p (code.kthreadCreate k.idle entry w) Q := by
    intro p mem Q user
    rw [created, ← chosen] at mem
    rw [List.mem_singleton.mp mem, user]
    have first : Suspended code k.curthread w Regs.User := code.first_suspended home
    refine first.congr (context_mem home) fun x inside => ?_
    apply code.kthreadCreate_out homeIdle
    have pages := apart.pages _ (List.mem_cons_of_mem _ member) _ List.mem_cons_self ne
    simp only [page, Set.mem_Ico] at inside ⊢
    omega
  let c₁ : Cpu := { c with words := code.kthreadCreate k.idle entry w }
  obtain ⟨c₂, switched, scheduler, waits⟩ := code.dispatches (c := c₁) (P := fun _ Q => Q = Regs.User)
    apart member esp ⟨_, rfl⟩ waiting
  cases Except.ok.inj (switched.symm.trans dispatched)
  exact ⟨seated, scheduler, fun p mem _ => waits p mem _ rfl⟩

end Boot

/-! ## A small machine -/

end Trunix
