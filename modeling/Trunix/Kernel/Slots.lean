import Trunix.Kernel.Tables

/-!
# The slots of `memtab`

`init_pmm` makes a table of 128 region lists, and `GETMEMMAP` takes the one at `pid - 1`.
The number of the next process is a counter that every fork increases, also one that
fails, and that nothing compares with the size of the table.  Every fork keeps a page for
the kernel stack, so the counter never wraps.
-/

set_option autoImplicit false

namespace Trunix

open Trunix.Lib

/-- The numbers of the processes that `GETMEMMAP` is applied to in a call.  A fork takes
the list of the child only once it has the memory for it. -/
def Kernel.slotUses (k : Kernel) : Call → List Nat
  | .fork => if k.childMem = 0 then [k.proc.pid] else [k.proc.pid, k.pid]
  | .execve _ => [k.proc.pid]
  | .mmap _ _ _ => [k.proc.pid]
  | _ => []

/-- There is a slot for the next process, or no memory to make one. -/
def Kernel.Slotted (k : Kernel) (c : Call) : Prop :=
  k.Allowed c ∧ (c = .fork → k.pid ≤ maxprocs ∨ k.childMem = 0)

/-! ## Memory that is never given back -/

theorem Store.Sound.nodup {init : List Block} {s : Store} (h : s.Sound init) : s.given.Nodup := by
  refine h.apart.imp_of_mem fun {b c} memB _ apart same => ?_
  have paged := h.paged memB
  rw [← same] at apart
  simp only [Block.Apart] at apart
  omega

theorem Store.Grows.length_le {init : List Block} {s s' : Store} (h : s.Grows init s')
    (sound : s.Sound init) : s.given.length ≤ s'.given.length :=
  (sound.nodup.subperm h.given).length_le

/-- The blocks that were handed out lie in the kernel half. -/
theorem Store.Sound.length_le {init : List Block} {s : Store} (h : s.Sound init) :
    s.given.length ≤ 0x80000000 := by
  have apart : s.given.Pairwise (SpansApart Block.addr Block.sz) :=
    h.apart.imp (spansApart_of_order Block.addr Block.sz)
  have inside : ∀ b ∈ s.given, 0x80000000 ≤ b.addr ∧ b.addr + b.sz ≤ 0x100000000 := by
    intro b mem
    have paged := h.paged mem
    omega
  refine length_le_of_apart Block.addr Block.sz apart inside fun b mem => ?_
  have paged := h.paged mem
  omega

theorem Refused.grows {init : List Block} {env : Env} {path : List UInt8} {s s' : Store}
    (h : Refused env path s s') (sound : s.Sound init) : s.Grows init s' := by
  rcases h with ⟨_, rfl⟩ | ⟨_, pd, _, copied⟩
  · exact .refl sound
  · exact (copykvm_grows sound env.kpagedir).of_ok copied

/-- No step gives memory back, and a fork keeps one page more. -/
theorem Effect.given_length {init : List Block} {env : Env} {k k' : Kernel} {c : Call}
    (effect : Effect init env k c k') (sound : k.store.Sound init) :
    k.store.given.length ≤ k'.store.given.length ∧
      (c = .fork → k.store.given.length + 1 ≤ k'.store.given.length) := by
  cases effect with
  | paused _ _ call store keeps =>
      rw [store]
      refine ⟨Nat.le_refl _, fun fork => ?_⟩
      rcases call with rfl | rfl <;> cases fork
  | wrote addr byte _ free given bytes keeps =>
      rw [given]
      exact ⟨Nat.le_refl _, fun fork => by cases fork⟩
  | refused path _ none left keeps =>
      exact ⟨(left.grows sound).length_le sound, fun fork => by cases fork⟩
  | declined len flags fd _ bytes free given keeps =>
      rw [given]
      exact ⟨Nat.le_refl _, fun fork => by cases fork⟩
  | loaded path bin cr3 entry base sz regions _ file image memtab pid created others self =>
      have grown := (loadImage_grows sound env.kpagedir env.initrd.bytes bin).of_ok image
      exact ⟨grown.length_le sound, fun fork => by cases fork⟩
  | mapped len flags fd mem pa s s₁ _ nonzero limit bytes free given backed linked memtab pid created
      others self =>
      have node : k.store.Grows init s := (Store.Grows.refl sound).write free given
      have taken := backed.grows node.sound
      have grown := (node.trans taken).trans ((allocPt_grows taken.sound _ _ _ _ _).of_ok linked)
      exact ⟨grown.length_le sound, fun fork => by cases fork⟩
  | unforked kstack s _ took full memtab pid created procs =>
      have grown := Store.allocPages_grows took.sound (k.memtab k.proc.pid).sz
      rw [full] at grown
      have more : s.given.length ≤ k'.store.given.length := grown.length_le took.sound
      rw [took.given, List.length_cons] at more
      exact ⟨by omega, fun _ => more⟩
  | forked kstack mem pd s s₁ s₂ s₃ regions _ took made block nonnull copied filled bytes free given
      memtab pid created others child =>
      have grown₁ := Store.allocPages_grows took.sound (k.memtab k.proc.pid).sz
      rw [block] at grown₁
      have grown₂ := (copykvm_grows grown₁.sound env.kpagedir).of_ok copied
      have grown₃ := (copyRegions_grows _ _ _ grown₂.sound).of_ok filled
      have more := ((grown₁.trans grown₂).trans grown₃).length_le took.sound
      rw [took.given, List.length_cons, ← given] at more
      exact ⟨by omega, fun _ => more⟩

/-! ## Numbers and slots -/

/-- Every process has a number of its own for which there is a slot, and the counter is
no larger than the number of blocks that were handed out. -/
structure SlotsOk (k : Kernel) : Prop where
  slot : ∀ p ∈ k.created, 1 ≤ (k.procs p).pid ∧ (k.procs p).pid ≤ maxprocs ∧ (k.procs p).pid < k.pid
  distinct : ∀ p ∈ k.created, ∀ q ∈ k.created, (k.procs p).pid = (k.procs q).pid → p = q
  first : 1 ≤ k.pid
  counted : k.pid ≤ k.store.given.length

theorem SlotsOk.same {k k' : Kernel} (h : SlotsOk k) (created : k'.created = k.created)
    (pids : ∀ p ∈ k.created, (k'.procs p).pid = (k.procs p).pid) (le : k.pid ≤ k'.pid)
    (counted : k'.pid ≤ k'.store.given.length) : SlotsOk k' := by
  refine ⟨fun p mem => ?_, fun p memP q memQ same => ?_, Nat.le_trans h.first le, counted⟩
  · rw [created] at mem
    have slot := h.slot p mem
    rw [pids p mem]
    omega
  · rw [created] at memP memQ
    rw [pids p memP, pids q memQ] at same
    exact h.distinct p memP q memQ same

/-- Before a fork that makes a child, the memory for it can be had. -/
theorem childMem_eq {init : List Block} {k : Kernel} {kstack mem : Nat} {s s' : Store}
    (took : k.store.Took init kstack s) (block : s.allocPages (k.memtab k.proc.pid).sz = (mem, s')) :
    k.childMem = mem := by
  rw [Kernel.childMem, ← (Store.allocPages_same took.free _).1, block]

theorem SlotsOk.step {init : List Block} {env : Env} {k k' : Kernel} {c : Call} (h : SlotsOk k)
    (sound : k.store.Sound init) (slotted : k.Slotted c) (effect : Effect init env k c k') :
    SlotsOk k' := by
  obtain ⟨kept, more⟩ := effect.given_length sound
  have counted := h.counted
  have bound := sound.length_le
  cases effect with
  | paused _ _ call store keeps =>
      exact h.same keeps.created (fun p mem => pid_of_unqueued (keeps.procs p mem))
        (Nat.le_of_eq keeps.pid.symm) (by rw [keeps.pid]; omega)
  | wrote addr byte _ free given bytes keeps =>
      exact h.same keeps.created (fun p mem => pid_of_unqueued (keeps.procs p mem))
        (Nat.le_of_eq keeps.pid.symm) (by rw [keeps.pid]; omega)
  | refused path _ none left keeps =>
      exact h.same keeps.created (fun p mem => pid_of_unqueued (keeps.procs p mem))
        (Nat.le_of_eq keeps.pid.symm) (by rw [keeps.pid]; omega)
  | declined len flags fd _ bytes free given keeps =>
      exact h.same keeps.created (fun p mem => pid_of_unqueued (keeps.procs p mem))
        (Nat.le_of_eq keeps.pid.symm) (by rw [keeps.pid]; omega)
  | loaded path bin cr3 entry base sz regions _ file image memtab pid created others self =>
      refine h.same created (fun p mem => ?_) (Nat.le_of_eq pid.symm) (by rw [pid]; omega)
      by_cases here : p = k.curthread
      · have number : (k'.procs k.curthread).unqueued.pid = k.proc.unqueued.pid := by rw [self]
        rw [here]
        exact number
      · exact pid_of_unqueued (others p mem here)
  | mapped len flags fd mem pa s s₁ _ nonzero limit bytes free given backed linked memtab pid created
      others self =>
      refine h.same created (fun p mem => ?_) (Nat.le_of_eq pid.symm) (by rw [pid]; omega)
      by_cases here : p = k.curthread
      · have number : (k'.procs k.curthread).unqueued.pid = k.proc.unqueued.pid := by rw [self]
        rw [here]
        exact number
      · exact pid_of_unqueued (others p mem here)
  | unforked kstack s _ took full memtab pid created procs =>
      have next : k'.pid = k.pid + 1 := by
        rw [pid, u32_of_lt (by omega)]
      have page := more rfl
      exact h.same created (fun p mem => pid_of_unqueued (procs p mem)) (by omega) (by omega)
  | forked kstack mem pd s s₁ s₂ s₃ regions _ took made block nonnull copied filled bytes free given
      memtab pid created others child =>
      have next : k'.pid = k.pid + 1 := by
        rw [pid, u32_of_lt (by omega)]
      have page := more rfl
      have first := h.first
      have room : k.pid ≤ maxprocs := by
        rcases slotted.2 rfl with room | full
        · exact room
        · rw [childMem_eq took block] at full
          exact absurd full nonnull
      have numbers : ∀ p ∈ k'.created, (p ∈ k.created ∧ (k'.procs p).pid = (k.procs p).pid) ∨
          (p = kstack + 3992 ∧ (k'.procs p).pid = k.pid) := by
        intro p mem
        rw [created] at mem
        rcases List.mem_append.mp mem with old | new
        · exact Or.inl ⟨old, pid_of_unqueued (others p old)⟩
        · have here := List.mem_singleton.mp new
          exact Or.inr ⟨here, here ▸ child.1⟩
      refine ⟨fun p mem => ?_, fun p memP q memQ same => ?_, by omega, by omega⟩
      · rcases numbers p mem with ⟨old, number⟩ | ⟨_, number⟩
        · have slot := h.slot p old
          omega
        · omega
      · rcases numbers p memP with ⟨oldP, numberP⟩ | ⟨newP, numberP⟩
        · have slotP := h.slot p oldP
          rcases numbers q memQ with ⟨oldQ, numberQ⟩ | ⟨newQ, numberQ⟩
          · exact h.distinct p oldP q oldQ (by omega)
          · omega
        · rcases numbers q memQ with ⟨oldQ, numberQ⟩ | ⟨newQ, numberQ⟩
          · have slotQ := h.slot q oldQ
            omega
          · rw [newP, newQ]

theorem Started.slotsOk {init : List Block} {env : Env} {k₀ k : Kernel}
    (h : Started init env k₀ k) : SlotsOk k := by
  obtain ⟨kstack, idle, bin, cr3, entry, base, sz, regions, s₁, s₂, s₃, took, _, image, _, grown, _, tookIdle, _,
    pid, created, number, _⟩ := h.stages
  have loaded := (loadImage_grows took.sound env.kpagedir env.initrd.bytes bin).of_ok image
  have first : (⟨kstack, 0x1000⟩ : Block) ∈ s₃.given := by
    apply grown.given _ (loaded.given _ _)
    rw [took.given]
    exact List.mem_cons_self
  have some := List.length_pos_of_mem first
  refine ⟨fun p mem => ?_, fun p memP q memQ _ => ?_, ?_, ?_⟩
  · rw [created, List.mem_singleton] at mem
    rw [mem, number, pid]
    decide
  · rw [created, List.mem_singleton] at memP memQ
    rw [memP, memQ]
  · rw [pid]
    decide
  · rw [pid, tookIdle.given, List.length_cons]
    omega

/-- In every careful run in which a fork finds a slot or no memory: the processes have numbers
from 1 to 128, no two the same, `GETMEMMAP` is applied to such numbers only, and when the
slots are used up a fork is refused and makes no process. -/
theorem memtab_slots {init : List Block} {env : Env} {k₀ k₁ k₂ k : Kernel} {entry : Nat}
    (atBoot : SteadyBoot init env k₀) (booted : initsys env k₀ = .ok k₁)
    (sched : initSched k₁ entry = .ok k₂)
    (run : Runs (Kernel.step env) (fun k c => k.Slotted c ∧ k.Careful env c) k₂ k) :
    (∀ p ∈ k.created, 1 ≤ (k.procs p).pid ∧ (k.procs p).pid ≤ maxprocs) ∧
      (∀ p ∈ k.created, ∀ q ∈ k.created, (k.procs p).pid = (k.procs q).pid → p = q) ∧
      (∀ c, k.Slotted c → ∀ i ∈ k.slotUses c, 1 ≤ i ∧ i ≤ maxprocs) ∧
      (k.Slotted .fork → maxprocs < k.pid → ∀ r k', sysFork env k = .ok (r, k') →
        r = -1 ∧ k'.created = k.created) := by
  have started := boot_started atBoot.toAtBoot booted sched
  obtain ⟨root, scheduled₂⟩ := started.scheduled
  have invariant : (∃ Q, Scheduled init root Q k) ∧ SlotsOk k := by
    apply run.invariant (fun k => (∃ Q, Scheduled init root Q k) ∧ SlotsOk k)
      ⟨⟨[], scheduled₂⟩, started.slotsOk⟩
    intro t c t' inv slotted done
    obtain ⟨⟨Q, scheduled⟩, slots⟩ := inv
    obtain ⟨Q', scheduled', _⟩ := (scheduled.step c).of_ok done
    exact ⟨⟨Q', scheduled'⟩, slots.step scheduled.sound slotted.1 (scheduled.effect done)⟩
  obtain ⟨⟨Q, scheduled⟩, slots⟩ := invariant
  have current := slots.slot _ scheduled.mem_created
  refine ⟨fun p mem => ⟨(slots.slot p mem).1, (slots.slot p mem).2.1⟩, slots.distinct,
    fun c slotted i mem => ?_, fun slotted full r k' done => ?_⟩
  · have own : i = k.proc.pid → 1 ≤ i ∧ i ≤ maxprocs := by
      intro same
      rw [same]
      exact ⟨current.1, current.2.1⟩
    cases c with
    | fork =>
        simp only [Kernel.slotUses] at mem
        split at mem
        · exact own (List.mem_singleton.mp mem)
        · rename_i made
          rcases List.mem_cons.mp mem with same | next
          · exact own same
          · rw [List.mem_singleton.mp next]
            exact ⟨slots.first, (slotted.2 rfl).resolve_right made⟩
    | execve path => exact own (List.mem_singleton.mp mem)
    | mmap len flags fd => exact own (List.mem_singleton.mp mem)
    | yield => cases mem
    | exit => cases mem
    | write addr byte => cases mem
  · have home := scheduled.homes _ (List.mem_cons_of_mem _ scheduled.mem_created)
    cases sysFork_cases scheduled.sound home done with
    | failed kstack s s' frames took none => exact ⟨rfl, rfl⟩
    | child kstack mem pd s s₁ s₂ s₃ s₄ regions ofile frames files k₃ took made block nonnull copied
        filled bytes free given queued =>
        rcases slotted.2 rfl with room | none
        · omega
        · rw [childMem_eq took block] at none
          exact absurd none nonnull

theorem memtab_slots_fork : ∃ k₁ k₂ k₃, initsys (smallEnv alignedSegment) smallKernel = .ok k₁ ∧
    initSched k₁ 0 = .ok k₂ ∧ k₂.step (smallEnv alignedSegment) .fork = .ok k₃ ∧
    ∀ p ∈ k₃.created, 1 ≤ (k₃.procs p).pid ∧ (k₃.procs p).pid ≤ maxprocs := by
  obtain ⟨k₁, k₂, k₃, booted, scheduled, forked, two, careful⟩ := smallBoot_fork
  have slotted : k₂.Slotted .fork := ⟨trivial, fun _ => Or.inl (by rw [two]; decide)⟩
  refine ⟨k₁, k₂, k₃, booted, scheduled, forked, ?_⟩
  exact (memtab_slots smallKernel_steady booted scheduled (.snoc .fork .refl ⟨slotted, careful⟩ forked)).1

/-! ## The 129th process -/

def wideFree : List Block := [⟨0x80400000, 0x400000⟩, ⟨0x80800000, 0x400000⟩]

def wideKernel : Kernel :=
  { smallKernel with store := ⟨fun _ => 0, wideFree, [⟨0x80200000, 0x10000⟩], []⟩ }

theorem wideKernel_atBoot : AtBoot wideFree wideKernel := by
  refine ⟨⟨⟨?_, ?_, ?_⟩, ?_⟩, rfl, rfl, rfl, rfl⟩
  · intro b mem
    rcases List.mem_cons.mp mem with rfl | mem
    · constructor <;> decide
    · rw [List.mem_singleton.mp mem]
      constructor <;> decide
  · intro b mem
    exact ⟨b, by simpa [wideKernel] using mem, Nat.le_refl _, Nat.le_refl _⟩
  · simp [wideKernel, wideFree, Block.Apart]
  · decide

def forks (env : Env) : Nat → Kernel → Except Halt Kernel
  | 0, k => .ok k
  | n + 1, k => do
      let k ← forks env n k
      k.step env .fork

theorem forks_runs {env : Env} {k : Kernel} : ∀ (n : Nat) (k' : Kernel), forks env n k = .ok k' →
    Runs (Kernel.step env) Kernel.Allowed k k' := by
  intro n
  induction n with
  | zero =>
      intro k' done
      cases done
      exact .refl
  | succ n ih =>
      intro k' done
      obtain ⟨k₁, before, last⟩ := bind_eq_ok.mp done
      exact .snoc .fork (ih k₁ before) trivial last

/-- After 127 forks the next one makes a process with the number 129. -/
theorem fork_past_memtab : ∃ k₁ k₂ k k', AtBoot wideFree wideKernel ∧
    initsys (smallEnv alignedSegment) wideKernel = .ok k₁ ∧ initSched k₁ 0 = .ok k₂ ∧
    Runs (Kernel.step (smallEnv alignedSegment)) Kernel.Allowed k₂ k ∧
    sysFork (smallEnv alignedSegment) k = .ok (129, k') ∧ ∃ p ∈ k'.created, (k'.procs p).pid = 129 := by
  have all : (initsys (smallEnv alignedSegment) wideKernel >>= fun k₁ => initSched k₁ 0 >>= fun k₂ =>
      forks (smallEnv alignedSegment) 127 k₂ >>= fun k => sysFork (smallEnv alignedSegment) k >>= fun r =>
      .ok (r.1, r.2.created.any fun p => (r.2.procs p).pid = 129)) = .ok (129, true) :=
    ok_of_toOption (by decide +kernel)
  obtain ⟨k₁, booted, all⟩ := bind_eq_ok.mp all
  obtain ⟨k₂, scheduled, all⟩ := bind_eq_ok.mp all
  obtain ⟨k, forked, all⟩ := bind_eq_ok.mp all
  obtain ⟨⟨r, k'⟩, last, same⟩ := bind_eq_ok.mp all
  obtain ⟨number, found⟩ := Prod.mk.inj (Except.ok.inj same)
  simp only at number
  subst number
  obtain ⟨p, mem, pid⟩ := List.any_eq_true.mp found
  exact ⟨k₁, k₂, k, k', wideKernel_atBoot, booted, scheduled, forks_runs 127 k forked, last, p, mem,
    of_decide_eq_true pid⟩

end Trunix
