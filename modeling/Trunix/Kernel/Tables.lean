import Trunix.Kernel.Astray
import Trunix.Kernel.Copy
import Trunix.Kernel.Effect

/-!
# The region lists of the processes

`memtab` has a list of regions and a size for each process.  `loadelf` sets both,
`sys_mmap` and `sys_fork` change only the list, and `sys_fork` does not set
`mmap_base` either.  The machine of this module remembers for each process which of the
three touched its list last.
-/

set_option autoImplicit false

namespace Trunix

open Trunix.Lib

/-! ## The boot -/

structure Started (init : List Block) (env : Env) (k₀ k : Kernel) : Prop where
  scheduled : ∃ root, Scheduled init root [] k
  stages : ∃ kstack idle bin cr3 entry base sz regions s₁ s₂ s₃,
    k₀.store.Took init kstack s₁ ∧
      env.initrd.program (pathBytes "/sbin/init") = some bin ∧
      loadImage env.kpagedir env.initrd.bytes bin s₁ = .ok (.loaded cr3 entry base sz regions, s₂) ∧
      (∃ k, initproc env k₀ = .ok k ∧ k.store = s₂) ∧
      s₂.Grows init s₃ ∧ s₃.mem = s₂.mem ∧ s₃.Took init idle k.store ∧
      k.memtab = Function.update k₀.memtab 1 ⟨regions, sz⟩ ∧ k.pid = 2 ∧
      k.created = [kstack + 3992] ∧ (k.procs (kstack + 3992)).pid = 1 ∧
      (k.procs (kstack + 3992)).cr3 = cr3 ∧ (k.procs (kstack + 3992)).mmapBase = base ∧
      (k.procs (kstack + 3992)).kstack = kstack

theorem boot_started {init : List Block} {env : Env} {k₀ k₁ k : Kernel} {entry : Nat}
    (atBoot : AtBoot init k₀) (booted : initsys env k₀ = .ok k₁)
    (sched : initSched k₁ entry = .ok k) : Started init env k₀ k := by
  refine ⟨(initSched_scheduled atBoot booted).of_ok sched, ?_⟩
  rw [initSched] at sched
  obtain ⟨⟨idle, k₂⟩, made, switch⟩ := bind_eq_ok.mp sched
  obtain ⟨root, k', done, switched, _⟩ := boot_switches atBoot booted made
  have sameKernel : k' = k := Except.ok.inj (done.symm.trans switch)
  subst sameKernel
  cases initsys_cases atBoot.sound booted with
  | mk kstack bin cr3 entry base sz regions ofile s₁ s₂ s₃ frames files fbdevs k₃ took file loaded before
      grown bytes queued =>
      obtain ⟨q, inserted, rfl⟩ := enqueue_proc queued
      obtain ⟨stack, s₄, took', rfl, same⟩ := kthreadCreate_spec grown.sound made
      have grown₂ := (loadImage_grows took.sound env.kpagedir env.initrd.bytes bin).of_ok loaded
      have homeRoot : (⟨kstack, 0x1000⟩ : Block) ∈ s₃.given := by
        apply grown.given _ (grown₂.given _ _)
        rw [took.given]
        exact List.mem_cons_self
      have ne : kstack + 3992 ≠ stack + 3992 := by
        intro here
        have : stack = kstack := by omega
        exact took'.fresh (this ▸ homeRoot)
      have same' := switched.same
      rw [same] at same'
      have procs := switched.procs (kstack + 3992)
      rw [same] at procs
      simp only [Function.update_of_ne ne, Kernel.setQueue, Function.update_self] at procs
      refine ⟨kstack, stack, bin, cr3, entry, base, sz, regions, s₁, s₂, s₃, took, file, loaded, before,
        grown, bytes, ?_, ?_, ?_, ?_, ?_, ?_, ?_, ?_⟩
      · rw [same']
        exact took'
      · rw [same']
        simp only [Kernel.setQueue, atBoot.pid]
      · rw [same']
        simp only [Kernel.setQueue, atBoot.pid]
        rfl
      · rw [same']
        simp only [Kernel.setQueue, atBoot.created, List.nil_append]
      · rw [procs]
        exact atBoot.pid
      · rw [procs]
      · rw [procs]
      · rw [procs]
        rfl

/-! ## The machine that remembers -/

/-- The lowest page of a list of regions, or `MMAP_LIMIT` where there is none below. -/
def lowestPage (regions : List VmRegion) : Nat :=
  regions.foldr (fun m lo => min (pgRounddown m.va) lo) mmapLimit

/-- A kernel with a record of what happened to the region lists, by process number. -/
structure Tracked where
  kernel : Kernel
  /-- the list is the one that `loadelf` made -/
  own : Nat → Bool
  /-- where the regions above `mmap_base` begin: at the stack of a program that was loaded,
  at the lowest region of a list that was copied -/
  roof : Nat → Nat

def Tracked.after (env : Env) (t : Tracked) (k : Kernel) : Call → Tracked
  | .fork =>
      ⟨k, Function.update t.own t.kernel.pid false,
        Function.update t.roof t.kernel.pid
          (lowestPage (t.kernel.memtab t.kernel.proc.pid).regions)⟩
  | .execve path =>
      if (env.initrd.program path).isSome then
        ⟨k, Function.update t.own t.kernel.proc.pid true,
          Function.update t.roof t.kernel.proc.pid mmapLimit⟩
      else ⟨k, t.own, t.roof⟩
  | .mmap _ _ _ =>
      if k.memtab t.kernel.proc.pid = t.kernel.memtab t.kernel.proc.pid then ⟨k, t.own, t.roof⟩
      else ⟨k, Function.update t.own t.kernel.proc.pid false, t.roof⟩
  | _ => ⟨k, t.own, t.roof⟩

def Tracked.step (env : Env) (t : Tracked) (c : Call) : Except Halt Tracked := do
  let k ← t.kernel.step env c
  return t.after env k c

def Tracked.start (k : Kernel) : Tracked := ⟨k, fun i => i == 1, fun _ => mmapLimit⟩

theorem Tracked.after_kernel (env : Env) (t : Tracked) (k : Kernel) (c : Call) :
    (t.after env k c).kernel = k := by
  cases c with
  | execve path =>
      simp only [Tracked.after]
      split <;> rfl
  | mmap len flags fd =>
      simp only [Tracked.after]
      split <;> rfl
  | _ => rfl

theorem Tracked.step_eq_ok {env : Env} {t t' : Tracked} {c : Call} (done : t.step env c = .ok t') :
    ∃ k, t.kernel.step env c = .ok k ∧ t' = t.after env k c := by
  obtain ⟨k, stepped, same⟩ := bind_eq_ok.mp done
  cases same
  exact ⟨k, stepped, rfl⟩

/-! ## Numbers -/

/-- Every process has a number and a slot of its own, and the slots that are left are empty. -/
structure Numbered (k : Kernel) : Prop where
  below : ∀ p ∈ k.created, (k.procs p).pid < k.pid
  distinct : ∀ p ∈ k.created, ∀ q ∈ k.created, (k.procs p).pid = (k.procs q).pid → p = q
  limit : k.pid ≤ maxprocs + 1
  unused : ∀ i, k.pid ≤ i → i ≤ maxprocs → (k.memtab i).regions = []

theorem fields_of_unqueued {p p' : Proc} (same : p'.unqueued = p.unqueued) :
    p'.pid = p.pid ∧ p'.mmapBase = p.mmapBase := by
  have number : p'.unqueued.pid = p.unqueued.pid := congrArg Proc.pid same
  have base : p'.unqueued.mmapBase = p.unqueued.mmapBase := congrArg Proc.mmapBase same
  exact ⟨number, base⟩

theorem pid_of_unqueued {p p' : Proc} (same : p'.unqueued = p.unqueued) : p'.pid = p.pid :=
  (fields_of_unqueued same).1

theorem Numbered.keeps {k k' : Kernel} (h : Numbered k) (keeps : Keeps k k') : Numbered k' := by
  have pid : ∀ p ∈ k.created, (k'.procs p).pid = (k.procs p).pid := fun p mem =>
    pid_of_unqueued (keeps.procs p mem)
  refine ⟨fun p mem => ?_, fun p memP q memQ same => ?_, ?_, fun i lo hi => ?_⟩
  · rw [keeps.created] at mem
    rw [keeps.pid, pid p mem]
    exact h.below p mem
  · rw [keeps.created] at memP memQ
    rw [pid p memP, pid q memQ] at same
    exact h.distinct p memP q memQ same
  · rw [keeps.pid]
    exact h.limit
  · rw [keeps.pid] at lo
    rw [keeps.memtab]
    exact h.unused i lo hi

theorem Numbered.update {k k' : Kernel} (h : Numbered k) (cur : k.curthread ∈ k.created) {v : ProcMmap}
    (memtab : k'.memtab = Function.update k.memtab k.proc.pid v) (pid : k'.pid = k.pid)
    (created : k'.created = k.created)
    (pids : ∀ p ∈ k.created, (k'.procs p).pid = (k.procs p).pid) : Numbered k' := by
  refine ⟨fun p mem => ?_, fun p memP q memQ same => ?_, ?_, fun i lo hi => ?_⟩
  · rw [created] at mem
    rw [pid, pids p mem]
    exact h.below p mem
  · rw [created] at memP memQ
    rw [pids p memP, pids q memQ] at same
    exact h.distinct p memP q memQ same
  · rw [pid]
    exact h.limit
  · rw [pid] at lo
    have ne : i ≠ k.proc.pid := by
      have := h.below _ cur
      rw [Kernel.proc]
      omega
    rw [memtab, Function.update_of_ne ne]
    exact h.unused i lo hi

/-- A step keeps the numbers in order, as long as a fork finds a slot that is free. -/
theorem Numbered.step {init : List Block} {env : Env} {k k' : Kernel} {c : Call} (h : Numbered k)
    (cur : k.curthread ∈ k.created) (slot : c = .fork → k.pid ≤ maxprocs)
    (effect : Effect init env k c k') : Numbered k' := by
  cases effect with
  | paused _ _ call store keeps => exact h.keeps keeps
  | wrote addr byte _ free given bytes keeps => exact h.keeps keeps
  | refused path _ none left keeps => exact h.keeps keeps
  | declined len flags fd _ bytes free given keeps => exact h.keeps keeps
  | loaded path bin cr3 entry base sz regions _ file image memtab pid created others self =>
      refine h.update cur memtab pid created fun p mem => ?_
      by_cases here : p = k.curthread
      · have number : (k'.procs k.curthread).unqueued.pid = k.proc.unqueued.pid := by rw [self]
        rw [here]
        exact number
      · exact pid_of_unqueued (others p mem here)
  | mapped len flags fd mem pa s s₁ _ nonzero limit bytes free given backed linked memtab pid created
      others self =>
      refine h.update cur memtab pid created fun p mem => ?_
      by_cases here : p = k.curthread
      · have number : (k'.procs k.curthread).unqueued.pid = k.proc.unqueued.pid := by rw [self]
        rw [here]
        exact number
      · exact pid_of_unqueued (others p mem here)
  | unforked kstack s _ took full memtab pid created procs =>
      have room := slot rfl
      have next : k'.pid = k.pid + 1 := by
        rw [pid, u32_of_lt (by simp only [maxprocs] at room; omega)]
      refine ⟨fun p mem => ?_, fun p memP q memQ same => ?_, by omega, fun i lo hi => ?_⟩
      · rw [created] at mem
        have := h.below p mem
        rw [pid_of_unqueued (procs p mem)]
        omega
      · rw [created] at memP memQ
        rw [pid_of_unqueued (procs p memP), pid_of_unqueued (procs q memQ)] at same
        exact h.distinct p memP q memQ same
      · rw [memtab]
        exact h.unused i (by omega) hi
  | forked kstack mem pd s s₁ s₂ s₃ regions _ took made block nonnull copied filled bytes free given
      memtab pid created others child =>
      have room := slot rfl
      have next : k'.pid = k.pid + 1 := by
        rw [pid, u32_of_lt (by simp only [maxprocs] at room; omega)]
      have numbers : ∀ p ∈ k'.created, (p ∈ k.created ∧ (k'.procs p).pid = (k.procs p).pid) ∨
          (p = kstack + 3992 ∧ (k'.procs p).pid = k.pid) := by
        intro p mem
        rw [created] at mem
        rcases List.mem_append.mp mem with old | new
        · exact Or.inl ⟨old, pid_of_unqueued (others p old)⟩
        · have here := List.mem_singleton.mp new
          exact Or.inr ⟨here, here ▸ child.1⟩
      refine ⟨fun p mem => ?_, fun p memP q memQ same => ?_, by omega, fun i lo hi => ?_⟩
      · rcases numbers p mem with ⟨old, number⟩ | ⟨_, number⟩
        · have := h.below p old
          omega
        · omega
      · rcases numbers p memP with ⟨oldP, numberP⟩ | ⟨newP, numberP⟩
        · have belowP := h.below p oldP
          rcases numbers q memQ with ⟨oldQ, numberQ⟩ | ⟨newQ, numberQ⟩
          · exact h.distinct p oldP q oldQ (by omega)
          · omega
        · rcases numbers q memQ with ⟨oldQ, numberQ⟩ | ⟨newQ, numberQ⟩
          · have belowQ := h.below q oldQ
            omega
          · rw [newP, newQ]
      · rw [memtab, Function.update_of_ne (by omega)]
        exact h.unused i (by omega) hi

theorem Numbered.other_slot {k : Kernel} (h : Numbered k) (cur : k.curthread ∈ k.created) {p : Nat}
    (mem : p ∈ k.created) (ne : p ≠ k.curthread) : (k.procs p).pid ≠ k.proc.pid := fun same =>
  ne (h.distinct p mem _ cur same)

/-! ## A property of every list -/

/-- Every process has the property `P` of its record, its slot and its `mmap_base`. -/
structure Tracked.Each (init : List Block) (P : Bool → Nat → ProcMmap → Nat → Prop) (t : Tracked) :
    Prop where
  sched : ∃ root Q, Scheduled init root Q t.kernel
  numbers : Numbered t.kernel
  each : ∀ p ∈ t.kernel.created, P (t.own (t.kernel.procs p).pid) (t.roof (t.kernel.procs p).pid)
    (t.kernel.memtab (t.kernel.procs p).pid) (t.kernel.procs p).mmapBase

def Tracked.Cur (P : Bool → Nat → ProcMmap → Nat → Prop) (t : Tracked) : Prop :=
  P (t.own t.kernel.proc.pid) (t.roof t.kernel.proc.pid) (t.kernel.memtab t.kernel.proc.pid)
    t.kernel.proc.mmapBase

section Each

variable {init : List Block} {env : Env} {P : Bool → Nat → ProcMmap → Nat → Prop} {t : Tracked}
  {k : Kernel}

theorem Tracked.Each.cur (h : t.Each init P) : t.Cur P := by
  obtain ⟨root, Q, scheduled⟩ := h.sched
  exact h.each _ scheduled.mem_created

theorem Tracked.Each.keeps (h : t.Each init P) (keeps : Keeps t.kernel k) :
    ∀ p ∈ k.created, P (t.own (k.procs p).pid) (t.roof (k.procs p).pid) (k.memtab (k.procs p).pid)
      (k.procs p).mmapBase := by
  intro p mem
  rw [keeps.created] at mem
  obtain ⟨number, base⟩ := fields_of_unqueued (keeps.procs p mem)
  rw [number, base, keeps.memtab]
  exact h.each p mem

theorem Tracked.Each.update (h : t.Each init P) {own : Bool} {roof base : Nat} {tab : ProcMmap}
    (memtab : k.memtab = Function.update t.kernel.memtab t.kernel.proc.pid tab)
    (created : k.created = t.kernel.created)
    (others : ∀ p ∈ t.kernel.created, p ≠ t.kernel.curthread →
      (k.procs p).unqueued = (t.kernel.procs p).unqueued)
    (self : (k.procs t.kernel.curthread).pid = t.kernel.proc.pid ∧
      (k.procs t.kernel.curthread).mmapBase = base)
    (new : P own roof tab base) :
    ∀ p ∈ k.created, P (Function.update t.own t.kernel.proc.pid own (k.procs p).pid)
      (Function.update t.roof t.kernel.proc.pid roof (k.procs p).pid) (k.memtab (k.procs p).pid)
      (k.procs p).mmapBase := by
  obtain ⟨root, Q, scheduled⟩ := h.sched
  intro p mem
  rw [created] at mem
  by_cases here : p = t.kernel.curthread
  · rw [here, self.1, self.2, memtab]
    simp only [Function.update_self]
    exact new
  · have slot := h.numbers.other_slot scheduled.mem_created mem here
    obtain ⟨number, same⟩ := fields_of_unqueued (others p mem here)
    rw [number, same, memtab]
    simp only [Function.update_of_ne slot]
    exact h.each p mem

/-- A property of every list survives a step when the three calls that change a list keep it. -/
theorem Tracked.Each.step {t' : Tracked} {c : Call} (h : t.Each init P)
    (slot : c = .fork → t.kernel.pid ≤ maxprocs) (done : t.step env c = .ok t')
    (loads : ∀ path bin cr3 entry base sz regions s, c = .execve path →
      env.initrd.program path = some bin → t.kernel.store.Sound init →
      loadImage env.kpagedir env.initrd.bytes bin t.kernel.store =
        .ok (.loaded cr3 entry base sz regions, s) → P true mmapLimit ⟨regions, sz⟩ base)
    (maps : ∀ len flags fd mem pa s s₁, c = .mmap len flags fd → s.Sound init →
      u32 (t.kernel.proc.mmapBase + pgRoundup len) < mmapLimit →
      Backed { t.kernel with store := s } (pgRoundup len) flags fd mem pa s₁ → t.Cur P →
      P false (t.roof t.kernel.proc.pid) { t.kernel.memtab t.kernel.proc.pid with
        regions := ⟨t.kernel.proc.mmapBase, pa, pgRoundup len⟩ ::
          (t.kernel.memtab t.kernel.proc.pid).regions }
        (u32 (t.kernel.proc.mmapBase + pgRoundup len)))
    (forks : ∀ mem, t.Cur P → P false (lowestPage (t.kernel.memtab t.kernel.proc.pid).regions)
      ⟨(copies (t.kernel.memtab t.kernel.proc.pid).regions mem).reverse,
        (t.kernel.memtab t.kernel.pid).sz⟩ 0) :
    t'.Each init P := by
  obtain ⟨root, Q, scheduled⟩ := h.sched
  obtain ⟨k, stepped, rfl⟩ := Tracked.step_eq_ok done
  have cur := scheduled.mem_created
  have effect := scheduled.effect stepped
  have sched : ∃ root Q, Scheduled init root Q k := by
    obtain ⟨Q', next, _⟩ := (scheduled.step c).of_ok stepped
    exact ⟨root, Q', next⟩
  have numbers : Numbered k := h.numbers.step cur slot effect
  cases effect with
  | paused _ _ call store keeps =>
      rcases call with rfl | rfl
      · exact ⟨sched, numbers, h.keeps keeps⟩
      · exact ⟨sched, numbers, h.keeps keeps⟩
  | wrote addr byte _ free given bytes keeps => exact ⟨sched, numbers, h.keeps keeps⟩
  | refused path _ none left keeps =>
      have same : t.after env k (.execve path) = ⟨k, t.own, t.roof⟩ := by
        simp [Tracked.after, none]
      rw [same]
      exact ⟨sched, numbers, h.keeps keeps⟩
  | declined len flags fd _ bytes free given keeps =>
      have same : t.after env k (.mmap len flags fd) = ⟨k, t.own, t.roof⟩ := by
        simp [Tracked.after, keeps.memtab]
      rw [same]
      exact ⟨sched, numbers, h.keeps keeps⟩
  | loaded path bin cr3 entry base sz regions _ file image memtab pid created procs self =>
      have same : t.after env k (.execve path) = ⟨k, Function.update t.own t.kernel.proc.pid true,
          Function.update t.roof t.kernel.proc.pid mmapLimit⟩ := by
        simp [Tracked.after, file]
      have number : (k.procs t.kernel.curthread).unqueued.pid = t.kernel.proc.unqueued.pid := by
        rw [self]
      have place : (k.procs t.kernel.curthread).unqueued.mmapBase = base := by rw [self]
      rw [same]
      exact ⟨sched, numbers, h.update memtab created procs ⟨number, place⟩
        (loads path bin cr3 entry base sz regions _ rfl file scheduled.sound image)⟩
  | mapped len flags fd mem pa s s₁ _ nonzero limit bytes free given backed linked memtab pid created
      procs self =>
      have changed : k.memtab t.kernel.proc.pid ≠ t.kernel.memtab t.kernel.proc.pid := by
        rw [memtab, Function.update_self]
        intro same
        have lengths := congrArg (fun tab => tab.regions.length) same
        simp at lengths
      have same : t.after env k (.mmap len flags fd) =
          ⟨k, Function.update t.own t.kernel.proc.pid false, t.roof⟩ := by
        simp [Tracked.after, changed]
      have number : (k.procs t.kernel.curthread).unqueued.pid = t.kernel.proc.unqueued.pid := by
        rw [self]
      have place : (k.procs t.kernel.curthread).unqueued.mmapBase =
          u32 (t.kernel.proc.mmapBase + pgRoundup len) := by rw [self]
      have each := h.update memtab created procs ⟨number, place⟩
        (maps len flags fd mem pa s s₁ rfl (scheduled.sound.write free given) limit backed h.cur)
      simp only [Function.update_eq_self] at each
      rw [same]
      exact ⟨sched, numbers, each⟩
  | unforked kstack s _ took full memtab pid created procs =>
      refine ⟨sched, numbers, fun p mem => ?_⟩
      simp only [Tracked.after] at mem ⊢
      rw [created] at mem
      obtain ⟨number, base⟩ := fields_of_unqueued (procs p mem)
      have below := h.numbers.below p mem
      rw [number, base, memtab, Function.update_of_ne (by omega), Function.update_of_ne (by omega)]
      exact h.each p mem
  | forked kstack mem pd s s₁ s₂ s₃ regions _ took made block nonnull copied filled bytes free given
      memtab pid created procs child =>
      have list := copyRegions_regions _ _ _ _ filled
      simp only [h.numbers.unused t.kernel.pid (Nat.le_refl _) (slot rfl), List.append_nil] at list
      refine ⟨sched, numbers, fun p mem => ?_⟩
      simp only [Tracked.after] at mem ⊢
      rw [created] at mem
      rcases List.mem_append.mp mem with old | new
      · obtain ⟨number, base⟩ := fields_of_unqueued (procs p old)
        have below := h.numbers.below p old
        rw [number, base, memtab, Function.update_of_ne (by omega), Function.update_of_ne (by omega),
          Function.update_of_ne (by omega)]
        exact h.each p old
      · rw [List.mem_singleton.mp new, child.1, child.2.2.1, memtab, list]
        simp only [Function.update_self]
        exact forks _ h.cur

end Each

structure TablesAtBoot (env : Env) (k : Kernel) : Prop where
  empty : ∀ i, 1 ≤ i → i ≤ maxprocs → (k.memtab i).regions = []
  ok : ∀ bin, env.initrd.program (pathBytes "/sbin/init") = some bin → SegsOk (env.initrd.segments bin)

theorem Started.each {init : List Block} {env : Env} {P : Bool → Nat → ProcMmap → Nat → Prop}
    {k₀ k : Kernel} (h : Started init env k₀ k) (tables : TablesAtBoot env k₀)
    (loads : ∀ bin cr3 entry base sz regions s s',
      env.initrd.program (pathBytes "/sbin/init") = some bin → s.Sound init →
      loadImage env.kpagedir env.initrd.bytes bin s = .ok (.loaded cr3 entry base sz regions, s') →
      P true mmapLimit ⟨regions, sz⟩ base) : (Tracked.start k).Each init P := by
  obtain ⟨root, scheduled⟩ := h.scheduled
  obtain ⟨kstack, idle, bin, cr3, entry, base, sz, regions, s₁, s₂, s₃, took, file, image, _, _, _, _, memtab,
    pid, created, number, _, place, _⟩ := h.stages
  refine ⟨⟨root, [], scheduled⟩, ⟨fun p mem => ?_, fun p memP q memQ _ => ?_, ?_, fun i lo hi => ?_⟩,
    fun p mem => ?_⟩
  · simp only [Tracked.start, created, List.mem_singleton] at mem ⊢
    rw [mem, number, pid]
    decide
  · simp only [Tracked.start, created, List.mem_singleton] at memP memQ
    rw [memP, memQ]
  · simp only [Tracked.start, pid, maxprocs]
    decide
  · simp only [Tracked.start, pid, memtab] at lo ⊢
    rw [Function.update_of_ne (by omega)]
    exact tables.empty i (by omega) hi
  · simp only [Tracked.start, created, List.mem_singleton] at mem ⊢
    rw [mem, number, place, memtab, Function.update_self]
    exact loads bin cr3 entry base sz regions s₁ s₂ file took.sound image

theorem smallKernel_tables : TablesAtBoot (smallEnv alignedSegment) smallKernel :=
  ⟨fun _ _ _ => rfl, segsOk_program smallEnv_program smallEnv_segments (by decide) (by decide)⟩

end Trunix
