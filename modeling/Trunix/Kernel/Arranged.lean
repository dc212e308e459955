import Trunix.Kernel.Tables

/-!
# Regions that do not overlap

`sys_mmap` puts every mapping at `mmap_base` and never looks at the list.  That is right
while no region lies between `mmap_base` and the end of the new mapping: above the
program that `loadelf` has laid out there is nothing up to the stack.
-/

set_option autoImplicit false

namespace Trunix

open Trunix.Lib

def VmRegion.range (m : VmRegion) : Set Nat := Set.Ico (pgRounddown m.va) (pgRounddown m.va + m.len)

structure RegionsOk (regions : List VmRegion) : Prop where
  apart : (regions.map VmRegion.range).Pairwise Disjoint
  below : ∀ m ∈ regions, pgRounddown m.va + m.len ≤ kernelOffset

/-- No region lies between `base` and `roof`. -/
structure Arranged (roof : Nat) (regions : List VmRegion) (base : Nat) : Prop
    extends RegionsOk regions where
  gap : ∀ m ∈ regions, pgRounddown m.va + m.len ≤ base ∨ roof ≤ pgRounddown m.va
  base_le : base ≤ roof
  whole : base % 0x1000 = 0
  roof_le : roof ≤ mmapLimit

/-! ## The three calls that change a list -/

theorem layout_ranges {segs : List Proghdr} (ok : SegsOk segs) : ∀ mem : Nat,
    (layout segs mem).map VmRegion.range = segs.map fun ph => Set.Ico ph.firstPage ph.endPage := by
  induction segs with
  | nil => intro mem; rfl
  | cons ph rest ih =>
      intro mem
      obtain ⟨reach, _⟩ := ok.spans (List.mem_cons_self : ph ∈ ph :: rest)
      have first : (segmentRegion ph mem).range = Set.Ico ph.firstPage ph.endPage := by
        rw [← reach]
        rfl
      rw [layout, List.map_cons, List.map_cons, ih ok.tail, first]

theorem mem_layout : ∀ (segs : List Proghdr) (mem : Nat) {m : VmRegion}, m ∈ layout segs mem →
    ∃ ph ∈ segs, pgRounddown m.va = ph.firstPage ∧ m.len = ph.len := by
  intro segs
  induction segs with
  | nil => intro mem m inside; exact absurd inside List.not_mem_nil
  | cons ph rest ih =>
      intro mem m inside
      rcases List.mem_cons.mp inside with rfl | later
      · exact ⟨ph, List.mem_cons_self, rfl, rfl⟩
      · obtain ⟨other, inRest, same⟩ := ih _ later
        exact ⟨other, List.mem_cons_of_mem _ inRest, same⟩

/-- The program that `loadelf` lays out ends at `mmap_base`, and above it there is only
the stack. -/
theorem loadImage_arranged {init : List Block} {env : Env} {bin cr3 entry base sz : Nat}
    {regions : List VmRegion} {s s' : Store} (sound : s.Sound init)
    (ok : SegsOk (env.initrd.segments bin))
    (image : loadImage env.kpagedir env.initrd.bytes bin s =
      .ok (.loaded cr3 entry base sz regions, s')) : Arranged mmapLimit regions base := by
  obtain ⟨blk, loaded⟩ := loadImage_loaded sound ok image
  have ok' : SegsOk (segments (proghdrs env.initrd.bytes bin)) := ok
  have limit : mmapLimit = 0x7FFFF000 := rfl
  have offset : kernelOffset = 0x80000000 := rfl
  have stackPage : pgRounddown 0x7FFFF000 = 0x7FFFF000 := by decide
  obtain ⟨whole, top⟩ := highest_bound _ 0 ok' rfl (Nat.zero_le _)
  rw [← loaded.base] at whole top
  have segment : ∀ m ∈ layout (segments (proghdrs env.initrd.bytes bin)) blk,
      pgRounddown m.va + m.len ≤ base := by
    intro m inside
    obtain ⟨ph, inSegs, first, len⟩ := mem_layout _ _ inside
    have spans := ok'.spans inSegs
    have below := ok'.below ph inSegs
    have high := (le_highest (segments (proghdrs env.initrd.bytes bin)) 0).2 ph inSegs
    rw [← loaded.base, u32_of_lt (show ph.va + ph.memsz < 0x100000000 by omega)] at high
    have endEq : ph.endPage = pgRoundup (ph.va + ph.memsz) := rfl
    omega
  have each : ∀ m ∈ regions, (pgRounddown m.va = 0x7FFFF000 ∧ m.len = 0x1000) ∨
      pgRounddown m.va + m.len ≤ base := by
    intro m inside
    rw [loaded.list] at inside
    rcases List.mem_cons.mp inside with rfl | inLayout
    · exact Or.inl ⟨stackPage, rfl⟩
    · exact Or.inr (segment m (List.mem_reverse.mp inLayout))
  refine ⟨⟨?_, fun m inside => ?_⟩, fun m inside => ?_, top, whole, Nat.le_refl _⟩
  · rw [loaded.list, List.map_cons, List.map_reverse, layout_ranges ok', List.pairwise_cons]
    constructor
    · intro range inside
      obtain ⟨ph, inSegs, rfl⟩ := List.mem_map.mp (List.mem_reverse.mp inside)
      have spans := ok'.spans inSegs
      rw [Set.disjoint_left]
      intro x inStack inSegment
      simp only [VmRegion.range, Set.mem_Ico, stackPage] at inStack inSegment
      omega
    · rw [List.pairwise_reverse, List.pairwise_map]
      exact ok'.apart.imp fun disjoint => disjoint.symm
  · rcases each m inside with stack | low
    · omega
    · omega
  · rcases each m inside with stack | low
    · right
      omega
    · exact Or.inl low

/-- Anonymous memory has room in the kernel half, so the end of the mapping does not wrap. -/
theorem Backed.anon_bound {init : List Block} {k : Kernel} {len flags fd mem pa : Nat} {s : Store}
    (sound : k.store.Sound init) (anon : flags &&& mapAnon ≠ 0) (whole : len % 0x1000 = 0)
    (h : Backed k len flags fd mem pa s) : len ≤ 0x80000000 := by
  cases h with
  | anon page s₁ s₂ asked taken cleared =>
      have alloc := sound.alloc len
      rw [taken] at alloc
      cases alloc with
      | none small =>
          rw [Store.memset, touch, pgRoundup_of_aligned whole] at cleared
          by_cases zero : len = 0
          · omega
          · have unmapped : len ≠ 0 ∧ 0 < 0x1000 := ⟨zero, by decide⟩
            rw [if_pos unmapped] at cleared
            cases cleared
      | zero a free nothing => omega
      | some a free pos fits sound₁ => exact fits
  | device fd' asked number opened => exact absurd asked anon

theorem Arranged.map {roof base len pa : Nat} {regions : List VmRegion} (h : Arranged roof regions base)
    (whole : len % 0x1000 = 0) (room : base + len ≤ roof) :
    Arranged roof (⟨base, pa, len⟩ :: regions) (base + len) := by
  have limit : mmapLimit = 0x7FFFF000 := rfl
  have offset : kernelOffset = 0x80000000 := rfl
  have start : pgRounddown base = base := pgRounddown_of_aligned h.whole
  have roofLe := h.roof_le
  have aligned := h.whole
  refine ⟨⟨?_, fun m inside => ?_⟩, fun m inside => ?_, room, by omega, h.roof_le⟩
  · rw [List.map_cons, List.pairwise_cons]
    refine ⟨fun range inside => ?_, h.apart⟩
    obtain ⟨m, inRegions, rfl⟩ := List.mem_map.mp inside
    rw [Set.disjoint_left]
    intro x inNew inOld
    simp only [VmRegion.range, Set.mem_Ico, start] at inNew inOld
    rcases h.gap m inRegions with low | high
    · omega
    · omega
  · rcases List.mem_cons.mp inside with rfl | old
    · simp only [start]
      omega
    · exact h.below m old
  · rcases List.mem_cons.mp inside with rfl | old
    · simp only [start]
      omega
    · rcases h.gap m old with low | high
      · left
        omega
      · exact Or.inr high

theorem copies_ranges : ∀ (old : List VmRegion) (mem : Nat),
    (copies old mem).map VmRegion.range = old.map VmRegion.range := by
  intro old
  induction old with
  | nil => intro mem; rfl
  | cons m rest ih =>
      intro mem
      rw [copies, List.map_cons, List.map_cons, ih]
      rfl

theorem mem_copies : ∀ (old : List VmRegion) (mem : Nat) {c : VmRegion}, c ∈ copies old mem →
    ∃ m ∈ old, c.va = m.va ∧ c.len = m.len := by
  intro old
  induction old with
  | nil => intro mem c inside; exact absurd inside List.not_mem_nil
  | cons m rest ih =>
      intro mem c inside
      rcases List.mem_cons.mp inside with rfl | later
      · exact ⟨m, List.mem_cons_self, rfl, rfl⟩
      · obtain ⟨other, inRest, same⟩ := ih _ later
        exact ⟨other, List.mem_cons_of_mem _ inRest, same⟩

theorem lowestPage_le : ∀ (regions : List VmRegion), lowestPage regions ≤ mmapLimit ∧
    ∀ m ∈ regions, lowestPage regions ≤ pgRounddown m.va := by
  intro regions
  induction regions with
  | nil => exact ⟨Nat.le_refl _, fun m inside => absurd inside List.not_mem_nil⟩
  | cons m rest ih =>
      obtain ⟨limit, each⟩ := ih
      have step : lowestPage (m :: rest) = min (pgRounddown m.va) (lowestPage rest) := rfl
      rw [step]
      refine ⟨by omega, fun other inside => ?_⟩
      rcases List.mem_cons.mp inside with rfl | inRest
      · omega
      · have := each other inRest
        omega

/-- A child has the regions of its parent, and below them there is room from address 0 on. -/
theorem RegionsOk.copy {regions : List VmRegion} (h : RegionsOk regions) (mem : Nat) :
    Arranged (lowestPage regions) (copies regions mem).reverse 0 := by
  obtain ⟨limit, lowest⟩ := lowestPage_le regions
  refine ⟨⟨?_, fun c inside => ?_⟩, fun c inside => ?_, Nat.zero_le _, rfl, limit⟩
  · rw [List.map_reverse, copies_ranges, List.pairwise_reverse]
    exact h.apart.imp fun disjoint => disjoint.symm
  · obtain ⟨m, inOld, va, len⟩ := mem_copies _ _ (List.mem_reverse.mp inside)
    rw [va, len]
    exact h.below m inOld
  · obtain ⟨m, inOld, va, len⟩ := mem_copies _ _ (List.mem_reverse.mp inside)
    right
    rw [va]
    exact lowest m inOld

/-! ## Runs -/

/-- Mappings are anonymous and not empty; a process that was forked and has not loaded a
program since maps only below the lowest region it was born with.  For a process that
has, the roof is `MMAP_LIMIT`, which `sys_mmap` checks itself.  Programs have segments on
disjoint user pages, and there is a slot for every child. -/
def Tracked.MapsBelow (env : Env) (t : Tracked) : Call → Prop
  | .mmap len flags _ => flags &&& mapAnon ≠ 0 ∧ len ≠ 0 ∧
      (u32 (t.kernel.proc.mmapBase + pgRoundup len) < mmapLimit →
        u32 (t.kernel.proc.mmapBase + pgRoundup len) ≤ t.roof t.kernel.proc.pid)
  | .fork => t.kernel.pid ≤ maxprocs
  | .execve path => ∀ bin, env.initrd.program path = some bin → SegsOk (env.initrd.segments bin)
  | c => t.kernel.Allowed c

def Laid (init : List Block) (t : Tracked) : Prop :=
  t.Each init fun _ roof tab base => Arranged roof tab.regions base

theorem Laid.step {init : List Block} {env : Env} {t t' : Tracked} {c : Call} (h : Laid init t)
    (allowed : t.MapsBelow env c) (done : t.step env c = .ok t') : Laid init t' := by
  refine Tracked.Each.step h (by rintro rfl; exact allowed) done ?_ ?_ ?_
  · rintro path bin cr3 entry base sz regions s rfl file sound image
    exact loadImage_arranged sound (allowed bin file) image
  · rintro len flags fd mem pa s s₁ rfl sound limit backed arranged
    obtain ⟨anon, _, roof⟩ := allowed
    have whole := pgRoundup_mod len
    have bound : pgRoundup len ≤ 0x80000000 := Backed.anon_bound sound anon whole backed
    have top : mmapLimit = 0x7FFFF000 := rfl
    have baseLe := arranged.base_le
    have roofLe := arranged.roof_le
    have inside : u32 (t.kernel.proc.mmapBase + pgRoundup len) =
        t.kernel.proc.mmapBase + pgRoundup len := u32_of_lt (by omega)
    have room := roof limit
    rw [inside] at room ⊢
    exact arranged.map whole room
  · intro mem arranged
    exact arranged.toRegionsOk.copy mem

/-- What a call of `sys_mmap` adds to the list lies at the address it returns and meets
nothing that was there. -/
def MapsFresh (env : Env) (k : Kernel) (len flags fd : Nat) : Prop :=
  ∀ r k', sysMmap env k len flags fd = .ok (r, k') →
    (k'.memtab k.proc.pid).regions = (k.memtab k.proc.pid).regions ∨
      ∃ m : VmRegion, (k'.memtab k.proc.pid).regions = m :: (k.memtab k.proc.pid).regions ∧ m.va = r ∧
        m.len = pgRoundup len ∧ ∀ old ∈ (k.memtab k.proc.pid).regions, Disjoint m.range old.range

/-- In every run in which forked processes map only below what they were born with, and no
step goes astray, the regions of every process are disjoint, and so is every new mapping from
them. -/
theorem regions_disjoint {init : List Block} {env : Env} {k₀ k₁ k₂ : Kernel} {entry : Nat} {t : Tracked}
    (atBoot : AtBoot init k₀) (tables : TablesAtBoot env k₀)
    (booted : initsys env k₀ = .ok k₁) (sched : initSched k₁ entry = .ok k₂)
    (run : Runs (Tracked.step env) (fun t c => t.MapsBelow env c ∧ ¬ t.kernel.Astray env c) (.start k₂) t) :
    (∀ p ∈ t.kernel.created, RegionsOk (t.kernel.memtab (t.kernel.procs p).pid).regions) ∧
      ∀ len flags fd,
        t.MapsBelow env (.mmap len flags fd) ∧ ¬ t.kernel.Astray env (.mmap len flags fd) →
          MapsFresh env t.kernel len flags fd := by
  have start : Laid init (.start k₂) := (boot_started atBoot booted sched).each tables
    fun bin cr3 entry base sz regions s s' file sound image =>
      loadImage_arranged sound (tables.ok bin file) image
  have laid := run.invariant (Laid init) start fun t c t' inv ok done => inv.step ok.1 done
  refine ⟨fun p mem => (laid.each p mem).toRegionsOk, fun len flags fd both r k' done => ?_⟩
  have allowed := both.1
  obtain ⟨root, Q, scheduled⟩ := laid.sched
  have stepped : t.step env (.mmap len flags fd) = .ok (t.after env k' (.mmap len flags fd)) := by
    simp only [Tracked.step, Kernel.step, done, ok_bind]
    rfl
  have next := (laid.step allowed stepped).each t.kernel.curthread
  have kernel := t.after_kernel env k' (.mmap len flags fd)
  rw [kernel] at next
  rcases sysMmap_cases done with ⟨_, same⟩ | ⟨_, mapped⟩
  · cases same
    exact Or.inl rfl
  · cases mapped with
    | refused => exact Or.inl rfl
    | unopened => exact Or.inl rfl
    | region mem pa s s₁ s₂ limit bytes free given backed linked =>
        right
        have regions := (next scheduled.mem_created).apart
        simp only [Function.update_self, List.map_cons] at regions ⊢
        have fresh := (List.pairwise_cons.mp regions).1
        exact ⟨_, rfl, rfl, rfl, fun old inOld => fresh _ (List.mem_map_of_mem inOld)⟩

theorem regions_disjoint_mapped : ∃ k₂ k₃, smallBoot alignedSegment = .ok k₂ ∧
    k₂.step (smallEnv alignedSegment) (.mmap 0x1000 1 0) = .ok k₃ ∧
    ∀ p ∈ k₃.created, RegionsOk (k₃.memtab (k₃.procs p).pid).regions := by
  have result : (smallBoot alignedSegment >>= fun k₂ =>
      k₂.step (smallEnv alignedSegment) (.mmap 0x1000 1 0) >>= fun _ =>
      (.ok (decide (k₂.proc.mmapBase + pgRoundup 0x1000 < mmapLimit)) : Except Halt _)) = .ok true := by
    decide +kernel
  obtain ⟨k₂, boot, afterBoot⟩ := bind_eq_ok.mp result
  obtain ⟨k₃, mapped, values⟩ := bind_eq_ok.mp afterBoot
  obtain ⟨k₁, booted, scheduled⟩ := bind_eq_ok.mp boot
  have below := of_decide_eq_true (Except.ok.inj values)
  have stepped : (Tracked.start k₂).step (smallEnv alignedSegment) (.mmap 0x1000 1 0) =
      .ok ((Tracked.start k₂).after (smallEnv alignedSegment) k₃ (.mmap 0x1000 1 0)) := by
    simp only [Tracked.step, Tracked.start, mapped, ok_bind]
    rfl
  have allowed : (Tracked.start k₂).MapsBelow (smallEnv alignedSegment) (.mmap 0x1000 1 0) :=
    ⟨by decide, by decide, fun below => Nat.le_of_lt below⟩
  have steady : ¬ k₂.Astray (smallEnv alignedSegment) (.mmap 0x1000 1 0) :=
    Kernel.not_astray mapped fun wraps => Nat.not_le_of_lt below wraps.2.2
  have result := (regions_disjoint smallKernel_atBoot smallKernel_tables booted scheduled
    (.snoc _ .refl ⟨allowed, steady⟩ stepped)).1
  rw [Tracked.after_kernel] at result
  exact ⟨k₂, k₃, boot, mapped, result⟩

def lowSegment : Proghdr := ⟨1, 84, 0x1000, 8, 0x1000⟩

/-- A child starts to map at address 0, whatever it was born with: its second page is
the data of the program it shares with its parent. -/
theorem child_maps_over_program : ∃ k₂ k₃ k₄ k₅, smallBoot lowSegment = .ok k₂ ∧
    (smallEnv lowSegment).initrd.segments 0x80300000 = [lowSegment] ∧ SegsOk [lowSegment] ∧
    k₂.step (smallEnv lowSegment) .fork = .ok k₃ ∧ k₃.step (smallEnv lowSegment) .yield = .ok k₄ ∧
    k₄.step (smallEnv lowSegment) (.mmap 0x2000 1 0) = .ok k₅ ∧ k₅.proc.pid = 2 ∧
    ¬ RegionsOk (k₅.memtab 2).regions := by
  have result : (smallBoot lowSegment >>= fun k₂ => k₂.step (smallEnv lowSegment) .fork >>= fun k₃ =>
      k₃.step (smallEnv lowSegment) .yield >>= fun k₄ =>
      k₄.step (smallEnv lowSegment) (.mmap 0x2000 1 0) >>= fun k₅ =>
      (.ok (k₅.proc.pid, (k₅.memtab 2).regions.map fun m => (m.va, m.len)) : Except Halt _)) =
      .ok (2, [(0, 0x2000), (0x1000, 0x1000), (0x7FFFF000, 0x1000)]) := by
    decide +kernel
  obtain ⟨k₂, boot, afterBoot⟩ := bind_eq_ok.mp result
  obtain ⟨k₃, forked, afterFork⟩ := bind_eq_ok.mp afterBoot
  obtain ⟨k₄, yielded, afterYield⟩ := bind_eq_ok.mp afterFork
  obtain ⟨k₅, mapped, values⟩ := bind_eq_ok.mp afterYield
  simp only [Except.ok.injEq, Prod.mk.injEq] at values
  refine ⟨k₂, k₃, k₄, k₅, boot, by decide +kernel, segsOk_singleton (by decide) (by decide), forked, yielded,
    mapped, values.1, fun ok => ?_⟩
  have ranges : (k₅.memtab 2).regions.map VmRegion.range =
      [(0, 0x2000), (0x1000, 0x1000), (0x7FFFF000, 0x1000)].map fun p =>
        Set.Ico (pgRounddown p.1) (pgRounddown p.1 + p.2) := by
    rw [← values.2, List.map_map]
    rfl
  have apart := ok.apart
  rw [ranges] at apart
  have first := (List.pairwise_cons.mp apart).1 _ List.mem_cons_self
  have low : pgRounddown 0 = 0 := by decide
  have second : pgRounddown 0x1000 = 0x1000 := by decide
  simp only [low, second] at first
  exact Set.disjoint_left.mp first ⟨Nat.zero_le 0x1000, by decide⟩ ⟨Nat.le_refl 0x1000, by decide⟩

end Trunix
