import Trunix.Kernel.Ledger

/-!
# When no page leaks

The kernel never gives a page back: `sys_execve` drops the old program with its directory,
a `sys_fork` that finds no memory for the copy keeps the stack it took, and `loadelf`
refuses some files after it has made a directory.  A program with a gap between its
segments leaves pages of its block that no region leads to.  In runs without these four
every page has an owner.
-/

set_option autoImplicit false

namespace Trunix

open Trunix.Lib

/-- What the boot takes for the kernel itself: the blocks from before the first process,
and those from after its program was loaded, which are the buffers of the console and the
stack of the scheduler. -/
def BootBlock (env : Env) (k₀ k₂ : Kernel) (b : Block) : Prop :=
  b ∈ k₀.store.given ∨ ∃ k, initproc env k₀ = .ok k ∧ b ∈ k₂.store.given ∧ b ∉ k.store.given

/-- The memory of the device behind a descriptor, over the rounded length, is not memory
that `alloc_pages` hands out, and the end of the mapping does not wrap. -/
def Kernel.DeviceClear (init : List Block) (k : Kernel) (len fd : Nat) : Prop :=
  k.proc.mmapBase + pgRoundup len < 0x100000000 ∧ ∀ fd' : Fin maxfiles, fd'.val = fd →
    (k.files (k.proc.ofile fd')).data ≠ 0 ∧
      k.fbdevs (k.files (k.proc.ofile fd')).data < 0x100000000 ∧
      ∀ x ∈ (⟨0, k.fbdevs (k.files (k.proc.ofile fd')).data, pgRoundup len⟩ : VmRegion).bytes,
        Outside init x

/-- A fork is by a process whose list `loadelf` made and that has mapped nothing since,
there is a slot for the child and memory for its stack and its copy of the program; no
`execve` gets so far as to make a directory; a device lies outside the memory of the
kernel; and nobody exits. -/
def Tracked.Frugal (init : List Block) (env : Env) (t : Tracked) : Call → Prop
  | .fork => t.own t.kernel.proc.pid = true ∧ t.kernel.pid ≤ maxprocs ∧
      ((t.kernel.store.allocPages kstackSize).2.allocPages
        (t.kernel.memtab t.kernel.proc.pid).sz).1 ≠ 0
  | .execve path => env.initrd.elf path = none
  | .exit => False
  | .mmap len flags fd => flags &&& mapAnon = 0 → t.kernel.DeviceClear init len fd
  | c => t.kernel.Allowed c

def FullTab (own : Bool) (tab : ProcMmap) (base : Nat) : Prop :=
  (own = true → ImageTab tab ∧ span tab.regions = tab.sz) ∧ base ≤ mmapLimit

theorem loadImage_fullTab {init : List Block} {env : Env} {bin cr3 entry base sz : Nat}
    {regions : List VmRegion} {s s' : Store} (sound : s.Sound init)
    (ok : SegsOk (env.initrd.segments bin)) (gapless : Gapless (env.initrd.segments bin))
    (image : loadImage env.kpagedir env.initrd.bytes bin s =
      .ok (.loaded cr3 entry base sz regions, s')) : FullTab true ⟨regions, sz⟩ base := by
  obtain ⟨blk, loaded⟩ := loadImage_loaded sound ok image
  have tab := loaded.imageTab ok
  have size : sz = strides (env.initrd.segments bin) + 0x1000 := by
    rw [loaded.size, loaded.base]
    exact gapless
  have total : span regions = 0x1000 + ((env.initrd.segments bin).map Proghdr.len).sum := LoadedAt.span ok loaded
  have strideLe := strides_le ok
  have room := tab.room
  have top : base ≤ mmapLimit := (loadImage_arranged sound ok image).base_le
  simp only at room
  refine ⟨fun _ => ⟨tab, ?_⟩, top⟩
  show span regions = sz
  omega

/-! ## The steps -/

structure Accounted (init : List Block) (boot : Block → Prop) (t : Tracked) : Prop where
  each : t.Each init fun own _ tab base => FullTab own tab base
  ledger : Ledger init boot t.kernel

theorem Accounted.each_step {init : List Block} {boot : Block → Prop} {env : Env} {t t' : Tracked}
    {c : Call} (h : Accounted init boot t) (frugal : t.Frugal init env c)
    (done : t.step env c = .ok t') : t'.Each init fun own _ tab base => FullTab own tab base := by
  have limit : mmapLimit = 0x7FFFF000 := rfl
  refine h.each.step (by rintro rfl; exact frugal.2.1) done ?_ ?_ ?_
  · rintro path bin cr3 entry base sz regions s rfl file
    have found := Initrd.elf_of_program file
    rw [show env.initrd.elf path = none from frugal] at found
    cases found
  · intro len flags fd mem pa s s₁ _ _ below _ _
    exact ⟨fun own => absurd own Bool.false_ne_true, Nat.le_of_lt below⟩
  · intro mem _
    exact ⟨fun own => absurd own Bool.false_ne_true, Nat.zero_le _⟩

theorem Store.allocPages_addr {s s' : Store} (free : s'.free = s.free) (sz : Nat) :
    (s'.allocPages sz).1 = (s.allocPages sz).1 := by
  rw [Store.allocPages, Store.allocPages, free]
  cases takeFit sz s.free with
  | none => rfl
  | some found => rfl

theorem Backed.anon_nothing {init : List Block} {k : Kernel} {flags fd mem pa : Nat} {s : Store}
    (sound : k.store.Sound init) (anon : flags &&& mapAnon ≠ 0)
    (h : Backed k 0 flags fd mem pa s) :
    pa < 0x100000000 ∧ s.given = k.store.given ∧ s.Sound init ∧ s.mem = k.store.mem := by
  cases h with
  | anon page s₁ s₂ asked taken cleared =>
      have empty : ∀ (m : Mem) (a : Nat), fill m a (pgRoundup 0) 0 = m := by
        intro m a
        funext x
        have nothing : pgRoundup 0 = 0 := by decide
        simp only [fill, nothing, Nat.add_zero]
        rw [if_neg (by omega)]
      have alloc := sound.alloc 0
      rw [taken] at alloc
      obtain ⟨_, _, result⟩ := bind_eq_ok.mp cleared
      cases result
      cases alloc with
      | none small => exact ⟨v2p_lt _, rfl, sound.write rfl rfl, empty k.store.mem 0⟩
      | zero a free nothing _ sound₁ => exact ⟨v2p_lt _, rfl, sound₁.write rfl rfl, empty k.store.mem page⟩
      | some a free pos _ _ => exact absurd pos (by decide)
  | device fd' asked number opened => exact absurd asked anon

/-- Anonymous memory is new, and one region is all of it. -/
theorem Backed.anon_leads {init : List Block} {k : Kernel} {s s₁ : Store} {len flags fd mem pa : Nat}
    (base : Nat) (sound : s.Sound init) (anon : flags &&& mapAnon ≠ 0)
    (h : Backed { k with store := s } (pgRoundup len) flags fd mem pa s₁) :
    pa < 0x100000000 ∧ s₁.Sound init ∧ Frame s.mem s₁.mem (s.newBytes s₁) ∧
      ∃ extra, s₁.given = extra ++ s.given ∧
        (⟨base, pa, pgRoundup len⟩ : VmRegion).bytes ⊆ s.newBytes s₁ ∧
        ∀ b ∈ extra, Fills b.addr b.sz [⟨base, pa, pgRoundup len⟩] := by
  have aligned := pgRoundup_mod len
  generalize pgRoundup len = n at *
  by_cases nothing : n = 0
  · subst nothing
    obtain ⟨bound, given, sound₁, bytes⟩ := h.anon_nothing sound anon
    refine ⟨bound, sound₁, fun x _ => by rw [bytes], [], given, fun x inRegion => ?_,
      fun b mem => absurd mem List.not_mem_nil⟩
    obtain ⟨j, lt, _⟩ := inRegion
    exact absurd lt (Nat.not_lt_zero j)
  · obtain ⟨page, rfl, given, sound₁, frame⟩ := h.anon_block sound anon aligned nothing
    have own : (⟨page, n⟩ : Block) ∈ s₁.given := given ▸ List.mem_cons_self
    have paged := sound₁.paged own
    simp only at paged
    have fills := Fills.single base paged.2.2.2.1 paged.1 aligned paged.2.2.2.2
    rw [u32_of_lt (by omega)] at fills
    have both : s₁.given = [⟨page, n⟩] ++ s.given := given
    have fresh : (⟨page, n⟩ : Block) ∉ s.given :=
      sound₁.not_mem_of_new both (List.mem_singleton_self _)
    have new : Set.Ico page (page + n) ⊆ s.newBytes s₁ := fun x inside => ⟨_, own, fresh, inside⟩
    refine ⟨v2p_lt _, sound₁, frame.mono new, [⟨page, n⟩], given, fun x inRegion => ?_,
      fun b mem => ?_⟩
    · exact new (fills.inside _ (List.mem_singleton_self _) inRegion)
    · rw [List.mem_singleton.mp mem]
      exact fills

/-- Where the pages of a mapping come from, and how much it takes, when the call is frugal. -/
theorem Backed.leads {init : List Block} {k : Kernel} {s s₁ : Store} {len flags fd mem pa : Nat}
    (base : Nat) (sound : s.Sound init) (frugal : flags &&& mapAnon = 0 → k.DeviceClear init len fd)
    (h : Backed { k with store := s } (pgRoundup len) flags fd mem pa s₁) :
    pa < 0x100000000 ∧ s₁.Sound init ∧ Frame s.mem s₁.mem (s.newBytes s₁) ∧
      ∃ extra, s₁.given = extra ++ s.given ∧
        (∀ x ∈ (⟨base, pa, pgRoundup len⟩ : VmRegion).bytes, x ∈ s.newBytes s₁ ∨ Outside init x) ∧
        ∀ b ∈ extra, Fills b.addr b.sz [⟨base, pa, pgRoundup len⟩] := by
  by_cases anon : flags &&& mapAnon = 0
  · obtain ⟨_, clear⟩ := frugal anon
    cases h with
    | anon page _ _ asked _ _ => exact absurd anon asked
    | device fd' _ number opened =>
        obtain ⟨driven, bound, outside⟩ := clear fd' number
        have addr : deviceAddr { k with store := s } (k.proc.ofile fd') mem =
            k.fbdevs (k.files (k.proc.ofile fd')).data := if_neg driven
        rw [show Kernel.proc { k with store := s } = k.proc from rfl, addr]
        refine ⟨bound, sound, .refl _ _, [], rfl, fun x inRegion => Or.inr (outside x inRegion),
          fun b inNil => absurd inNil List.not_mem_nil⟩
  · obtain ⟨bound, sound₁, frame, extra, given, new, fills⟩ := h.anon_leads base sound anon
    exact ⟨bound, sound₁, frame, extra, given, fun x inRegion => Or.inl (new inRegion), fills⟩

theorem Accounted.ledger_step {init : List Block} {boot : Block → Prop} {env : Env} {t t' : Tracked}
    {c : Call} (h : Accounted init boot t) (frugal : t.Frugal init env c)
    (done : t.step env c = .ok t') : Ledger init boot t'.kernel := by
  obtain ⟨root, Q, scheduled⟩ := h.each.sched
  obtain ⟨k, stepped, rfl⟩ := Tracked.step_eq_ok done
  rw [Tracked.after_kernel]
  have cur := scheduled.mem_created
  have unwritten : ∀ p ∈ t.kernel.created, ∀ x ∈ t.kernel.tables p, x ∉ (∅ : Set Nat) :=
    fun p _ x _ => Set.notMem_empty x
  have sound : k.store.Sound init := by
    obtain ⟨Q', next, _⟩ := (scheduled.step c).of_ok stepped
    exact next.sound
  cases scheduled.effect stepped with
  | paused _ _ call store keeps =>
      exact h.ledger.keeps keeps (by rw [store]) (fun x _ => by rw [store]) unwritten
  | wrote addr byte _ free given bytes keeps =>
      have frame : Frame t.kernel.store.mem k.store.mem {addr} := by
        intro x ne
        rw [bytes]
        exact if_neg ne
      refine h.ledger.keeps keeps given frame fun p mem x inTables here => ?_
      obtain ⟨m, listed, inRegion⟩ := frugal
      rw [Set.mem_singleton_iff.mp here] at inTables
      exact Set.disjoint_left.mp (h.ledger.separate.clear _ cur m listed p mem) inRegion inTables
  | refused path _ none left keeps =>
      rcases left with ⟨_, store⟩ | ⟨bin, pd, found, _⟩
      · exact h.ledger.keeps keeps (by rw [store]) (fun x _ => by rw [store]) unwritten
      · rw [show env.initrd.elf path = Option.none from frugal] at found
        cases found
  | loaded path bin cr3 entry base sz regions _ file image memtab pid created others self =>
      have found := Initrd.elf_of_program file
      rw [show env.initrd.elf path = Option.none from frugal] at found
      cases found
  | declined len flags fd _ bytes free given keeps =>
      exact h.ledger.keeps keeps given (fun x _ => by rw [bytes]) unwritten
  | mapped len flags fd mem pa s s₁ _ nonzero limit bytes free given backed linked memtab pid created
      others self =>
      have slot := fun p (mem : p ∈ t.kernel.created) ne => h.each.numbers.other_slot cur mem ne
      have soundS : s.Sound init := scheduled.sound.write free given
      have newSame : ∀ s', t.kernel.store.newBytes s' = s.newBytes s' := by
        intro s'
        rw [Store.newBytes, Store.newBytes, given]
      obtain ⟨bound, sound₁, frame, extra, given₁, leads, fills⟩ :=
        backed.leads t.kernel.proc.mmapBase soundS frugal
      rw [given] at given₁
      rw [bytes] at frame
      simp only [← newSame] at frame leads
      have whole := pgRoundup_mod len
      have baseLe : t.kernel.proc.mmapBase ≤ 0x7FFFF000 := h.each.cur.2
      have inside : t.kernel.proc.mmapBase + pgRoundup len < 0x100000000 := by
        by_cases anon : flags &&& mapAnon = 0
        · exact (frugal anon).1
        · have := Backed.anon_bound soundS anon whole backed
          omega
      have below : t.kernel.proc.mmapBase + pgRoundup len < 0x7FFFF000 := by
        rw [u32_of_lt inside] at limit
        exact limit
      have range : pgRounddown t.kernel.proc.mmapBase + pgRoundup (pgRoundup len) ≤ 0x80000000 := by
        rw [pgRoundup_of_aligned whole, pgRounddown_eq]
        omega
      have number : (k.procs t.kernel.curthread).unqueued.pid = t.kernel.proc.unqueued.pid := by
        rw [self]
      have dir : (k.procs t.kernel.curthread).unqueued.cr3 = t.kernel.proc.unqueued.cr3 := by rw [self]
      have stack : (k.procs t.kernel.curthread).unqueued.kstack = t.kernel.proc.unqueued.kstack := by
        rw [self]
      have regions : k.regions t.kernel.curthread =
          ⟨t.kernel.proc.mmapBase, pa, pgRoundup len⟩ :: t.kernel.regions t.kernel.curthread := by
        have slotEq : (k.procs t.kernel.curthread).pid = t.kernel.proc.pid := number
        rw [Kernel.regions, slotEq, memtab, Function.update_self]
        rfl
      refine h.ledger.mapped cur sound₁ given₁ frame
        (fun dir₁ => (allocPt_spec sound₁ dir₁ bound range linked).1) created
        (fun p mem ne => ⟨others p mem ne, ?_⟩) (congrArg p2v dir) stack regions leads fun b inExtra => ?_
      · rw [memtab, Function.update_of_ne (slot p mem ne)]
      · refine (fills b inExtra).ownsBlock (created ▸ cur) fun m listed => ?_
        rw [List.mem_singleton.mp listed, regions]
        exact List.mem_cons_self
  | unforked kstack s _ took full memtab pid created procs =>
      obtain ⟨_, _, room⟩ := frugal
      have none := congrArg Prod.fst full
      rw [Store.allocPages_addr took.free] at none
      exact absurd none room
  | forked kstack mem pd s s₁ s₂ s₃ regions _ took made block nonnull copied filled bytes free given
      memtab pid created others child =>
      obtain ⟨own, room, _⟩ := frugal
      obtain ⟨tab, full⟩ := h.each.cur.1 own
      have copy := ImageTab.copied tab took block nonnull copied filled
      have paged := copy.built.filling.sound.paged (copy.built.mem_block)
      simp only at paged
      have list := copyRegions_regions _ _ _ _ filled
      simp only [h.each.numbers.unused t.kernel.pid (Nat.le_refl _) room, List.append_nil] at list
      have fills := copies_fills (t.kernel.memtab t.kernel.proc.pid).regions mem
        (fun m listed => (tab.users m listed).light) paged.2.2.2.1
        paged.1 (by rw [full]; exact paged.2.2.2.2)
      rw [u32_of_lt (by omega), full] at fills
      have regionsEq : k.regions (kstack + 3992) =
          (copies (t.kernel.memtab t.kernel.proc.pid).regions mem).reverse := by
        rw [Kernel.regions, child.1, memtab, Function.update_self, list]
      have new : kstack + 3992 ∉ t.kernel.created := fun old =>
        took.ne_home (scheduled.homes _ (List.mem_cons_of_mem _ old)) rfl
      have pagedPd := copy.built.filling.sound.paged copy.built.filling.dir.own
      simp only at pagedPd
      have dir : k.dir (kstack + 3992) = pd := by
        rw [Kernel.dir, child.2.1]
        exact p2v_v2p (by omega) (by omega)
      refine h.ledger.born took copy.built sound (fun b old => given ▸ old) (fun x _ => by rw [bytes])
        (fun p => ?_) new (fun p mem _ => ⟨others p mem, ?_⟩) dir child.2.2.2.1 ?_
        (fun b inGiven notIn => absurd (given ▸ inGiven) notIn)
      · rw [created, List.mem_append, List.mem_singleton]
      · have below := h.each.numbers.below p mem
        rw [memtab, Function.update_of_ne (by omega)]
      · rw [regionsEq]
        exact fills.of_mem fun m => List.mem_reverse

/-! ## Runs -/

def GaplessInit (env : Env) : Prop :=
  ∀ bin, env.initrd.program (pathBytes "/sbin/init") = some bin → Gapless (env.initrd.segments bin)

theorem Started.accounted {init : List Block} {env : Env} {k₀ k : Kernel} (h : Started init env k₀ k)
    (atBoot : AtBoot init k₀) (tables : TablesAtBoot env k₀) (gapless : GaplessInit env) :
    Accounted init (BootBlock env k₀ k) (.start k) := by
  obtain ⟨root, scheduled⟩ := h.scheduled
  obtain ⟨kstack, idle, bin, cr3, entry, base, sz, regions, s₁, s₂, s₃, took, file, image,
    ⟨k₁, first, store⟩, grown, bytes, last, memtab, pid, created, number, cr3Eq, _, stack⟩ := h.stages
  have ok := tables.ok bin file
  obtain ⟨blk, s, built, list⟩ := loadImage_built took.sound ok image
  have empty : Ledger init (BootBlock env k₀ k) k₀ := by
    have nobody : ∀ p ∈ k₀.created, False := by
      rw [atBoot.created]
      exact fun p mem => List.not_mem_nil mem
    exact ⟨⟨fun p mem => (nobody p mem).elim, fun p mem => (nobody p mem).elim,
      fun p mem => (nobody p mem).elim, fun p mem => (nobody p mem).elim⟩, fun b mem => Or.inl (Or.inl mem)⟩
  have grow : ∀ b ∈ s₂.given, b ∈ k.store.given := fun b old =>
    last.given ▸ List.mem_cons_of_mem _ (grown.given b old)
  have frame : Frame s₂.mem k.store.mem (s₂.newBytes k.store) := by
    rw [← bytes]
    refine last.newBytes.mono (Store.newBytes_mono grown.given fun _ old => old)
  have each := h.each (P := fun own _ tab base => FullTab own tab base) tables
    fun bin cr3 entry base sz regions s s' file sound image =>
      loadImage_fullTab sound (tables.ok bin file) (gapless bin file) image
  have paged := built.filling.sound.paged built.mem_block
  simp only at paged
  have size : sz = strides (env.initrd.segments bin) + 0x1000 := by
    obtain ⟨blk', loaded⟩ := loadImage_loaded took.sound ok image
    rw [loaded.size, loaded.base]
    exact gapless bin file
  have fills := (gapless bin file).fills ok paged.2.2.2.1 paged.1 (by omega)
  rw [← list, ← size] at fills
  have regionsEq : k.regions (kstack + 3992) = regions := by
    rw [Kernel.regions, number, memtab, Function.update_self]
  have dir : k.dir (kstack + 3992) = p2v cr3 := by rw [Kernel.dir, cr3Eq]
  refine ⟨each, empty.born took built last.sound grow frame (fun p => ?_) ?_ (fun p mem => ?_) dir stack
    (regionsEq ▸ fills) fun b inGiven notIn => Or.inr ⟨k₁, first, inGiven, store ▸ notIn⟩⟩
  · rw [show (Tracked.start k).kernel = k from rfl, created, atBoot.created, List.mem_singleton]
    exact ⟨Or.inr, fun either => either.resolve_left List.not_mem_nil⟩
  · rw [atBoot.created]
    exact List.not_mem_nil
  · rw [atBoot.created] at mem
    exact absurd mem List.not_mem_nil

/-- In every run whose calls are all frugal and do not go astray, every page that `alloc_pages`
has handed out belongs to the kernel since the boot, or to a process. -/
theorem pages_accounted {init : List Block} {env : Env} {k₀ k₁ k₂ : Kernel} {entry : Nat} {t : Tracked}
    (atBoot : AtBoot init k₀) (tables : TablesAtBoot env k₀) (gapless : GaplessInit env)
    (booted : initsys env k₀ = .ok k₁) (sched : initSched k₁ entry = .ok k₂)
    (run : Runs (Tracked.step env) (fun t c => t.Frugal init env c ∧ ¬ t.kernel.Astray env c)
      (.start k₂) t) : NoLeak (BootBlock env k₀ k₂) t.kernel := by
  have start := (boot_started atBoot booted sched).accounted atBoot tables gapless
  have accounted := run.invariant (Accounted init (BootBlock env k₀ k₂)) start
    fun t c t' inv frugal done => ⟨inv.each_step frugal.1 done, inv.ledger_step frugal.1 done⟩
  exact accounted.ledger.noLeak

theorem smallEnv_gapless : GaplessInit (smallEnv alignedSegment) := by
  intro bin file
  rw [smallEnv_program] at file
  cases file
  rw [smallEnv_segments]
  decide

theorem pages_accounted_fork : ∃ k₂ k₃, smallBoot alignedSegment = .ok k₂ ∧
    k₂.step (smallEnv alignedSegment) .fork = .ok k₃ ∧
    NoLeak (BootBlock (smallEnv alignedSegment) smallKernel k₂) k₃ := by
  have result : (smallBoot alignedSegment >>= fun k₂ =>
      k₂.step (smallEnv alignedSegment) .fork >>= fun _ =>
      (.ok (k₂.proc.pid, k₂.pid, decide (((k₂.store.allocPages kstackSize).2.allocPages
        (k₂.memtab k₂.proc.pid).sz).1 ≠ 0 ∧ span (k₂.memtab k₂.proc.pid).regions ≤
        pgRoundup (k₂.memtab k₂.proc.pid).sz)) : Except Halt _)) = .ok (1, 2, true) := by
    decide +kernel
  obtain ⟨k₂, boot, afterBoot⟩ := bind_eq_ok.mp result
  obtain ⟨k₃, forked, values⟩ := bind_eq_ok.mp afterBoot
  obtain ⟨k₁, booted, scheduled⟩ := bind_eq_ok.mp boot
  simp only [Except.ok.injEq, Prod.mk.injEq, decide_eq_true_eq] at values
  obtain ⟨number, next, room, fits⟩ := values
  refine ⟨k₂, k₃, boot, forked, ?_⟩
  have slot : k₂.pid ≤ maxprocs := by
    rw [next]
    decide
  have frugal : (Tracked.start k₂).Frugal smallFree (smallEnv alignedSegment) .fork := by
    refine ⟨?_, slot, room⟩
    simp only [Tracked.start, number]
    decide
  have steady : ¬ k₂.Astray (smallEnv alignedSegment) .fork :=
    Kernel.not_astray forked (Kernel.not_overruns_fork slot fits)
  have stepped : (Tracked.start k₂).step (smallEnv alignedSegment) .fork =
      .ok ((Tracked.start k₂).after (smallEnv alignedSegment) k₃ .fork) := by
    rw [Tracked.step, show (Tracked.start k₂).kernel = k₂ from rfl, forked]
    rfl
  exact pages_accounted smallKernel_atBoot smallKernel_tables smallEnv_gapless booted scheduled
    (.snoc .fork .refl ⟨frugal, steady⟩ stepped)

/-- The first process loads its program once more: nobody owns its old page directory. -/
theorem execve_drops_directory : ∃ k₂ k₃, smallBoot alignedSegment = .ok k₂ ∧
    k₂.step (smallEnv alignedSegment) (.execve (pathBytes "/sbin/init")) = .ok k₃ ∧
    ¬ NoLeak (BootBlock (smallEnv alignedSegment) smallKernel k₂) k₃ := by
  have result : (smallBoot alignedSegment >>= fun k₂ =>
      k₂.step (smallEnv alignedSegment) (.execve (pathBytes "/sbin/init")) >>= fun k₃ =>
      initproc (smallEnv alignedSegment) smallKernel >>= fun k =>
      (.ok (decide (¬ k₃.Owned (k₂.dir k₂.curthread) ∧ k₂.dir k₂.curthread % 0x1000 = 0 ∧
        ⟨k₂.dir k₂.curthread, 0x1000⟩ ∈ k₃.store.given ∧
        ⟨k₂.dir k₂.curthread, 0x1000⟩ ∈ k.store.given)) : Except Halt _)) = .ok true := by
    decide +kernel
  obtain ⟨k₂, boot, afterBoot⟩ := bind_eq_ok.mp result
  obtain ⟨k₃, loaded, afterLoad⟩ := bind_eq_ok.mp afterBoot
  obtain ⟨k, first, values⟩ := bind_eq_ok.mp afterLoad
  simp only [Except.ok.injEq, decide_eq_true_eq] at values
  obtain ⟨ownerless, aligned, given, early⟩ := values
  refine ⟨k₂, k₃, boot, loaded, fun noLeak => ?_⟩
  rcases noLeak _ given with (old | ⟨k', first', _, late⟩) | owned
  · exact absurd old List.not_mem_nil
  · rw [first] at first'
    cases first'
    exact late early
  · refine ownerless (owned _ aligned (Nat.le_refl _) ?_)
    simp only
    omega

end Trunix
