import Trunix.Kernel.Identity
import Trunix.Kernel.Offspring
import Trunix.Kernel.Slots

/-!
# The kernel in every address space

`copykvm` gives every directory the kernel's half of `kpagedir`, and as long as no step goes
astray nothing writes to that half again: `alloc_pt` fills user slots, a process stores
behind its regions, and what a call writes lies in memory that it was given.  So whatever
directory the scheduler loads, the kernel finds its code and its stacks where `pg_identity`
put them.
-/

set_option autoImplicit false

namespace Trunix

open Trunix.Lib

/-! ## The half of one directory -/

def HalfIs (m : Mem) (pd : Nat) (half : Nat → Nat) : Prop :=
  ∀ i, 512 ≤ i → i < 1024 → load32 m (pd + 4 * i) = half i

theorem HalfIs.of_frame {m m' : Mem} {pd : Nat} {half : Nat → Nat} {W : Set Nat} (h : HalfIs m pd half)
    (frame : Frame m m' W) (avoid : ∀ x ∈ page pd, x ∉ W) : HalfIs m' pd half := by
  intro i low lt
  rw [← h i low lt]
  apply frame.load32_eq
  intro x lo hi
  apply avoid
  simp only [page, Set.mem_Ico]
  omega

theorem HalfIs.of_same {m m' : Mem} {pd : Nat} {half : Nat → Nat} (h : HalfIs m pd half)
    (same : ∀ i, 512 ≤ i → i < 1024 → load32 m' (pd + 4 * i) = load32 m (pd + 4 * i)) : HalfIs m' pd half :=
  fun i low lt => (same i low lt).trans (h i low lt)

/-- A page outside the blocks of the boot stays as it is where new memory is written. -/
theorem HalfIs.reserved {init : List Block} {s s' : Store} {pd : Nat} {half : Nat → Nat}
    (h : HalfIs s.mem pd half) (reserved : Reserved init pd) (sound : s'.Sound init)
    (frame : Frame s.mem s'.mem (s.newBytes s')) : HalfIs s'.mem pd half := by
  refine h.of_frame frame fun x inPage new => ?_
  obtain ⟨b, given, _, lo, hi⟩ := new
  have away := reserved.apart sound given
  simp only [page, Set.mem_Ico] at inPage
  omega

section Built

variable {init : List Block} {pd blk sz : Nat} {half : Nat → Nat}

theorem copyRegion_half {off : Nat} {m : VmRegion} {s s₁ s₂ s₃ : Store}
    (sound : s.Sound init) (dir : PageDir s pd) (own : ⟨blk, sz⟩ ∈ s.given)
    (clear : ∀ x ∈ tableBytes s.mem pd, x ∉ Set.Ico blk (blk + sz)) (light : m.Light)
    (room : off + m.len ≤ sz) (bytes : s₁.mem = s.mem) (free : s₁.free = s.free)
    (given : s₁.given = s.given)
    (linked : allocPt pd m.va (v2p (u32 (blk + off))) m.len userFlags s₁ = .ok s₂)
    (moved : s₂.memmove (u32 (blk + off)) (fun i => s₂.mem (p2v m.pa + i)) m.len = .ok s₃)
    (is : HalfIs s.mem pd half) : HalfIs s₃.mem pd half := by
  have mapping := allocPt_mapping (sound.write free given) (dir.of_same bytes given) light.range linked
  have paged := sound.paged own
  simp only at paged
  have is₂ : HalfIs s₂.mem pd half := (bytes.symm ▸ is).of_same mapping.kernel
  obtain ⟨_, touched, result⟩ := bind_eq_ok.mp moved
  cases result
  have frame := blit_frame s₂.mem (u32 (blk + off)) m.len fun i => s₂.mem (p2v m.pa + i)
  refine is₂.of_frame frame fun x inPage written => ?_
  have before : ∀ x ∈ tableBytes s₁.mem pd, x ∉ Set.Ico blk (blk + sz) := by
    rw [bytes]
    exact clear
  have own₁ : ⟨blk, sz⟩ ∈ s₁.given := given ▸ own
  refine mapping.clear own₁ before x (.inl inPage) ?_
  simp only [Set.mem_Ico] at written ⊢
  by_cases empty : m.len = 0
  · omega
  · rw [u32_of_lt (by omega)] at written
    omega

theorem copyRegions_half : ∀ (old : List VmRegion) (off : Nat)
    (regions : List VmRegion) (s : Store) {r : List VmRegion × Store}, s.Sound init → PageDir s pd →
    ⟨blk, sz⟩ ∈ s.given → (∀ x ∈ tableBytes s.mem pd, x ∉ Set.Ico blk (blk + sz)) →
    (∀ m ∈ old, m.Light) → off + span old ≤ sz →
    copyRegions pd old (u32 (blk + off)) regions s = .ok r → HalfIs s.mem pd half →
    HalfIs r.2.mem pd half := by
  intro old
  induction old with
  | nil =>
      intro off regions s r _ _ _ _ _ _ done is
      cases done
      exact is
  | cons m rest ih =>
      intro off regions s r sound dir own clear lights room done is
      have light := lights m List.mem_cons_self
      have spanEq : span (m :: rest) = m.len + span rest := by
        simp only [span, List.map_cons, List.sum_cons, light.rounded]
      rw [copyRegions] at done
      obtain ⟨⟨node, s₁⟩, allocated, afterNode⟩ := bind_eq_ok.mp done
      obtain ⟨_, _, afterTouch⟩ := bind_eq_ok.mp afterNode
      obtain ⟨s₂, linked, afterLink⟩ := bind_eq_ok.mp afterTouch
      obtain ⟨s₃, moved, afterMove⟩ := bind_eq_ok.mp afterLink
      obtain ⟨bytes, free, given⟩ := Store.kmalloc_heap allocated
      have first := copyRegion_filling sound dir own clear light (by omega) bytes free given linked moved
      have is₃ := copyRegion_half sound dir own clear light (by omega) bytes free given linked moved is
      have next : u32 (u32 (blk + off) + pgRoundup m.len) = u32 (blk + (off + m.len)) := by
        rw [u32_add, light.rounded, Nat.add_assoc]
      simp only [next] at afterMove
      exact ih (off + m.len) _ s₃ first.sound first.dir (first.mem_given own) (first.clear own clear)
        (fun other mem => lights other (List.mem_cons_of_mem _ mem)) (by omega) afterMove is₃

theorem loadImage_half {kpagedir bin cr3 entry base size : Nat} {m : Mem} {regions : List VmRegion}
    {s s' : Store} {segs : List Proghdr} (sound : s.Sound init) (reserved : Reserved init kpagedir)
    (all : segments (proghdrs m bin) = segs) (fits : CopiesFit (blockSize segs) segs 0)
    (user : UserPages segs)
    (done : loadImage kpagedir m bin s = .ok (.loaded cr3 entry base size regions, s'))
    (is : HalfIs s.mem kpagedir half) : HalfIs s'.mem (p2v cr3) half := by
  obtain ⟨s₃, pass, dirEq, begins, kernel, loaded, linked⟩ := loadImage_begins sound reserved all done
  have avoid := (CopiesClear.of_fits sound reserved all fits done).1
  rw [← dirEq] at avoid
  have types : ∀ ph ∈ segs, ph.type = 1 := all ▸ segments_load _
  have passed := loadHdrs_halfKept segs _ _ s₃ begins.loadable.sound begins.loadable.dir types avoid user
    loaded
  have stack := allocPt_mapping passed.sound passed.dir (Or.inr (by decide)) linked
  have begun : HalfIs s₃.mem (p2v cr3) half := fun i low lt => (kernel i low lt).trans (is i low lt)
  exact (begun.of_same passed.kernel).of_same stack.kernel

end Built

/-! ## Regions in a block -/

theorem layout_light {segs : List Proghdr} (user : UserPages segs) : ∀ mem : Nat,
    ∀ m ∈ layout segs mem, m.Light := by
  induction segs with
  | nil => intro mem m inside; exact absurd inside List.not_mem_nil
  | cons ph rest ih =>
      intro mem m inside
      rcases List.mem_cons.mp inside with rfl | later
      · exact (user ph List.mem_cons_self).imp_right fun below => ⟨ph.len_aligned, below⟩
      · exact ih (fun other inRest => user other (List.mem_cons_of_mem _ inRest)) _ m later

/-- The regions of a program that stays in its block lead there, and so does that of its stack. -/
theorem PagesFit.inside {blk sz : Nat} (high : 0x80000000 ≤ blk) (aligned : blk % 0x1000 = 0)
    (bound : blk + sz ≤ 0x100000000) : ∀ (segs : List Proghdr) (off : Nat), off % 0x1000 = 0 →
    PagesFit sz segs off →
    (∀ m ∈ layout segs (u32 (blk + off)), m.bytes ⊆ Set.Ico blk (blk + sz)) ∧
      VmRegion.bytes ⟨0x7FFFF000, v2p (layoutEnd segs (u32 (blk + off))), 0x1000⟩ ⊆
        Set.Ico blk (blk + sz) := by
  -- a region of the block
  have within : ∀ {va off len : Nat}, off % 0x1000 = 0 → len % 0x1000 = 0 → len = 0 ∨ off + len ≤ sz →
      VmRegion.bytes ⟨va, v2p (u32 (blk + off)), len⟩ ⊆ Set.Ico blk (blk + sz) := by
    intro va off len whole wholeLen fits x inRegion
    rcases fits with none | fits
    · obtain ⟨j, lt, _⟩ := inRegion
      simp only at lt
      omega
    · have fills := Fills.single va (show 0x80000000 ≤ blk + off by omega) (by omega) wholeLen (by omega)
      have inPiece := fills.inside _ (List.mem_singleton_self _) inRegion
      simp only [Set.mem_Ico] at inPiece ⊢
      omega
  intro segs
  induction segs with
  | nil =>
      intro off whole fits
      refine ⟨fun m inNil => absurd inNil List.not_mem_nil, ?_⟩
      exact within whole (by decide) (Or.inr fits)
  | cons ph rest ih =>
      intro off whole fits
      obtain ⟨first, later⟩ := fits
      have strideMod := pgRoundup_mod ph.memsz
      obtain ⟨others, stack⟩ := ih (u32 (off + pgRoundup ph.memsz)) (u32_aligned (by omega)) later
      rw [← next_place] at others stack
      refine ⟨fun m listed => ?_, stack⟩
      rcases List.mem_cons.mp listed with rfl | inRest
      · exact within whole ph.len_aligned first
      · exact others m inRest

theorem PagesFit.pos {sz : Nat} : ∀ {segs : List Proghdr} {off : Nat}, PagesFit sz segs off → 0 < sz := by
  intro segs
  induction segs with
  | nil =>
      intro off fits
      have room : off + 0x1000 ≤ sz := fits
      omega
  | cons ph rest ih =>
      intro off fits
      exact ih fits.2

theorem copies_light {old : List VmRegion} : ∀ (mem : Nat), (∀ m ∈ old, m.Light) →
    (∀ c ∈ copies old mem, c.Light) ∧ span (copies old mem) = span old := by
  induction old with
  | nil => intro mem _; exact ⟨fun c inside => absurd inside List.not_mem_nil, rfl⟩
  | cons m rest ih =>
      intro mem lights
      obtain ⟨later, sum⟩ := ih (u32 (mem + pgRoundup m.len)) fun other inRest =>
        lights other (List.mem_cons_of_mem _ inRest)
      refine ⟨fun c inside => ?_, ?_⟩
      · rcases List.mem_cons.mp inside with rfl | inRest
        · exact lights m List.mem_cons_self
        · exact later c inRest
      · simp only [span] at sum
        simp only [copies, span, List.map_cons, List.sum_cons, sum]

theorem LoadFits.built {init : List Block} {kpagedir bin cr3 entry base sz : Nat} {m : Mem}
    {regions : List VmRegion} {s s' : Store} {segs : List Proghdr} (fits : LoadFits segs)
    (sound : s.Sound init) (all : segments (proghdrs m bin) = segs)
    (image : loadImage kpagedir m bin s = .ok (.loaded cr3 entry base sz regions, s')) :
    ∃ blk s₁, Built init (p2v cr3) blk sz s s₁ s' ∧ (∀ m ∈ regions, m.bytes ⊆ Set.Ico blk (blk + sz)) ∧
      (∀ m ∈ regions, m.Light) ∧ 0 < span regions := by
  obtain ⟨blk, s₁, size, built, list⟩ := loadImage_builds sound all fits.copies fits.user fits.pages.pos image
  have paged := built.filling.sound.paged built.mem_block
  simp only at paged
  have start : u32 (blk + 0) = blk := u32_of_lt (by omega)
  have pages := fits.pages
  rw [← size] at pages
  obtain ⟨segments, stack⟩ := PagesFit.inside paged.2.2.2.1 paged.1 paged.2.2.2.2 _ 0 rfl pages
  rw [start] at segments stack
  subst list
  refine ⟨blk, s₁, built, fun m listed => ?_, fun m listed => ?_, ?_⟩
  · rcases List.mem_cons.mp listed with rfl | inSegments
    · exact stack
    · exact segments m (List.mem_reverse.mp inSegments)
  · rcases List.mem_cons.mp listed with rfl | inSegments
    · have top : pgRounddown 0x7FFFF000 + 0x1000 ≤ 0x80000000 := by decide
      exact Or.inr ⟨Nat.mod_self _, top⟩
    · exact layout_light fits.user _ m (List.mem_reverse.mp inSegments)
  · have page : pgRoundup 0x1000 = 0x1000 := by decide
    simp only [span, List.map_cons, List.sum_cons, page]
    omega

/-! ## The register `cr3` -/

theorem scheduler_register {k k' : Kernel} (done : scheduler k = .ok k') : k'.cr3 = k'.proc.cr3 := by
  rw [scheduler] at done
  generalize k.queue.search (fun p => (k.procs p).state = .ready) queueLimit k.tqhFirst = found at done
  rcases found with _ | _ | p
  · cases done
  · cases done
  · obtain ⟨k₁, removed, result⟩ := bind_eq_ok.mp done
    cases edited : (Kernel.queue { k with curthread := p }).remove p with
    | none =>
        rw [edited] at removed
        cases removed
    | some q =>
        rw [edited] at removed
        cases removed
        cases result
        rfl

theorem yield_register {k k' : Kernel} (done : yield k = .ok k') : k'.cr3 = k'.proc.cr3 := by
  obtain ⟨_, _, switch⟩ := bind_eq_ok.mp done
  exact scheduler_register switch

/-- The directory in `cr3` is always that of the running process. -/
theorem Scheduled.register {init : List Block} {root : Nat} {Q : List Nat} {env : Env} {k k' : Kernel}
    {c : Call} (h : Scheduled init root Q k) (before : k.cr3 = k.proc.cr3) (done : k.step env c = .ok k') :
    k'.cr3 = k'.proc.cr3 := by
  have home := h.homes _ (List.mem_cons_of_mem _ h.mem_created)
  cases c with
  | yield => exact yield_register done
  | write addr byte =>
      cases done
      exact before
  | exit =>
      rw [Kernel.step, sysExit] at done
      split at done
      · cases done
      · exact yield_register done
  | execve path =>
      obtain ⟨⟨r, k₁⟩, loaded, after⟩ := bind_eq_ok.mp done
      cases r with
      | some p => exact yield_register after
      | none =>
          cases after
          rcases loadelf_cases loaded with ⟨_, _, s, _, rfl⟩ | ⟨_, _, _, _, _, _, _, _, _, some, _⟩
          · exact before
          · cases some
  | fork =>
      obtain ⟨⟨r, k₁⟩, forked, result⟩ := bind_eq_ok.mp done
      cases result
      cases sysFork_cases h.sound home forked with
      | failed kstack s s' frames took full =>
          simp only [Kernel.proc, Function.update_of_ne (took.ne_home home)]
          exact before
      | child kstack mem pd s s₁ s₂ s₃ s₄ regions ofile frames files k₁ took _ _ _ _ _ _ _ _ queued =>
          obtain ⟨q, _, rfl⟩ := enqueue_proc queued
          simp only [Kernel.proc, Kernel.setQueue, Function.update_of_ne (took.ne_home home)]
          exact before
  | mmap len flags fd =>
      obtain ⟨⟨r, k₁⟩, mapped, result⟩ := bind_eq_ok.mp done
      cases result
      rcases sysMmap_cases mapped with ⟨_, same⟩ | ⟨_, mapped⟩
      · cases same
        exact before
      · cases mapped with
        | refused => exact before
        | unopened => exact before
        | region =>
            simp only [Kernel.proc, Function.update_self]
            exact before

/-! ## The halves of all directories -/

structure Kernel.Upper (env : Env) (half : Nat → Nat) (k : Kernel) : Prop where
  kernel : HalfIs k.store.mem env.kpagedir half
  processes : ∀ p ∈ k.created, HalfIs k.store.mem (k.dir p) half

/-- The list of the process is a program's or a copy of one, with what was mapped since: a copy
of it stays in a block of its length, and it leads to memory that was handed out. -/
structure Kernel.Portable (k : Kernel) (p : Nat) : Prop where
  light : ∀ m ∈ k.regions p, m.Light
  full : 0 < span (k.regions p)
  taken : ∀ m ∈ k.regions p, m.bytes ⊆ k.store.taken

/-- Nobody's regions lead to a table, no two processes share a table, and every directory has
the kernel's half. -/
structure Kernel.Sheltered (init : List Block) (env : Env) (half : Nat → Nat) (k : Kernel) : Prop where
  slots : SlotsOk k
  unused : ∀ i, k.pid ≤ i → i ≤ maxprocs → (k.memtab i).regions = []
  separate : Separate init k
  upper : k.Upper env half
  portable : ∀ p ∈ k.created, k.Portable p

theorem Kernel.Portable.keep {k k' : Kernel} {p : Nat} (h : k.Portable p)
    (regions : k'.regions p = k.regions p) (given : ∀ b ∈ k.store.given, b ∈ k'.store.given) :
    k'.Portable p := by
  obtain ⟨light, full, taken⟩ := h
  rw [← regions] at light full taken
  exact ⟨light, full, fun m listed => (taken m listed).trans (Store.taken_mono given)⟩

theorem Kernel.Portable.in_block {k : Kernel} {p blk sz : Nat} (own : ⟨blk, sz⟩ ∈ k.store.given)
    (light : ∀ m ∈ k.regions p, m.Light) (full : 0 < span (k.regions p))
    (inside : ∀ m ∈ k.regions p, m.bytes ⊆ Set.Ico blk (blk + sz)) : k.Portable p :=
  ⟨light, full, fun m listed _ inRegion => ⟨_, own, inside m listed inRegion⟩⟩

/-- What a mapping takes; the memory of a device is none of the kernel's. -/
theorem Backed.fresh {init : List Block} {k : Kernel} {len flags fd mem pa : Nat} {s s₁ : Store}
    (sound : s.Sound init) (device : k.DeviceHigh (.mmap len flags fd))
    (backed : Backed { k with store := s } (pgRoundup len) flags fd mem pa s₁) :
    s₁.Sound init ∧ (∀ b ∈ s.given, b ∈ s₁.given) ∧ Frame s.mem s₁.mem (s.newBytes s₁) ∧
      (⟨k.proc.mmapBase, pa, pgRoundup len⟩ : VmRegion).bytes ⊆ s.newBytes s₁ := by
  by_cases anon : flags &&& mapAnon = 0
  · cases backed with
    | anon page _ _ asked _ _ => exact absurd anon asked
    | device fd' _ number opened =>
        obtain ⟨driven, empty⟩ := device anon fd' number opened
        have addr : deviceAddr { k with store := s } (k.proc.ofile fd') mem =
            k.fbdevs (k.files (k.proc.ofile fd')).data := if_neg driven
        rw [show Kernel.proc { k with store := s } = k.proc from rfl, addr, empty]
        exact ⟨sound, fun _ old => old, .refl _ _, Set.empty_subset _⟩
  · obtain ⟨_, sound₁, frame, extra, given, new, _⟩ := backed.anon_leads k.proc.mmapBase sound anon
    exact ⟨sound₁, fun b old => given ▸ List.mem_append_right _ old, frame, new⟩

section Steps

variable {init : List Block} {env : Env} {half : Nat → Nat} {k k' : Kernel} {n : Nat} {W : Set Nat}
  (h : k.Sheltered init env half)

include h

theorem Kernel.Sheltered.quiet (slots : SlotsOk k') (pid : k.pid ≤ k'.pid) (memtab : k'.memtab = k.memtab)
    (created : k'.created = k.created)
    (procs : ∀ p ∈ k.created, (k'.procs p).unqueued = (k.procs p).unqueued)
    (given : ∀ b ∈ k.store.given, b ∈ k'.store.given) (frame : Frame k.store.mem k'.store.mem W)
    (avoid : ∀ p ∈ k.created, ∀ x ∈ k.tables p, x ∉ W) (kernel : ∀ x ∈ page env.kpagedir, x ∉ W) :
    k'.Sheltered init env half := by
  have same : ∀ p ∈ k.created, k'.dir p = k.dir p ∧ k'.regions p = k.regions p := by
    intro p mem
    obtain ⟨dir, regions, _⟩ := owns_eq (procs p mem) (by rw [memtab])
    exact ⟨dir, regions⟩
  refine ⟨slots, fun i lo hi => ?_, h.separate.keeps given created same frame avoid,
    ⟨h.upper.kernel.of_frame frame kernel, fun p mem => ?_⟩, fun p mem => ?_⟩
  · rw [memtab]
    exact h.unused i (by omega) hi
  · rw [created] at mem
    rw [(same p mem).1]
    exact (h.upper.processes p mem).of_frame frame fun x inPage => avoid p mem x (.inl inPage)
  · rw [created] at mem
    exact (h.portable p mem).keep (same p mem).2 given

theorem Kernel.Sheltered.fresh (sound : k'.store.Sound init) (reserved : Reserved init env.kpagedir)
    (given : ∀ b ∈ k.store.given, b ∈ k'.store.given) :
    (∀ p ∈ k.created, ∀ x ∈ k.tables p, x ∉ k.store.newBytes k'.store) ∧
      ∀ x ∈ page env.kpagedir, x ∉ k.store.newBytes k'.store := by
  refine ⟨fun p mem x inTables new => ?_, fun x inPage new => ?_⟩
  · obtain ⟨b, inGiven, inside⟩ := (h.separate.dirs p mem).mem_block inTables
    exact sound.newBytes_outside given new b inGiven inside
  · obtain ⟨b, inGiven, _, lo, hi⟩ := new
    have away := reserved.apart sound inGiven
    simp only [page, Set.mem_Ico] at inPage
    omega

/-- A step that gives the process `n` a directory or a list. -/
theorem Kernel.Sheltered.altered (alters : Alters init k k' n) (slots : SlotsOk k')
    (reserved : Reserved init env.kpagedir)
    (unused : ∀ i, k'.pid ≤ i → i ≤ maxprocs → (k'.memtab i).regions = [])
    (is : HalfIs k'.store.mem (k'.dir n) half) (portable : k'.Portable n) : k'.Sheltered init env half := by
  have other : ∀ p ∈ k'.created, p ≠ n → p ∈ k.created ∧ k'.dir p = k.dir p ∧ k'.regions p = k.regions p := by
    intro p mem ne
    have old : p ∈ k.created := ((alters.created p).mp mem).resolve_right ne
    obtain ⟨same, memtab⟩ := alters.others p old ne
    obtain ⟨dir, regions, _⟩ := owns_eq same memtab
    exact ⟨old, dir, regions⟩
  obtain ⟨fresh, spared⟩ := h.fresh alters.sound reserved alters.given
  refine ⟨slots, unused, h.separate.changed alters, ⟨?_, fun p mem => ?_⟩, fun p mem => ?_⟩
  · refine h.upper.kernel.of_frame alters.frame fun x inPage written => ?_
    rcases written with ⟨old, inTables⟩ | new
    · obtain ⟨b, inGiven, lo, hi⟩ := (h.separate.dirs n old).mem_block inTables
      have away := reserved.apart alters.sound (alters.given b inGiven)
      simp only [page, Set.mem_Ico] at inPage
      omega
    · exact spared x inPage new
  · by_cases here : p = n
    · exact here ▸ is
    · obtain ⟨old, dir, _⟩ := other p mem here
      rw [dir]
      refine (h.upper.processes p old).of_frame alters.frame fun x inPage written => ?_
      rcases written with ⟨before, inTables⟩ | new
      · exact Set.disjoint_left.mp (h.separate.apart p old n before here) (.inl inPage) inTables
      · exact fresh p old x (.inl inPage) new
  · by_cases here : p = n
    · exact here ▸ portable
    · obtain ⟨old, _, regions⟩ := other p mem here
      exact (h.portable p old).keep regions alters.given

theorem Kernel.Sheltered.unused_update (cur : k.curthread ∈ k.created) {v : ProcMmap}
    (memtab : k'.memtab = Function.update k.memtab k.proc.pid v) (pid : k'.pid = k.pid) :
    ∀ i, k'.pid ≤ i → i ≤ maxprocs → (k'.memtab i).regions = [] := by
  intro i lo hi
  have below : k.proc.pid < k.pid := (h.slots.slot _ cur).2.2
  rw [memtab, Function.update_of_ne (by omega)]
  exact h.unused i (by omega) hi

theorem Kernel.Sheltered.other_slots (cur : k.curthread ∈ k.created) {v : ProcMmap}
    (memtab : k'.memtab = Function.update k.memtab k.proc.pid v)
    (others : ∀ p ∈ k.created, p ≠ k.curthread → (k'.procs p).unqueued = (k.procs p).unqueued) :
    ∀ p ∈ k.created, p ≠ k.curthread → (k'.procs p).unqueued = (k.procs p).unqueued ∧
      k'.memtab (k.procs p).pid = k.memtab (k.procs p).pid := by
  intro p mem ne
  refine ⟨others p mem ne, ?_⟩
  rw [memtab]
  exact Function.update_of_ne (fun same => ne (h.slots.distinct p mem _ cur same)) _ _

theorem Kernel.Sheltered.wrote (sound : k.store.Sound init) (cur : k.curthread ∈ k.created)
    (reserved : Reserved init env.kpagedir) {addr : Nat} {byte : UInt8}
    (allowed : k.Allowed (.write addr byte)) (slots : SlotsOk k') (given : k'.store.given = k.store.given)
    (bytes : k'.store.mem = fun x => if x = addr then byte else k.store.mem x) (keeps : Keeps k k') :
    k'.Sheltered init env half := by
  obtain ⟨m, listed, inRegion⟩ := allowed
  have frame : Frame k.store.mem k'.store.mem {addr} := by
    intro x ne
    rw [bytes]
    exact if_neg ne
  refine h.quiet slots (Nat.le_of_eq keeps.pid.symm) keeps.memtab keeps.created keeps.procs
    (fun b old => given ▸ old) frame (fun p mem x inTables here => ?_) fun x inPage here => ?_
  · rw [Set.mem_singleton_iff.mp here] at inTables
    exact Set.disjoint_left.mp (h.separate.clear _ cur m listed p mem) inRegion inTables
  · obtain ⟨b, inGiven, lo, hi⟩ := (h.portable _ cur).taken m listed inRegion
    have away := reserved.apart sound inGiven
    rw [Set.mem_singleton_iff.mp here] at inPage
    simp only [page, Set.mem_Ico] at inPage
    omega

theorem Kernel.Sheltered.loaded (sound : k.store.Sound init) (sound' : k'.store.Sound init)
    (cur : k.curthread ∈ k.created) (reserved : Reserved init env.kpagedir) (slots : SlotsOk k')
    {bin cr3 entry base sz : Nat} {regions : List VmRegion} (fits : LoadFits (env.initrd.segments bin))
    (image : loadImage env.kpagedir env.initrd.bytes bin k.store =
      .ok (.loaded cr3 entry base sz regions, k'.store))
    (memtab : k'.memtab = Function.update k.memtab k.proc.pid ⟨regions, sz⟩)
    (pid : k'.pid = k.pid) (created : k'.created = k.created)
    (others : ∀ p ∈ k.created, p ≠ k.curthread → (k'.procs p).unqueued = (k.procs p).unqueued)
    (self : (k'.procs k.curthread).unqueued = { k.proc.unqueued with mmapBase := base, cr3 := cr3 }) :
    k'.Sheltered init env half := by
  obtain ⟨blk, s₁, built, inside, light, full⟩ := fits.built sound rfl image
  have number : (k'.procs k.curthread).unqueued.pid = k.proc.unqueued.pid := by rw [self]
  have register : (k'.procs k.curthread).unqueued.cr3 = cr3 := by rw [self]
  have dir : k'.dir k.curthread = p2v cr3 := congrArg p2v register
  have list : k'.regions k.curthread = regions := by
    have slotEq : (k'.procs k.curthread).pid = k.proc.pid := number
    rw [Kernel.regions, slotEq, memtab, Function.update_self]
  rw [← list] at inside light full
  have alters := built.alters (fun _ old => old) (.refl _ _) sound' (fun _ old => old) (.refl _ _)
    (fun p => by
      rw [created]
      exact ⟨Or.inl, fun either => either.elim id fun here => here ▸ cur⟩)
    (h.other_slots cur memtab others) dir inside
  refine h.altered alters slots reserved (h.unused_update cur memtab pid) ?_
    (.in_block built.mem_block light full inside)
  rw [dir]
  exact loadImage_half sound reserved rfl fits.copies fits.user image h.upper.kernel

theorem Kernel.Sheltered.mapped (sound : k.store.Sound init) (cur : k.curthread ∈ k.created)
    (reserved : Reserved init env.kpagedir) (slots : SlotsOk k')
    {len flags fd mem pa : Nat} {s s₁ : Store} (inside : k.proc.mmapBase + pgRoundup len < mmapLimit)
    (bytes : s.mem = k.store.mem) (free : s.free = k.store.free) (given : s.given = k.store.given)
    (device : k.DeviceHigh (.mmap len flags fd))
    (backed : Backed { k with store := s } (pgRoundup len) flags fd mem pa s₁)
    (linked : allocPt (p2v k.proc.cr3) k.proc.mmapBase pa (pgRoundup len) userFlags s₁ = .ok k'.store)
    (memtab : k'.memtab = Function.update k.memtab k.proc.pid { k.memtab k.proc.pid with
      regions := ⟨k.proc.mmapBase, pa, pgRoundup len⟩ :: (k.memtab k.proc.pid).regions })
    (pid : k'.pid = k.pid) (created : k'.created = k.created)
    (others : ∀ p ∈ k.created, p ≠ k.curthread → (k'.procs p).unqueued = (k.procs p).unqueued)
    (self : (k'.procs k.curthread).unqueued =
      { k.proc.unqueued with mmapBase := u32 (k.proc.mmapBase + pgRoundup len) }) :
    k'.Sheltered init env half := by
  obtain ⟨sound₁, older, frame, fresh⟩ := backed.fresh (sound.write free given) device
  have newSame : s.newBytes s₁ = k.store.newBytes s₁ := by
    rw [Store.newBytes, Store.newBytes, given]
  rw [bytes, newSame] at frame
  rw [newSame] at fresh
  rw [given] at older
  have limit : mmapLimit = 0x7FFFF000 := rfl
  have whole := pgRoundup_mod len
  have range : pgRounddown k.proc.mmapBase + pgRoundup len ≤ 0x80000000 := by
    rw [pgRounddown_eq]
    omega
  have number : (k'.procs k.curthread).unqueued.pid = k.proc.unqueued.pid := by rw [self]
  have register : (k'.procs k.curthread).unqueued.cr3 = k.proc.unqueued.cr3 := by rw [self]
  have dir : k'.dir k.curthread = k.dir k.curthread := congrArg p2v register
  have regions : k'.regions k.curthread =
      ⟨k.proc.mmapBase, pa, pgRoundup len⟩ :: k.regions k.curthread := by
    have slotEq : (k'.procs k.curthread).pid = k.proc.pid := number
    rw [Kernel.regions, slotEq, memtab, Function.update_self]
    rfl
  obtain ⟨dir₁, _, _⟩ := h.separate.unmapped cur older frame sound₁
  have mapping : Mapping init (k.dir k.curthread) s₁ k'.store :=
    allocPt_mapping sound₁ dir₁ (Or.inr (by rw [pgRoundup_of_aligned whole]; exact range)) linked
  have alters := h.separate.mapped cur older frame sound₁ mapping created
    (h.other_slots cur memtab others) dir regions fun x inRegion => Or.inl (fresh inRegion)
  obtain ⟨light, full, taken⟩ := h.portable _ cur
  refine h.altered alters slots reserved (h.unused_update cur memtab pid) ?_
    ⟨fun m listed => ?_, ?_, fun m listed => ?_⟩
  · -- the page of the directory is not in the new memory
    have before : HalfIs s₁.mem (k.dir k.curthread) half := by
      refine (h.upper.processes _ cur).of_frame frame fun x inPage new => ?_
      obtain ⟨b, inGiven, within⟩ := (h.separate.dirs _ cur).mem_block (.inl inPage)
      exact sound₁.newBytes_outside older new b inGiven within
    rw [dir]
    exact before.of_same mapping.kernel
  · rw [regions] at listed
    rcases List.mem_cons.mp listed with rfl | old
    · exact Or.inr ⟨whole, range⟩
    · exact light m old
  · rw [regions]
    simp only [span, List.map_cons, List.sum_cons] at full ⊢
    omega
  · rw [regions] at listed
    rcases List.mem_cons.mp listed with rfl | old
    · intro x inRegion
      obtain ⟨b, inGiven, _, within⟩ := fresh inRegion
      exact ⟨b, mapping.mem_given inGiven, within⟩
    · exact (taken m old).trans (Store.taken_mono alters.given)

theorem Kernel.Sheltered.forked (sound' : k'.store.Sound init) (cur : k.curthread ∈ k.created)
    (reserved : Reserved init env.kpagedir) (slots : SlotsOk k')
    {kstack mem pd : Nat} {s s₁ s₂ s₃ : Store} {regions : List VmRegion}
    (slot : k.pid ≤ maxprocs) (next : k'.pid = k.pid + 1)
    (room : span (k.memtab k.proc.pid).regions ≤ pgRoundup (k.memtab k.proc.pid).sz)
    (took : k.store.Took init kstack s)
    (block : s.allocPages (k.memtab k.proc.pid).sz = (mem, s₁)) (nonnull : mem ≠ 0)
    (copied : copykvm env.kpagedir s₁ = .ok (pd, s₂))
    (filled : copyRegions pd (k.memtab k.proc.pid).regions mem (k.memtab k.pid).regions s₂ =
      .ok (regions, s₃))
    (bytes : k'.store.mem = s₃.mem) (given : k'.store.given = s₃.given)
    (memtab : k'.memtab = Function.update k.memtab k.pid { k.memtab k.pid with regions := regions })
    (created : k'.created = k.created ++ [kstack + 3992])
    (others : ∀ p ∈ k.created, (k'.procs p).unqueued = (k.procs p).unqueued)
    (number : (k'.procs (kstack + 3992)).pid = k.pid) (cr3 : (k'.procs (kstack + 3992)).cr3 = v2p pd) :
    k'.Sheltered init env half := by
  obtain ⟨lights, full, _⟩ := h.portable _ cur
  have parent : (k.memtab k.proc.pid).regions = k.regions k.curthread := rfl
  rw [parent] at room filled
  have size : 0 < pgRoundup (k.memtab k.proc.pid).sz := Nat.lt_of_lt_of_le full room
  have prepared := prepared_of_room took.sound size block nonnull copied
  have grows := Store.allocPages_grows took.sound (k.memtab k.proc.pid).sz
  have alloc := Store.allocPages_mem s (k.memtab k.proc.pid).sz
  rw [block] at grows alloc
  generalize pgRoundup (k.memtab k.proc.pid).sz = sz at room size prepared
  have paged := prepared.sound.paged prepared.own
  have pagedDir := prepared.sound.paged prepared.dir.own
  simp only at paged pagedDir
  have start : mem = u32 (mem + 0) := (u32_of_lt (by omega)).symm
  have clear := prepared.clear List.mem_cons_self
  have list := copyRegions_regions _ _ _ _ filled
  rw [h.unused k.pid (Nat.le_refl _) slot, List.append_nil] at list
  simp only at list
  rw [start] at filled
  have filling := copyRegions_filling _ 0 _ s₂ prepared.sound prepared.dir prepared.own clear lights
    (by omega) filled
  have built : Built init pd mem sz s s₂ s₃ :=
    ⟨⟨_, prepared.given, fun b => by simp [or_comm]⟩, prepared.frame, prepared.empty, clear, filling⟩
  have dir : k'.dir (kstack + 3992) = pd := by rw [Kernel.dir, cr3, p2v_v2p (by omega) (by omega)]
  have regionsEq : k'.regions (kstack + 3992) = (copies (k.regions k.curthread) mem).reverse := by
    rw [Kernel.regions, number, memtab, Function.update_self, list]
  -- the copies lie in the block, one behind the other
  have fills := copies_fills (k.regions k.curthread) mem lights paged.2.2.2.1 paged.1 (by omega)
  rw [u32_of_lt (by omega)] at fills
  have inside : ∀ m ∈ k'.regions (kstack + 3992), m.bytes ⊆ Set.Ico mem (mem + sz) := by
    rw [regionsEq]
    intro m listed
    refine (fills.inside m (List.mem_reverse.mp listed)).trans fun x within => ?_
    simp only [Set.mem_Ico] at within ⊢
    omega
  have alters : Alters init k k' (kstack + 3992) := by
    refine built.alters (fun b old => took.given ▸ List.mem_cons_of_mem _ old) took.newBytes sound'
      (fun b old => given ▸ old) (fun x _ => by rw [bytes]) (fun p => ?_) (fun p old _ => ⟨others p old, ?_⟩)
      dir inside
    · rw [created, List.mem_append, List.mem_singleton]
    · have below := (h.slots.slot p old).2.2
      rw [memtab, Function.update_of_ne (by omega)]
  obtain ⟨copyLight, copySpan⟩ := copies_light mem lights
  refine h.altered alters slots reserved (fun i lo hi => ?_) ?_
    (.in_block (given ▸ built.mem_block) ?_ ?_ inside)
  · rw [memtab, Function.update_of_ne (by omega)]
    exact h.unused i (by omega) hi
  · have stack : HalfIs s.mem env.kpagedir half := h.upper.kernel.reserved reserved took.sound took.newBytes
    have begun : HalfIs s₂.mem pd half := fun i low lt => by
      rw [copykvm_kernel grows.sound reserved copied i low lt, alloc.1]
      exact stack i low lt
    rw [dir, bytes]
    exact copyRegions_half _ 0 _ s₂ prepared.sound prepared.dir prepared.own clear lights (by omega) filled
      begun
  · rw [regionsEq]
    exact fun m listed => copyLight m (List.mem_reverse.mp listed)
  · rw [regionsEq]
    simp only [span, List.map_reverse, List.sum_reverse] at full copySpan ⊢
    omega

theorem Kernel.Sheltered.step {root : Nat} {Q : List Nat} {c : Call} (sched : Scheduled init root Q k)
    (reserved : Reserved init env.kpagedir) (careful : k.Careful env c) (done : k.step env c = .ok k') :
    k'.Sheltered init env half := by
  have sound := sched.sound
  have sound' : k'.store.Sound init := by
    obtain ⟨_, next, _⟩ := (sched.step c).of_ok done
    exact next.sound
  have cur := sched.mem_created
  have effect := sched.effect done
  have within : ¬ k.Overruns env c := fun beyond => careful.steady (Or.inl beyond)
  have slotted : k.Slotted c := by
    refine ⟨careful.allowed, fun fork => ?_⟩
    subst fork
    by_contra neither
    rw [not_or] at neither
    exact within ⟨neither.2, Or.inr (Nat.lt_of_not_le neither.1)⟩
  have slots := h.slots.step sound slotted effect
  have unwritten : ∀ p ∈ k.created, ∀ x ∈ k.tables p, x ∉ (∅ : Set Nat) := fun p _ x _ => Set.notMem_empty x
  cases effect with
  | paused _ _ call store keeps =>
      exact h.quiet slots (Nat.le_of_eq keeps.pid.symm) keeps.memtab keeps.created keeps.procs
        (fun b old => store ▸ old) (fun x _ => by rw [store]) unwritten fun x _ => Set.notMem_empty x
  | wrote addr byte _ free given bytes keeps =>
      exact h.wrote sound cur reserved careful.allowed slots given bytes keeps
  | refused path _ none left keeps =>
      have given := (left.grows sound).given
      have frame : Frame k.store.mem k'.store.mem (k.store.newBytes k'.store) := by
        rcases left with ⟨_, store⟩ | ⟨bin, pd, _, copied⟩
        · rw [store]
          exact .refl _ _
        · obtain ⟨sound₁, _, _, _, given₁, frame⟩ := copykvm_spec sound copied
          refine frame.mono fun x inside => ⟨⟨pd, 0x1000⟩, given₁ ▸ List.mem_cons_self, ?_, inside⟩
          exact sound₁.not_mem_of_new (show k'.store.given = [_] ++ k.store.given from given₁)
            (List.mem_singleton_self _)
      obtain ⟨fresh, spared⟩ := h.fresh sound' reserved given
      exact h.quiet slots (Nat.le_of_eq keeps.pid.symm) keeps.memtab keeps.created keeps.procs given frame
        fresh spared
  | declined len flags fd _ bytes free given keeps =>
      exact h.quiet slots (Nat.le_of_eq keeps.pid.symm) keeps.memtab keeps.created keeps.procs
        (fun b old => given ▸ old) (fun x _ => by rw [bytes]) unwritten fun x _ => Set.notMem_empty x
  | loaded path bin cr3 entry base sz regions _ file image memtab pid created others self =>
      have fits : LoadFits (env.initrd.segments bin) := by
        by_contra beyond
        exact within ⟨bin, file, beyond⟩
      exact h.loaded sound sound' cur reserved slots fits image memtab pid created others self
  | mapped len flags fd mem pa s s₁ _ nonzero limit bytes free given backed linked memtab pid created
      others self =>
      have inside : k.proc.mmapBase + pgRoundup len < mmapLimit := by
        by_contra beyond
        exact within ⟨nonzero, limit, Nat.le_of_not_lt beyond⟩
      exact h.mapped sound cur reserved slots inside bytes free given careful.device backed linked memtab pid
        created others self
  | unforked kstack s _ took full memtab pid created procs =>
      have alloc := Store.allocPages_mem s (k.memtab k.proc.pid).sz
      have grown := Store.allocPages_grows took.sound (k.memtab k.proc.pid).sz
      rw [full] at alloc grown
      have given : ∀ b ∈ k.store.given, b ∈ k'.store.given := fun b old =>
        grown.given b (took.given ▸ List.mem_cons_of_mem _ old)
      have frame : Frame k.store.mem k'.store.mem (k.store.newBytes k'.store) := by
        rw [alloc.1]
        exact took.newBytes.mono (Store.newBytes_mono (fun _ old => old) grown.given)
      obtain ⟨fresh, spared⟩ := h.fresh sound' reserved given
      have counted := h.slots.counted
      have bound := sound.length_le
      have next : k'.pid = k.pid + 1 := by rw [pid, u32_of_lt (by omega)]
      exact h.quiet slots (by omega) memtab created procs given frame fresh spared
  | forked kstack mem pd s s₁ s₂ s₃ regions _ took made block nonnull copied filled bytes free given
      memtab pid created others child =>
      have some : k.childMem ≠ 0 := by
        rw [childMem_eq took block]
        exact nonnull
      have slot : k.pid ≤ maxprocs := by
        by_contra none
        exact within ⟨some, Or.inr (Nat.lt_of_not_le none)⟩
      have room : span (k.memtab k.proc.pid).regions ≤ pgRoundup (k.memtab k.proc.pid).sz := by
        by_contra more
        exact within ⟨some, Or.inl (Nat.lt_of_not_le more)⟩
      have limit : maxprocs = 128 := rfl
      have next : k'.pid = k.pid + 1 := by rw [pid, u32_of_lt (by omega)]
      exact h.forked sound' cur reserved slots slot next room took block nonnull copied filled bytes given
        memtab created others child.1 child.2.1

end Steps

/-! ## The boot -/

theorem Started.sheltered {init : List Block} {env : Env} {half : Nat → Nat} {k₀ k : Kernel}
    (h : Started init env k₀ k) (atBoot : SteadyBoot init env k₀) (reserved : Reserved init env.kpagedir)
    (empty : ∀ i, 1 ≤ i → i ≤ maxprocs → (k₀.memtab i).regions = [])
    (is : HalfIs k₀.store.mem env.kpagedir half) : k.Sheltered init env half := by
  have slots := h.slotsOk
  obtain ⟨kstack, idle, bin, cr3, start, base, sz, regions, s₁, s₂, s₃, took, file, image, _, grown, bytes,
    last, memtab, pid, created, number, register, _⟩ := h.stages
  have fits := atBoot.fits bin file
  obtain ⟨blk, s, built, inside, light, full⟩ := fits.built took.sound rfl image
  have given : ∀ b ∈ s₂.given, b ∈ k.store.given := fun b old =>
    last.given ▸ List.mem_cons_of_mem _ (grown.given b old)
  have frame : Frame s₂.mem k.store.mem (s₂.newBytes k.store) := by
    rw [← bytes]
    exact last.newBytes.mono (Store.newBytes_mono grown.given fun _ old => old)
  have dir : k.dir (kstack + 3992) = p2v cr3 := by rw [Kernel.dir, register]
  have list : k.regions (kstack + 3992) = regions := by
    rw [Kernel.regions, number, memtab, Function.update_self]
  rw [← list] at inside light full
  have nobody : ∀ p ∈ k₀.created, False := by
    rw [atBoot.created]
    exact fun p mem => List.not_mem_nil mem
  have alters : Alters init k₀ k (kstack + 3992) := by
    refine built.alters (fun b old => took.given ▸ List.mem_cons_of_mem _ old) took.newBytes last.sound given
      frame (fun p => ?_) (fun p old => (nobody p old).elim) dir inside
    rw [created, atBoot.created, List.mem_singleton]
    exact ⟨Or.inr, fun either => either.resolve_left List.not_mem_nil⟩
  have before : Separate init k₀ := ⟨fun p mem => (nobody p mem).elim, fun p mem => (nobody p mem).elim,
    fun p mem => (nobody p mem).elim, fun p mem => (nobody p mem).elim⟩
  -- the new memory of the boot is apart from `kpagedir`
  have is₁ : HalfIs s₁.mem env.kpagedir half := is.reserved reserved took.sound took.newBytes
  have own := loadImage_half took.sound reserved rfl fits.copies fits.user image is₁
  have kept := (built.kept last.sound given frame).2
  have halfFirst : HalfIs k.store.mem (p2v cr3) half := own.of_same fun i _ lt => kept i lt
  have is₂ : HalfIs s₂.mem env.kpagedir half := by
    refine is₁.of_frame built.newBytes fun x inPage new => ?_
    obtain ⟨b, inGiven, _, lo, hi⟩ := new
    have away := reserved.apart last.sound (given b inGiven)
    simp only [page, Set.mem_Ico] at inPage
    omega
  refine ⟨slots, fun i lo hi => ?_, before.changed alters,
    ⟨is₂.reserved reserved last.sound frame, fun p mem => ?_⟩, fun p mem => ?_⟩
  · rw [memtab, Function.update_of_ne (by omega)]
    exact empty i (by omega) hi
  · rw [created, List.mem_singleton] at mem
    rw [mem, dir]
    exact halfFirst
  · rw [created, List.mem_singleton] at mem
    rw [mem]
    exact .in_block (given _ built.mem_block) light full inside

theorem identityKernel_tables : TablesAtBoot (smallEnv alignedSegment) identityKernel :=
  ⟨smallKernel_tables.empty, smallKernel_tables.ok⟩

end Trunix
