import Trunix.Kernel.Image
import Trunix.Kernel.Tables

/-!
# The block of a child

`sys_fork` takes one block of the recorded size and copies the regions of the parent into
it, without a look at how much room they need.  The size is right as long as the list of
the parent is the one that `loadelf` made together with it.
-/

set_option autoImplicit false

namespace Trunix

open Trunix.Lib

/-! ## The list that loadelf makes -/

structure ImageTab (tab : ProcMmap) : Prop where
  users : ∀ m ∈ tab.regions, m.User
  room : span tab.regions ≤ tab.sz
  whole : tab.sz % 0x1000 = 0
  pos : 0 < tab.sz

theorem layout_regions {segs : List Proghdr} (ok : SegsOk segs) : ∀ mem : Nat,
    span (layout segs mem) = (segs.map Proghdr.len).sum ∧ ∀ m ∈ layout segs mem, m.User := by
  induction segs with
  | nil => intro mem; exact ⟨rfl, fun m inside => absurd inside List.not_mem_nil⟩
  | cons ph rest ih =>
      intro mem
      obtain ⟨sum, users⟩ := ih ok.tail (u32 (mem + pgRoundup ph.memsz))
      obtain ⟨reach, below, _, whole, _, _, _, _⟩ := ok.spans (List.mem_cons_self : ph ∈ ph :: rest)
      have limit : mmapLimit = 0x7FFFF000 := rfl
      have len : (segmentRegion ph mem).len = ph.len := rfl
      have first : pgRounddown (segmentRegion ph mem).va = ph.firstPage := rfl
      constructor
      · simp only [span, layout, List.map_cons, List.sum_cons] at sum ⊢
        rw [sum, len, pgRoundup_of_aligned whole]
      · intro m inside
        rcases List.mem_cons.mp inside with rfl | later
        · refine ⟨len ▸ whole, ?_⟩
          rw [first, len]
          omega
        · exact users m later

theorem span_reverse (regions : List VmRegion) : span regions.reverse = span regions := by
  rw [span, List.map_reverse, List.sum_reverse]
  rfl

theorem LoadedAt.span {init : List Block} {m : Mem} {bin pd blk base sz : Nat}
    {segs : List Proghdr} {regions : List VmRegion} {s : Store} (ok : SegsOk segs)
    (h : LoadedAt init m bin segs pd blk regions base sz s) :
    Trunix.span regions = 0x1000 + (segs.map Proghdr.len).sum := by
  have stack : pgRoundup 0x1000 = 0x1000 := by decide
  rw [h.list, ← (layout_regions ok blk).1, ← span_reverse (layout segs blk)]
  simp only [Trunix.span, List.map_cons, List.sum_cons, stack]

theorem LoadedAt.imageTab {init : List Block} {m : Mem} {bin pd blk base sz : Nat}
    {segs : List Proghdr} {regions : List VmRegion} {s : Store} (ok : SegsOk segs)
    (h : LoadedAt init m bin segs pd blk regions base sz s) : ImageTab ⟨regions, sz⟩ := by
  obtain ⟨room, whole, _⟩ := imageSize_room ok
  rw [← h.base, ← h.size] at room whole
  obtain ⟨_, users⟩ := layout_regions ok blk
  have total := LoadedAt.span ok h
  refine ⟨fun r mem => ?_, ?_, whole, ?_⟩
  · simp only [h.list] at mem
    rcases List.mem_cons.mp mem with rfl | inLayout
    · have whole' : 0x1000 % 0x1000 = 0 := by decide
      have top : pgRounddown 0x7FFFF000 + 0x1000 ≤ 0x80000000 := by decide
      exact ⟨whole', top⟩
    · exact users r (List.mem_reverse.mp inLayout)
  · simp only [total]
    omega
  · show 0 < sz
    omega

/-! ## The steps -/

/-- A fork is by a process whose list `loadelf` made and that has mapped nothing since,
programs have segments on disjoint user pages, and there is a slot for the child. -/
def Tracked.ForksOwn (env : Env) (t : Tracked) : Call → Prop
  | .fork => t.own t.kernel.proc.pid = true ∧ t.kernel.pid ≤ maxprocs
  | .execve path => ∀ bin, env.initrd.program path = some bin → SegsOk (env.initrd.segments bin)
  | c => t.kernel.Allowed c

def Sized (init : List Block) (t : Tracked) : Prop :=
  t.Each init fun own _ tab _ => own = true → ImageTab tab

theorem loadImage_imageTab {init : List Block} {env : Env} {bin cr3 entry base sz : Nat}
    {regions : List VmRegion} {s s' : Store} (sound : s.Sound init)
    (ok : SegsOk (env.initrd.segments bin))
    (image : loadImage env.kpagedir env.initrd.bytes bin s =
      .ok (.loaded cr3 entry base sz regions, s')) : ImageTab ⟨regions, sz⟩ := by
  obtain ⟨blk, at'⟩ := loadImage_loaded sound ok image
  exact at'.imageTab ok

theorem Sized.step {init : List Block} {env : Env} {t t' : Tracked} {c : Call} (h : Sized init t)
    (allowed : t.ForksOwn env c) (done : t.step env c = .ok t') : Sized init t' := by
  refine Tracked.Each.step h (by rintro rfl; exact allowed.2) done ?_ ?_ ?_
  · rintro path bin cr3 entry base sz regions s rfl file sound image _
    exact loadImage_imageTab sound (allowed bin file) image
  · intro len flags fd mem pa s s₁ _ _ _ _ _ own
    cases own
  · intro mem _ own
    cases own

/-! ## The copy -/

theorem Store.Took.newBytes {init : List Block} {a : Nat} {s s' : Store} (h : s.Took init a s') :
    Frame s.mem s'.mem (s.newBytes s') := by
  refine h.frame.mono fun x inside => ⟨⟨a, 0x1000⟩, ?_, h.fresh, inside⟩
  rw [h.given]
  exact List.mem_cons_self

structure Copied (init : List Block) (k : Kernel) (tab : ProcMmap) (mem pd kstack : Nat)
    (s s₂ s₃ : Store) : Prop where
  took : k.store.Took init kstack s
  built : Built init pd mem tab.sz s s₂ s₃
  inside : ∀ c ∈ copies tab.regions mem, c.len ≠ 0 → mem ≤ p2v c.pa ∧ p2v c.pa + c.len ≤ mem + tab.sz

structure Prepared (init : List Block) (pd blk sz : Nat) (s s₁ : Store) : Prop where
  sound : s₁.Sound init
  dir : PageDir s₁ pd
  given : s₁.given = [⟨pd, 0x1000⟩, ⟨blk, sz⟩] ++ s.given
  frame : Frame s.mem s₁.mem (page pd)
  empty : ∀ i < 512, ¬ present s₁.mem pd i

theorem Prepared.own {init : List Block} {pd blk sz : Nat} {s s₁ : Store}
    (h : Prepared init pd blk sz s s₁) : (⟨blk, sz⟩ : Block) ∈ s₁.given := by
  rw [h.given]
  exact List.mem_cons_of_mem _ List.mem_cons_self

/-- The directory is empty, so it is apart from every other block. -/
theorem Prepared.clear {init : List Block} {pd blk sz : Nat} {s s₁ : Store}
    (h : Prepared init pd blk sz s s₁) {b : Block} (mem : b ∈ ⟨blk, sz⟩ :: s.given) :
    ∀ x ∈ tableBytes s₁.mem pd, x ∉ Set.Ico b.addr (b.addr + b.sz) := by
  intro x inTables
  rcases inTables with inPage | ⟨i, lt, here, _⟩
  · have apart := h.sound.apart
    rw [h.given] at apart
    have := (List.pairwise_cons.mp apart).1 b mem
    simp only [Block.Apart] at this
    simp only [page, Set.mem_Ico] at inPage ⊢
    omega
  · exact absurd here (h.empty i lt)

theorem ImageTab.prepared {init : List Block} {env : Env} {tab : ProcMmap} {mem pd : Nat}
    {s s₁ s₂ : Store} (h : ImageTab tab) (sound : s.Sound init)
    (block : s.allocPages tab.sz = (mem, s₁)) (nonnull : mem ≠ 0)
    (made : copykvm env.kpagedir s₁ = .ok (pd, s₂)) : Prepared init pd mem tab.sz s s₂ := by
  have alloc := sound.alloc tab.sz
  rw [block] at alloc
  have size : pgRoundup tab.sz = tab.sz := pgRoundup_of_aligned h.whole
  have pos := h.pos
  cases alloc with
  | none small => exact absurd rfl nonnull
  | zero a free nothing => omega
  | some a free _ fits sound₁ =>
      rw [size] at sound₁ made
      obtain ⟨sound₂, dir, empty, _, given, frame⟩ := copykvm_spec sound₁ made
      exact ⟨sound₂, dir, given, frame, empty⟩

theorem ImageTab.copied {init : List Block} {env : Env} {k : Kernel} {tab : ProcMmap}
    {kstack mem pd : Nat} {old : List VmRegion} {s s₁ s₂ : Store} {r : List VmRegion × Store}
    (h : ImageTab tab) (took : k.store.Took init kstack s) (block : s.allocPages tab.sz = (mem, s₁))
    (nonnull : mem ≠ 0) (made : copykvm env.kpagedir s₁ = .ok (pd, s₂))
    (filled : copyRegions pd tab.regions mem old s₂ = .ok r) :
    Copied init k tab mem pd kstack s s₂ r.2 := by
  have prepared := h.prepared took.sound block nonnull made
  have paged := prepared.sound.paged prepared.own
  simp only at paged
  have clear := prepared.clear List.mem_cons_self
  have start : mem = u32 (mem + 0) := (u32_of_lt (by omega)).symm
  have room : 0 + span tab.regions ≤ tab.sz := by
    have := h.room
    omega
  have lights : ∀ m ∈ tab.regions, m.Light := fun m listed => (h.users m listed).light
  rw [start] at filled
  have filling := copyRegions_filling tab.regions 0 old s₂ prepared.sound prepared.dir prepared.own clear
    lights room filled
  refine ⟨took, ⟨⟨_, prepared.given, fun b => by simp [or_comm]⟩, prepared.frame, prepared.empty, clear,
    filling⟩, ?_⟩
  have high : 0x80000000 ≤ mem := paged.2.2.2.1
  have bound : mem + tab.sz ≤ 0x100000000 := paged.2.2.2.2
  have inside := copies_inside high bound tab.regions 0 lights room
  rw [← start] at inside
  exact inside

/-- Everything that was written lies in memory that the fork was given. -/
theorem Copied.newBytes {init : List Block} {k : Kernel} {tab : ProcMmap} {mem pd kstack : Nat}
    {s s₂ s₃ : Store} (h : Copied init k tab mem pd kstack s s₂ s₃) :
    Frame k.store.mem s₃.mem (k.store.newBytes s₃) := by
  have grow : ∀ b ∈ k.store.given, b ∈ s.given := fun b old => h.took.given ▸ List.mem_cons_of_mem _ old
  have first := h.took.newBytes.mono
    (Store.newBytes_mono (fun _ old => old) fun _ old => h.built.mem_given old)
  exact first.trans (h.built.newBytes.mono (Store.newBytes_mono grow fun _ old => old))

/-- The regions of the running process fit into the recorded size, and a fork puts those
of the child into the block of that size and writes nowhere but into its own memory. -/
def ForkContained (env : Env) (k : Kernel) : Prop :=
  span (k.memtab k.proc.pid).regions ≤ (k.memtab k.proc.pid).sz ∧
    ∀ r k', sysFork env k = .ok (r, k') → r ≠ -1 → ∃ n k₁ blk,
      procCreate k = .ok (n, k₁) ∧ (k₁.store.allocPages (k.memtab k.proc.pid).sz).1 = blk ∧
      (∀ m ∈ (k'.memtab (k'.procs n).pid).regions, m.len ≠ 0 →
        blk ≤ p2v m.pa ∧ p2v m.pa + pgRoundup m.len ≤ blk + (k.memtab k.proc.pid).sz) ∧
      ∀ x, k'.store.mem x ≠ k.store.mem x → x ∈ k.store.newBytes k'.store

theorem copies_user {old : List VmRegion} : ∀ (mem : Nat), (∀ m ∈ old, m.User) →
    ∀ c ∈ copies old mem, c.User := by
  induction old with
  | nil => intro mem _ c inside; exact absurd inside List.not_mem_nil
  | cons m rest ih =>
      intro mem users c inside
      rcases List.mem_cons.mp inside with rfl | later
      · exact users m List.mem_cons_self
      · exact ih _ (fun other inRest => users other (List.mem_cons_of_mem _ inRest)) c later

theorem Sized.contained {init : List Block} {env : Env} {t : Tracked} (h : Sized init t)
    (own : t.own t.kernel.proc.pid = true) (slot : t.kernel.pid ≤ maxprocs) :
    ForkContained env t.kernel := by
  obtain ⟨root, Q, scheduled⟩ := h.sched
  have tab := h.cur own
  refine ⟨tab.room, fun r k' done success => ?_⟩
  have homeCur := scheduled.homes _ (List.mem_cons_of_mem _ scheduled.mem_created)
  cases sysFork_cases scheduled.sound homeCur done with
  | failed => exact absurd rfl success
  | child kstack mem pd s s₁ s₂ s₃ s₄ regions ofile frames files k₁ took made block nonnull copied filled
      bytes free given queued =>
      have copied := ImageTab.copied tab took block nonnull copied filled
      obtain ⟨k₀, created, store⟩ := made
      obtain ⟨q, inserted, rfl⟩ := enqueue_proc queued
      have list := copyRegions_regions _ _ _ _ filled
      simp only [h.numbers.unused t.kernel.pid (Nat.le_refl _) slot, List.append_nil] at list
      refine ⟨kstack + 3992, k₀, mem, created, by rw [store, block], fun m inside nonempty => ?_,
        fun x changed => ?_⟩
      · simp only [Kernel.setQueue, Function.update_self, list, List.mem_reverse] at inside
        have user := copies_user mem tab.users m inside
        rw [user.rounded]
        exact copied.inside m inside nonempty
      · by_contra old
        apply changed
        have newBytes : ∀ x, x ∉ t.kernel.store.newBytes s₄ → x ∉ t.kernel.store.newBytes s₃ := by
          intro x out
          simpa only [Store.newBytes, given] using out
        have same := copied.newBytes x (newBytes x old)
        simp only [Kernel.setQueue]
        rw [bytes, same]

/-! ## Runs -/

/-- In every careful run in which only processes fork that have loaded their program
themselves and mapped nothing since, every fork stays inside the block it took for the child. -/
theorem fork_contained {init : List Block} {env : Env} {k₀ k₁ k₂ : Kernel} {entry : Nat} {t : Tracked}
    (atBoot : AtBoot init k₀) (tables : TablesAtBoot env k₀)
    (booted : initsys env k₀ = .ok k₁) (sched : initSched k₁ entry = .ok k₂)
    (run : Runs (Tracked.step env) (fun t c => t.ForksOwn env c ∧ t.kernel.Careful env c) (.start k₂) t)
    (allowed : t.ForksOwn env .fork ∧ t.kernel.Careful env .fork) : ForkContained env t.kernel := by
  have start : Sized init (.start k₂) := (boot_started atBoot booted sched).each tables
    fun bin cr3 entry base sz regions s s' file sound image _ =>
      loadImage_imageTab sound (tables.ok bin file) image
  have sized := run.invariant (Sized init) start fun t c t' inv ok done => inv.step ok.1 done
  exact sized.contained allowed.1.1 allowed.1.2

theorem fork_contained_first : ∃ k₂ k₃, smallBoot alignedSegment = .ok k₂ ∧
    sysFork (smallEnv alignedSegment) k₂ = .ok (2, k₃) ∧
    ForkContained (smallEnv alignedSegment) k₂ := by
  have result : (smallBoot alignedSegment >>= fun k₂ => sysFork (smallEnv alignedSegment) k₂ >>= fun r =>
      (.ok (r.1, k₂.proc.pid, k₂.pid, decide (span (k₂.memtab k₂.proc.pid).regions ≤
        pgRoundup (k₂.memtab k₂.proc.pid).sz)) : Except Halt _)) = .ok (2, 1, 2, true) := by
    decide +kernel
  obtain ⟨k₂, boot, afterBoot⟩ := bind_eq_ok.mp result
  obtain ⟨⟨r, k₃⟩, forked, values⟩ := bind_eq_ok.mp afterBoot
  obtain ⟨k₁, booted, scheduled⟩ := bind_eq_ok.mp boot
  simp only [Except.ok.injEq, Prod.mk.injEq, decide_eq_true_eq] at values
  obtain ⟨rfl, number, next, room⟩ := values
  refine ⟨k₂, k₃, boot, forked, ?_⟩
  have slot : k₂.pid ≤ maxprocs := by
    rw [next]
    decide
  have own : (Tracked.start k₂).ForksOwn (smallEnv alignedSegment) .fork := by
    refine ⟨?_, slot⟩
    simp only [Tracked.start, number]
    decide
  have done : k₂.step (smallEnv alignedSegment) .fork = .ok k₃ := by
    rw [Kernel.step, forked]
    rfl
  have careful : k₂.Careful (smallEnv alignedSegment) .fork :=
    ⟨trivial, trivial, Kernel.not_astray done (Kernel.not_overruns_fork slot room)⟩
  exact fork_contained smallKernel_atBoot smallKernel_tables booted scheduled .refl ⟨own, careful⟩

/-- A process that mapped a page forks: its regions take four pages, but the block has the
three of its program, and the last region of the child lies behind its end. -/
theorem fork_after_mmap_overflows : ∃ k₂ k₃ n k₄ k₅, smallBoot alignedSegment = .ok k₂ ∧
    k₂.step (smallEnv alignedSegment) (.mmap 0x1000 1 0) = .ok k₃ ∧
    procCreate k₃ = .ok (n, k₄) ∧ sysFork (smallEnv alignedSegment) k₃ = .ok (2, k₅) ∧
    (k₃.memtab k₃.proc.pid).sz < span (k₃.memtab k₃.proc.pid).regions ∧
    ∃ m ∈ (k₅.memtab 2).regions,
      (k₄.store.allocPages (k₃.memtab k₃.proc.pid).sz).1 + (k₃.memtab k₃.proc.pid).sz <
        p2v m.pa + m.len := by
  have result : (smallBoot alignedSegment >>= fun k₂ =>
      k₂.step (smallEnv alignedSegment) (.mmap 0x1000 1 0) >>= fun k₃ => procCreate k₃ >>= fun created =>
      sysFork (smallEnv alignedSegment) k₃ >>= fun forked =>
      (.ok (forked.1, decide ((k₃.memtab k₃.proc.pid).sz < span (k₃.memtab k₃.proc.pid).regions ∧
        ∃ m ∈ (forked.2.memtab 2).regions,
          (created.2.store.allocPages (k₃.memtab k₃.proc.pid).sz).1 + (k₃.memtab k₃.proc.pid).sz <
            p2v m.pa + m.len)) : Except Halt _)) = .ok (2, true) := by
    decide +kernel
  obtain ⟨k₂, boot, afterBoot⟩ := bind_eq_ok.mp result
  obtain ⟨k₃, mapped, afterMap⟩ := bind_eq_ok.mp afterBoot
  obtain ⟨⟨n, k₄⟩, created, afterCreate⟩ := bind_eq_ok.mp afterMap
  obtain ⟨⟨r, k₅⟩, forked, values⟩ := bind_eq_ok.mp afterCreate
  simp only [Except.ok.injEq, Prod.mk.injEq, decide_eq_true_eq] at values
  obtain ⟨rfl, overflow⟩ := values
  exact ⟨k₂, k₃, n, k₄, k₅, boot, mapped, created, forked, overflow⟩

end Trunix
