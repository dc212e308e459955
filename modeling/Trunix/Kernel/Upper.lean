import Trunix.Kernel.Isolation

/-!
# The kernel half of every address space

`copykvm` gives every directory the kernel's half of `kpagedir`, and nothing writes to that
half again: `alloc_pt` fills user slots, and a process stores behind its regions only.  So
in every address space the kernel finds its own memory where `pg_identity` put it, and the
user does not get at it.
-/

set_option autoImplicit false

namespace Trunix

open Trunix.Lib

/-! ## Steps -/

section Steps

variable {init : List Block} {env : Env} {half : Nat → Nat} {k k' : Kernel} (h : k.Private init)

theorem Kernel.page_footprint {p : Nat} : page (k.dir p) ⊆ k.footprint p :=
  fun _ inPage => Or.inl (Or.inl inPage)

include h

/-- Nobody writes to the directory of a process that does not run. -/
theorem Kernel.Private.half_other {e : Option (MemoryEvent Nat Nat UInt8)} (moved : k.Moved k' e)
    (sound : k'.store.Sound init) {p : Nat} (mem : p ∈ k.created) (ne : p ≠ k.curthread)
    (same : k'.dir p = k.dir p) (is : HalfIs k.store.mem (k.dir p) half) :
    HalfIs k'.store.mem (k'.dir p) half := by
  rw [same]
  refine is.of_frame moved.frame fun x inPage written => ?_
  have inside := Kernel.page_footprint inPage
  rcases written with own | new
  · exact Set.disjoint_left.mp (h.settled.apart.apart mem h.cur ne) inside own
  · exact (sound.newBytes_not_taken moved.given x new).2 (h.settled.apart.inside p mem inside)

theorem Kernel.Private.half_quiet (sound : k'.store.Sound init)
    (given : ∀ b ∈ k.store.given, b ∈ k'.store.given)
    (frame : Frame k.store.mem k'.store.mem (k.store.newBytes k'.store)) {p : Nat} (mem : p ∈ k.created)
    (same : k'.dir p = k.dir p) (is : HalfIs k.store.mem (k.dir p) half) :
    HalfIs k'.store.mem (k'.dir p) half := by
  rw [same]
  refine is.of_frame frame fun x inPage new => ?_
  exact (sound.newBytes_not_taken given x new).2 (h.settled.apart.inside p mem (Kernel.page_footprint inPage))

theorem Kernel.Private.half_kernel {e : Option (MemoryEvent Nat Nat UInt8)} (moved : k.Moved k' e)
    (sound' : k'.store.Sound init) (reserved : Reserved init env.kpagedir)
    (is : HalfIs k.store.mem env.kpagedir half) : HalfIs k'.store.mem env.kpagedir half := by
  obtain ⟨root, Q, scheduled⟩ := h.sched
  refine is.of_frame moved.frame fun x inPage written => ?_
  have apart : ∀ {s : Store}, s.Sound init → x ∉ s.taken := by
    rintro s sound ⟨b, given, lo, hi⟩
    have away := reserved.apart sound given
    simp only [page, Set.mem_Ico] at inPage
    omega
  rcases written with own | new
  · exact apart scheduled.sound (h.settled.apart.inside _ h.cur own)
  · exact apart sound' (sound'.newBytes_not_taken moved.given x new).1


theorem Kernel.Private.half_loaded {bin cr3 entry base sz : Nat} {regions : List VmRegion}
    (reserved : Reserved init env.kpagedir) (upper : k.Upper env half)
    (ok : SegsOk (env.initrd.segments bin))
    (image : loadImage env.kpagedir env.initrd.bytes bin k.store =
      .ok (.loaded cr3 entry base sz regions, k'.store))
    (self : (k'.procs k.curthread).unqueued = { k.proc.unqueued with mmapBase := base, cr3 := cr3 }) :
    HalfIs k'.store.mem (k'.dir k.curthread) half := by
  obtain ⟨root, Q, scheduled⟩ := h.sched
  have register : (k'.procs k.curthread).cr3 = cr3 := congrArg Proc.cr3 self
  rw [Kernel.dir, register]
  exact loadImage_half scheduled.sound reserved rfl ok.loadFits.copies ok.loadFits.user image upper.kernel

theorem Kernel.Private.half_mapped {len flags fd mem pa : Nat} {s s₁ : Store}
    (upper : k.Upper env half) (nonzero : pgRoundup len ≠ 0) (anon : flags &&& mapAnon ≠ 0)
    (limit : u32 (k.proc.mmapBase + pgRoundup len) < mmapLimit)
    (bytes : s.mem = k.store.mem) (free : s.free = k.store.free) (given : s.given = k.store.given)
    (backed : Backed { k with store := s } (pgRoundup len) flags fd mem pa s₁)
    (linked : allocPt (p2v k.proc.cr3) k.proc.mmapBase pa (pgRoundup len) userFlags s₁ = .ok k'.store)
    (self : (k'.procs k.curthread).unqueued =
      { k.proc.unqueued with mmapBase := u32 (k.proc.mmapBase + pgRoundup len) }) :
    HalfIs k'.store.mem (k'.dir k.curthread) half := by
  obtain ⟨root, Q, scheduled⟩ := h.sched
  have housed := h.settled.housed _ h.cur
  have soundS : s.Sound init := scheduled.sound.write free given
  have whole := pgRoundup_mod len
  have small : pgRoundup len ≤ 0x80000000 := Backed.anon_bound soundS anon whole backed
  obtain ⟨baseLe, aligned⟩ : k.proc.mmapBase ≤ mmapLimit ∧ k.proc.mmapBase % 0x1000 = 0 := housed.base
  have top : mmapLimit = 0x7FFFF000 := rfl
  rw [u32_of_lt (show k.proc.mmapBase + pgRoundup len < 0x100000000 by omega)] at limit
  have register := congrArg Proc.cr3 self
  have dirEq : k'.dir k.curthread = p2v k.proc.cr3 := congrArg p2v register
  rw [dirEq]
  cases backed with
  | device fd' asked _ _ => exact absurd asked anon
  | anon page s₂ s₃ asked taken cleared =>
      have block : s.allocPages (pgRoundup len) = (page, s₂) := taken
      rw [pgRoundup_idem] at cleared
      have call : (s.allocPages (pgRoundup len)).2.memset (s.allocPages (pgRoundup len)).1 0
          (pgRoundup len) = .ok s₁ := by
        rw [block]
        exact cleared
      have fits := Store.fits_of_memset (Nat.pos_of_ne_zero nonzero) call
      obtain ⟨a, s', first, cleared', fresh⟩ := soundS.cleared whole (Nat.pos_of_ne_zero nonzero) fits
      rw [block] at first cleared'
      cases first
      cases Except.ok.inj (cleared.symm.trans cleared')
      have dir : PageDir s (p2v k.proc.cr3) := housed.dir.of_same bytes given
      obtain ⟨dir₁, entries, _⟩ := fresh.pageDir dir
      have range : pgRounddown k.proc.mmapBase + pgRoundup (pgRoundup len) ≤ 0x80000000 := by
        rw [pgRounddown_of_aligned aligned, pgRoundup_of_aligned whole]
        omega
      have mapping := (allocPt_spec fresh.sound dir₁ (v2p_lt page) range linked).1
      have before : HalfIs s.mem (p2v k.proc.cr3) half := bytes ▸ upper.processes _ h.cur
      exact (before.of_same fun i _ lt => entries i lt).of_same mapping.kernel

theorem Kernel.Private.half_forked {kstack mem pd : Nat} {s s₁ s₂ s₃ : Store} {regions : List VmRegion}
    (reserved : Reserved init env.kpagedir) (upper : k.Upper env half)
    (room : span (k.memtab k.proc.pid).regions ≤ pgRoundup (k.memtab k.proc.pid).sz)
    (took : k.store.Took init kstack s)
    (block : s.allocPages (k.memtab k.proc.pid).sz = (mem, s₁)) (nonnull : mem ≠ 0)
    (copied : copykvm env.kpagedir s₁ = .ok (pd, s₂))
    (filled : copyRegions pd (k.memtab k.proc.pid).regions mem (k.memtab k.pid).regions s₂ =
      .ok (regions, s₃))
    (bytes : k'.store.mem = s₃.mem) (child : (k'.procs (kstack + 3992)).cr3 = v2p pd) :
    HalfIs k'.store.mem (k'.dir (kstack + 3992)) half := by
  have housed := h.settled.housed _ h.cur
  have parent : (k.memtab k.proc.pid).regions = k.regions k.curthread := rfl
  rw [parent] at room filled
  have size : 0 < pgRoundup (k.memtab k.proc.pid).sz := Nat.lt_of_lt_of_le housed.span_pos room
  have prepared := prepared_of_room took.sound size block nonnull copied
  have grows := Store.allocPages_grows took.sound (k.memtab k.proc.pid).sz
  have alloc := Store.allocPages_mem s (k.memtab k.proc.pid).sz
  rw [block] at grows alloc
  generalize pgRoundup (k.memtab k.proc.pid).sz = sz at room size prepared
  have paged := prepared.sound.paged prepared.own
  have pagedDir := prepared.sound.paged prepared.dir.own
  simp only at paged pagedDir
  have start : mem = u32 (mem + 0) := (u32_of_lt (by omega)).symm
  rw [start] at filled
  have stack : HalfIs s.mem env.kpagedir half := by
    refine upper.kernel.of_frame took.frame fun x inPage inStack => ?_
    have own : (⟨kstack, 0x1000⟩ : Block) ∈ s.given := took.given ▸ List.mem_cons_self
    have away := reserved.apart took.sound own
    simp only at away
    simp only [page, Set.mem_Ico] at inPage inStack
    omega
  have begun : HalfIs s₂.mem pd half := fun i low lt => by
    rw [copykvm_kernel grows.sound reserved copied i low lt, alloc.1]
    exact stack i low lt
  have dirEq : k'.dir (kstack + 3992) = pd := by rw [Kernel.dir, child, p2v_v2p (by omega) (by omega)]
  rw [dirEq, bytes]
  exact copyRegions_half _ 0 _ s₂ prepared.sound prepared.dir prepared.own (prepared.clear List.mem_cons_self)
    (fun m listed => (housed.users m listed).light) (by omega) filled begun

theorem Kernel.Private.half_call {c : Call} (ok : k.Orderly env (.call (.other c)))
    (done : k.step env c = .ok k') (reserved : Reserved init env.kpagedir) (upper : k.Upper env half) :
    ∀ p ∈ k'.created, HalfIs k'.store.mem (k'.dir p) half := by
  obtain ⟨root, Q, scheduled⟩ := h.sched
  obtain ⟨moved, _⟩ := h.call_moved ok done
  have given := moved.given
  have sound := (scheduled.step_grows done).sound
  cases scheduled.effect done with
  | paused _ _ call store keeps =>
      intro p mem
      have old : p ∈ k.created := keeps.created ▸ mem
      rw [(keeps.sameOwner p old).dir, store]
      exact upper.processes p old
  | wrote addr byte _ _ _ _ _ => exact absurd ok id
  | refused path _ none left keeps =>
      intro p mem
      have old : p ∈ k.created := keeps.created ▸ mem
      refine h.half_quiet sound given ?_ old (keeps.sameOwner p old).dir (upper.processes p old)
      rcases left with ⟨_, store⟩ | ⟨bin, pd, _, copied⟩
      · rw [store]
        exact .refl _ _
      · obtain ⟨sound', _, _, _, given', frame⟩ := copykvm_spec scheduled.sound copied
        refine frame.mono fun x inside => ⟨⟨pd, 0x1000⟩, given' ▸ List.mem_cons_self, ?_, inside⟩
        exact sound'.not_mem_of_new (show k'.store.given = [_] ++ k.store.given from given')
          (List.mem_singleton_self _)
  | declined len flags fd _ bytes free given' keeps =>
      intro p mem
      have old : p ∈ k.created := keeps.created ▸ mem
      rw [(keeps.sameOwner p old).dir, bytes]
      exact upper.processes p old
  | loaded path bin cr3 entry base sz regions _ file image memtab pid created others self =>
      intro p mem
      have old : p ∈ k.created := created ▸ mem
      by_cases here : p = k.curthread
      · rw [here]
        exact h.half_loaded reserved upper (ok bin file).1 image self
      · have same := (h.others memtab others p old here).dir
        exact h.half_other moved sound old here same (upper.processes p old)
  | mapped len flags fd mem pa s s₁ _ nonzero limit bytes free given' backed linked memtab pid created
      others self =>
      obtain ⟨returnable, _⟩ := ok
      intro p inCreated
      have old : p ∈ k.created := created ▸ inCreated
      by_cases here : p = k.curthread
      · rw [here]
        rcases returnable nonzero limit with ⟨anon, some⟩ | ⟨device, closed⟩
        · exact h.half_mapped upper some anon limit bytes free given' backed linked self
        · cases backed with
          | anon page _ _ asked _ _ => exact absurd device asked
          | device fd' _ number opened => exact absurd (closed fd' number) opened
      · have same := (h.others memtab others p old here).dir
        exact h.half_other moved sound old here same (upper.processes p old)
  | unforked kstack s _ took full memtab pid created procs =>
      intro p mem
      have old : p ∈ k.created := created ▸ mem
      have alloc := Store.allocPages_mem s (k.memtab k.proc.pid).sz
      have grown := Store.allocPages_grows took.sound (k.memtab k.proc.pid).sz
      rw [full] at alloc grown
      have same : k.SameOwner k' p := sameOwner_of_unqueued (procs p old) (by rw [memtab])
      refine h.half_quiet sound given ?_ old same.dir (upper.processes p old)
      rw [alloc.1]
      exact took.newBytes.mono (Store.newBytes_mono (fun _ old => old) grown.given)
  | forked kstack mem pd s s₁ s₂ s₃ regions _ took made block nonnull copied filled bytes free given'
      memtab pid created others child =>
      have found := Store.allocPages_addr took.free (k.memtab k.proc.pid).sz
      rw [block] at found
      obtain ⟨number, cr3, base, _⟩ := child
      have room := ok.2 (found ▸ nonnull)
      have new := h.half_forked reserved upper room took block nonnull copied filled bytes cr3
      intro p inCreated
      rw [created, List.mem_append, List.mem_singleton] at inCreated
      rcases inCreated with old | rfl
      · have same : k.SameOwner k' p := by
          refine sameOwner_of_unqueued (others p old) ?_
          rw [memtab, Function.update_of_ne (Nat.ne_of_lt (h.numbers.below p old))]
        refine h.half_quiet sound given ?_ old same.dir (upper.processes p old)
        -- the fork writes to new memory only
        have dirEq : k'.dir (kstack + 3992) = pd := by
          have grows := Store.allocPages_grows took.sound (k.memtab k.proc.pid).sz
          rw [block] at grows
          obtain ⟨sound₂, dir, _⟩ := copykvm_spec grows.sound copied
          have paged := sound₂.paged dir.own
          simp only at paged
          rw [Kernel.dir, cr3, p2v_v2p (by omega) (by omega)]
        have list : k'.regions (kstack + 3992) = regions := by
          rw [Kernel.regions, number, memtab, Function.update_self]
        exact ((h.settled.housed _ h.cur).child room (h.numbers.unused k.pid (Nat.le_refl _) ok.1) took block
          nonnull copied filled bytes given' dirEq list base).2.2.1
      · exact new

/-- No step changes a kernel half, and a new directory gets it. -/
theorem Kernel.Private.upper_step {c : UserStep} (ok : k.Orderly env c) (done : k.userStep env c = .ok k')
    (reserved : Reserved init env.kpagedir) (upper : k.Upper env half) : k'.Upper env half := by
  obtain ⟨moved, next⟩ := h.step ok done
  obtain ⟨_, _, scheduled'⟩ := next.sched
  refine ⟨h.half_kernel moved scheduled'.sound reserved upper.kernel, ?_⟩
  cases c with
  | store va byte =>
      rw [Kernel.userStep] at done
      split at done
      · rename_i low
        cases leads : walk k.store.mem (p2v k.cr3) va with
        | none =>
            rw [leads] at done
            cases done
        | some pa =>
            rw [leads] at done
            cases done
            rw [h.register] at leads
            obtain ⟨m, listed, _, _, inPlace⟩ := h.settled.hit h.cur low leads
            obtain ⟨_, _, frame⟩ := h.settled.poke_housed h.cur byte low leads
            intro p mem
            refine (upper.processes p mem).of_frame frame fun x inPage written => ?_
            have inside := Kernel.page_footprint inPage
            rw [Set.mem_singleton_iff.mp written] at inPage inside
            by_cases here : p = k.curthread
            · subst here
              exact (h.settled.housed _ h.cur).clear m listed _ (.inl inPage) inPlace
            · exact Set.disjoint_left.mp (h.settled.apart.apart mem h.cur here) inside
                (.inr ⟨m, listed, inPlace⟩)
      · cases done
  | call c =>
      cases c with
      | «open» path =>
          obtain ⟨_, _, scheduled⟩ := h.sched
          obtain ⟨⟨r, k₁⟩, opened, result⟩ := bind_eq_ok.mp done
          cases result
          obtain ⟨_, bytes, ofile, same⟩ := sysOpen_spec scheduled.sound opened
          have created : k'.created = k.created := by rw [same]
          intro p mem
          rw [created] at mem
          have dir : k'.dir p = k.dir p := by
            rw [Kernel.dir, Kernel.dir, same]
            by_cases here : p = k.curthread
            · simp only [here, Function.update_self, Kernel.proc]
            · simp only [Function.update_of_ne here]
          rw [bytes, dir]
          exact upper.processes p mem
      | other c => exact h.half_call ok done reserved upper

end Steps

/-! ## Runs -/

theorem Started.upper {init : List Block} {env : Env} {half : Nat → Nat} {k₀ k : Kernel}
    (h : Started init env k₀ k) (tables : TablesAtBoot env k₀) (reserved : Reserved init env.kpagedir)
    (is : HalfIs k₀.store.mem env.kpagedir half) : k.Upper env half := by
  obtain ⟨kstack, idle, bin, cr3, start, base, sz, regions, s₁, s₂, s₃, took, file, image, _, grown, bytes,
    last, _, _, created, _, dir, _⟩ := h.stages
  have ok := tables.ok bin file
  obtain ⟨blk, s, built, _⟩ := loadImage_built took.sound ok image
  -- the page of a thread, and the new blocks of the program, are apart from `kpagedir`
  have spared : ∀ {a : Nat} {s s' : Store}, s.Took init a s' → HalfIs s.mem env.kpagedir half →
      HalfIs s'.mem env.kpagedir half := by
    intro a s s' took is
    refine is.of_frame took.frame fun x inPage inStack => ?_
    have own : (⟨a, 0x1000⟩ : Block) ∈ s'.given := took.given ▸ List.mem_cons_self
    have away := reserved.apart took.sound own
    simp only at away
    simp only [page, Set.mem_Ico] at inPage inStack
    omega
  have is₁ := spared took is
  have is₂ : HalfIs s₂.mem env.kpagedir half := by
    refine is₁.of_frame built.newBytes fun x inPage new => ?_
    obtain ⟨b, given, _, lo, hi⟩ := new
    have away := reserved.apart grown.sound (grown.given b given)
    simp only [page, Set.mem_Ico] at inPage
    omega
  have own₂ := loadImage_half took.sound reserved rfl ok.loadFits.copies ok.loadFits.user image is₁
  have dir₂ : PageDir s₂ (p2v cr3) := built.filling.dir
  refine ⟨spared last (bytes ▸ is₂), fun p mem => ?_⟩
  have here : p = kstack + 3992 := by
    rw [created] at mem
    exact List.mem_singleton.mp mem
  rw [here, Kernel.dir, dir]
  have still : HalfIs s₃.mem (p2v cr3) half := bytes ▸ own₂
  refine still.of_frame last.frame fun x inPage inStack => ?_
  have apart := last.sound.apart
  rw [last.given] at apart
  have away := (List.pairwise_cons.mp apart).1 _ (grown.given _ dir₂.own)
  simp only [Block.Apart] at away
  simp only [page, Set.mem_Ico] at inPage inStack
  omega

/-- The bounds of `pg_clear_identity` leave no slot between them: it unmaps nothing. -/
theorem clearEntries_none {pd low high : Nat} (none : high < low) : ∀ (n i : Nat) (m : Mem),
    clearEntries pd low high n i m = m := by
  intro n
  induction n with
  | zero => intro i m; rfl
  | succ n ih =>
      intro i m
      rw [clearEntries]
      split
      · rfl
      · rw [if_pos (by omega), ih]

/-- What `pg_identity` and `pg_clear_identity` wrote to `kpagedir`. -/
def BootDir (m : Mem) (pd fb pitch height unpagedEnd : Nat) : Prop :=
  ∃ m₀, ∀ i < 1024, load32 m (pd + 4 * i) =
    load32 (pgClearIdentity pd unpagedEnd (pgIdentity pd fb pitch height m₀)) (pd + 4 * i)

/-- In every state that the processes reach, the kernel half of every address space is the one
that `pg_identity` wrote at the boot: each of its addresses translates, in a page of 4 MiB, to
the physical address `KERNEL_OFFSET` below it or, in the slots of the framebuffer, to itself,
and the entry is closed to the user. -/
theorem kernel_half_everywhere {init : List Block} {env : Env} {k₀ k₁ k₂ : Kernel} {entry : Nat} {t : Journal}
    (atBoot : AtBoot init k₀) (tables : TablesAtBoot env k₀) (snug : SnugInit env)
    (booted : initsys env k₀ = .ok k₁) (sched : initSched k₁ entry = .ok k₂)
    (run : Runs (Journal.step env)
      (fun t c => t.kernel.Orderly env c ∧ t.kernel.Steady env c) (.start env k₂) t)
    (reserved : Reserved init env.kpagedir) {fb pitch height unpagedEnd : Nat}
    (bootDir : BootDir k₀.store.mem env.kpagedir fb pitch height unpagedEnd) :
    ∀ p ∈ t.kernel.created, ∀ x, 0x80000000 ≤ x → x < 0x100000000 →
      walk t.kernel.store.mem (t.kernel.dir p) x =
        some (if Covered fb (pitch * height) (x / 0x400000) then x else x - kernelOffset) ∧
      Large t.kernel.store.mem (t.kernel.dir p) (x / 0x400000) ∧
      load32 t.kernel.store.mem (t.kernel.dir p + 4 * (x / 0x400000)) % 8 = 3 := by
  obtain ⟨m₀, written⟩ := bootDir
  let m := pgIdentity env.kpagedir fb pitch height m₀
  have is : HalfIs k₀.store.mem env.kpagedir fun i => load32 m (env.kpagedir + 4 * i) := by
    intro i low lt
    have above : 0x400000 / 0x400000 < i := by omega
    rw [written i lt, pgClearIdentity, clearEntries_load above]
  have started := boot_started atBoot booted sched
  have invariant := run.invariant
    (fun s => s.Faithful init ∧ s.kernel.Upper env fun i => load32 m (env.kpagedir + 4 * i))
    ⟨started.faithful tables snug sched, started.upper tables reserved is⟩ fun s c s' inv ok done => by
      obtain ⟨faithful, upper⟩ := inv
      have next := (faithful.step ok.1 done).2
      obtain ⟨k, stepped, result⟩ := bind_eq_ok.mp done
      cases result
      exact ⟨next, faithful.keeps.upper_step ok.1 stepped reserved upper⟩
  intro p mem x high word
  have offset : kernelOffset = 0x80000000 := rfl
  have entries := invariant.2.processes p mem (x / 0x400000) (by omega) (by omega)
  simp only at entries
  obtain ⟨⟨there, large⟩, walked⟩ := pgIdentity_walk env.kpagedir fb pitch height m₀ word
  have closed := pgIdentity_kernelDir env.kpagedir fb pitch height m₀ (x / 0x400000) (by omega) (by omega)
  have notLow : ¬ x < kernelOffset := by omega
  rw [if_congr (or_iff_left notLow) rfl rfl] at walked
  refine ⟨?_, ⟨?_, ?_⟩, ?_⟩
  · rw [← walked, walk, walk]
    simp only [entries]
    rw [if_neg (by rw [there]; decide), if_pos large, if_neg (by rw [there]; decide), if_pos large]
  · rw [present, entries]
    exact there
  · rw [entries]
    exact large
  · rw [entries]
    exact closed

/-- The first process and its child: the kernel's text is 2 GiB above its place in memory, and the
framebuffer at its own. -/
theorem kernel_half_everywhere_fork : ∃ t : Journal, t.kernel.created = [0x80001F98, 0x8000CF98] ∧
    ∀ p ∈ [0x80001F98, 0x8000CF98], walk t.kernel.store.mem (t.kernel.dir p) 0x80400000 = some 0x400000 ∧
      walk t.kernel.store.mem (t.kernel.dir p) 0xE0001234 = some 0xE0001234 := by
  have result : (identityBoot alignedSegment >>= fun k₂ =>
      (Journal.start (smallEnv alignedSegment) k₂).step (smallEnv alignedSegment)
        (.call (.other .fork)) >>= fun t =>
      (.ok (decide (k₂.pid ≤ maxprocs ∧ span (k₂.memtab k₂.proc.pid).regions ≤
        pgRoundup (k₂.memtab k₂.proc.pid).sz), t.kernel.created) : Except Halt _)) =
        .ok (true, [0x80001F98, 0x8000CF98]) := by
    decide +kernel
  obtain ⟨k₂, boot, afterBoot⟩ := bind_eq_ok.mp result
  obtain ⟨t, forked, values⟩ := bind_eq_ok.mp afterBoot
  obtain ⟨k₁, booted, scheduled⟩ := bind_eq_ok.mp boot
  simp only [Except.ok.injEq, Prod.mk.injEq, decide_eq_true_eq] at values
  obtain ⟨⟨slot, room⟩, created⟩ := values
  have small : (Journal.start (smallEnv alignedSegment) k₂).kernel.Orderly (smallEnv alignedSegment)
      (.call (.other .fork)) := ⟨slot, fun _ => room⟩
  have steady : (Journal.start (smallEnv alignedSegment) k₂).kernel.Steady (smallEnv alignedSegment)
      (.call (.other .fork)) := by
    refine Journal.steady forked fun call same => ?_
    cases same
    exact Kernel.not_overruns_fork slot room
  have bootDir : BootDir identityKernel.store.mem 0x80101000 0xE0000000 0x1000 0x300 0x405000 := by
    refine ⟨fun _ => 0, fun i _ => ?_⟩
    rw [pgClearIdentity, clearEntries_none (by decide), identityKernel]
  have half := kernel_half_everywhere identityKernel_atBoot identityKernel_tables smallEnv_snug booted
    scheduled (.snoc _ .refl ⟨small, steady⟩ forked) smallFree_reserved bootDir
  refine ⟨t, created, fun p mem => ?_⟩
  rw [created] at half
  have text := (half p mem 0x80400000 (by decide) (by decide)).1
  have frame := (half p mem 0xE0001234 (by decide) (by decide)).1
  exact ⟨text, frame⟩

end Trunix
