import Trunix.Kernel.Growing
import Trunix.Kernel.Sheltered

/-!
# Isolation

The processes together refine the abstract machine of memories: whatever they do and in
whatever order they are scheduled, each finds at its addresses what its own stores,
mappings and programs put there, and before its birth those of its parent.  The machine
here loads and stores through the directory in `cr3`, which the scheduler sets.

That holds as long as nobody maps a device, maps over pages it has, or forks with more
than the recorded size, and no access goes through `NULL` while the first page is mapped;
the code looks for none of these.
-/

set_option autoImplicit false

namespace Trunix

open Trunix.Lib

/-! ## The machine -/

inductive UserStep where
  | store (va : Nat) (byte : UInt8)
  | call (c : FileCall)

/-- A store goes where the directory in `cr3` leads; the upper half is not for the user. -/
def Kernel.userStep (env : Env) (k : Kernel) : UserStep → Except Halt Kernel
  | .store va byte =>
      if va < 0x80000000 then
        match walk k.store.mem (p2v k.cr3) va with
        | none => .error .fault
        | some pa => .ok (k.poke pa byte)
      else .error .fault
  | .call c => k.fileStep env c

def Kernel.load (k : Kernel) (va : Nat) : Option UInt8 :=
  if va < 0x80000000 then (walk k.store.mem (p2v k.cr3) va).map fun pa => k.store.mem (p2v pa) else none

/-- A program that is loaded is well formed and snug.  A mapping is of anonymous memory and
apart from what the process has.  A fork that finds memory for the copy has a slot for the
child and no more to copy than the recorded size.  A store names an address of the process,
never a place in memory. -/
def Kernel.Orderly (env : Env) (k : Kernel) : UserStep → Prop
  | .store _ _ => True
  | .call (.open _) => True
  | .call (.other (.write _ _)) => False
  | .call (.other (.mmap len flags fd)) => k.Returnable env (.other (.mmap len flags fd)) ∧
      (len ≠ 0 → u32 (k.proc.mmapBase + pgRoundup len) < mmapLimit → flags &&& mapAnon ≠ 0 →
        ∀ m ∈ k.regions k.curthread,
          Disjoint m.range (Set.Ico k.proc.mmapBase (k.proc.mmapBase + pgRoundup len)))
  | .call (.other c) => k.Returnable env (.other c)

def Kernel.Steady (env : Env) (k : Kernel) (c : UserStep) : Prop :=
  ∀ call, c = .call call → ¬ k.FileAstray env call

def Env.image (env : Env) (path : List UInt8) : Option (Nat → Option UInt8) :=
  (env.initrd.program path).map fun bin => programImage env.initrd.bytes bin (env.initrd.segments bin)

def Kernel.event (env : Env) (k k' : Kernel) : UserStep → Option (MemoryEvent Nat Nat UInt8)
  | .store va byte => some (.deed k.curthread (.store va byte))
  | .call (.other .fork) => k'.created[k.created.length]?.map (.copy k.curthread)
  | .call (.other (.execve path)) => (env.image path).map fun image => .deed k.curthread (.replace image)
  | .call (.other (.mmap len _ _)) =>
      if (k'.regions k.curthread).length = (k.regions k.curthread).length then none
      else some (.deed k.curthread (.extend (zeros k.proc.mmapBase (pgRoundup len))))
  | _ => none

structure Journal where
  kernel : Kernel
  log : List (MemoryEvent Nat Nat UInt8)

def Journal.step (env : Env) (t : Journal) (c : UserStep) : Except Halt Journal := do
  let k ← t.kernel.userStep env c
  return ⟨k, (t.kernel.event env k c).toList ++ t.log⟩

def Journal.start (env : Env) (k : Kernel) : Journal :=
  ⟨k, ((env.image (pathBytes "/sbin/init")).map fun image =>
    MemoryEvent.deed k.curthread (.replace image)).toList⟩

/-! ## One step -/

/-- What a step may do to memory: it writes to what the running process has and to blocks
it takes, and nobody gets a byte that another one had. -/
structure Kernel.Moved (k k' : Kernel) (e : Option (MemoryEvent Nat Nat UInt8)) : Prop where
  given : ∀ b ∈ k.store.given, b ∈ k'.store.given
  frame : Frame k.store.mem k'.store.mem (k.footprint k.curthread ∪ k.store.newBytes k'.store)
  settled : k'.Settled
  created : ∀ p ∈ k.created, p ∈ k'.created
  grew : ∀ p ∈ k'.created, ∀ x ∈ k'.footprint p,
    (p ∈ k.created ∧ x ∈ k.footprint p) ∨ x ∈ k.store.newBytes k'.store
  spaces : k'.spaces = e.elim k.spaces fun e => e.on k.spaces
  fits : ∀ e' ∈ e, e'.Fits k.spaces

section Moved

variable {init : List Block} {k k' : Kernel} (h : k.Settled) (sound : k'.store.Sound init)
  (given : ∀ b ∈ k.store.given, b ∈ k'.store.given)

include h sound given

theorem Kernel.Moved.quiet (frame : Frame k.store.mem k'.store.mem (k.store.newBytes k'.store))
    (created : k'.created = k.created) (same : ∀ p ∈ k.created, k.SameOwner k' p) : k.Moved k' none := by
  obtain ⟨settled, footprints, spaces⟩ := h.quiet given frame
    (fun x new => (sound.newBytes_not_taken given x new).2) created same
  refine ⟨given, frame.mono Set.subset_union_right, settled, fun p mem => created ▸ mem,
    fun p mem x inside => ?_, spaces, fun e none => absurd none (Option.not_mem_none e)⟩
  rw [created] at mem
  exact Or.inl ⟨mem, footprints p mem ▸ inside⟩

theorem Kernel.Moved.deed {d : Deed Nat UInt8} (cur : k.curthread ∈ k.created)
    (frame : Frame k.store.mem k'.store.mem (k.footprint k.curthread ∪ k.store.newBytes k'.store))
    (created : k'.created = k.created) (others : ∀ p ∈ k.created, p ≠ k.curthread → k.SameOwner k' p)
    (own : k'.Housed k.curthread)
    (place : k'.footprint k.curthread ⊆ k.footprint k.curthread ∪ k.store.newBytes k'.store)
    (space : k'.space k.curthread = d.on (k.space k.curthread)) (fits : d.Fits (k.space k.curthread)) :
    k.Moved k' (some (.deed k.curthread d)) := by
  have members : ∀ p, p ∈ k'.created ↔ p ∈ k.created ∨ p = k.curthread := by
    intro p
    rw [created]
    exact ⟨Or.inl, fun either => either.elim id fun here => here ▸ cur⟩
  have new := sound.newBytes_not_taken given
  obtain ⟨settled, footprints, spaces⟩ := h.step given frame
    (fun x written => written.imp (fun inside => ⟨cur, inside⟩) fun inside => (new x inside).2) members others
    own (fun x inside => (place inside).imp (fun old => ⟨cur, old⟩) (new x))
  refine ⟨given, frame, settled, fun p mem => created ▸ mem, fun p mem x inside => ?_, ?_, fun e here => ?_⟩
  · rw [created] at mem
    by_cases here : p = k.curthread
    · subst here
      exact (place inside).imp_left fun old => ⟨mem, old⟩
    · exact Or.inl ⟨mem, footprints p mem here ▸ inside⟩
  · rw [spaces, space, ← Kernel.spaces_created cur]
    rfl
  · cases Option.mem_some_iff.mp here
    rw [MemoryEvent.Fits, Kernel.spaces_created cur]
    exact fits

theorem Kernel.Moved.born {n : Nat} (cur : k.curthread ∈ k.created) (stranger : n ∉ k.created)
    (frame : Frame k.store.mem k'.store.mem (k.store.newBytes k'.store))
    (created : k'.created = k.created ++ [n]) (others : ∀ p ∈ k.created, k.SameOwner k' p)
    (own : k'.Housed n) (place : k'.footprint n ⊆ k.store.newBytes k'.store)
    (space : k'.space n = k.space k.curthread) : k.Moved k' (some (.copy k.curthread n)) := by
  have members : ∀ p, p ∈ k'.created ↔ p ∈ k.created ∨ p = n := by
    intro p
    rw [created, List.mem_append, List.mem_singleton]
  have new := sound.newBytes_not_taken given
  obtain ⟨settled, footprints, spaces⟩ := h.step given frame
    (fun x written => Or.inr (new x written).2) members (fun p mem _ => others p mem) own
    (fun x inside => Or.inr (new x (place inside)))
  refine ⟨given, frame.mono Set.subset_union_right, settled, fun p mem => (members p).mpr (Or.inl mem),
    fun p mem x inside => ?_, ?_, fun e here => ?_⟩
  · by_cases here : p = n
    · subst here
      exact Or.inr (place inside)
    · have old := ((members p).mp mem).resolve_right here
      exact Or.inl ⟨old, footprints p old here ▸ inside⟩
  · rw [spaces, space, ← Kernel.spaces_created cur]
    rfl
  · cases Option.mem_some_iff.mp here
    exact fun va => Kernel.spaces_stranger stranger va

end Moved

/-! ## The steps -/

/-- The processes run by the scheduler with numbers of their own are settled; `cr3` is the
directory of the running one, and nobody has a byte of a kernel stack. -/
structure Kernel.Private (init : List Block) (k : Kernel) : Prop where
  sched : ∃ root Q, Scheduled init root Q k
  numbers : Numbered k
  settled : k.Settled
  register : k.cr3 = k.proc.cr3
  stack : ∀ p ∈ k.created, ∀ q ∈ k.created, Disjoint (k.footprint q) (page (p - 3992))

theorem Keeps.sameOwner {k k' : Kernel} (h : Keeps k k') : ∀ p ∈ k.created, k.SameOwner k' p :=
  fun p mem => sameOwner_of_unqueued (h.procs p mem) (by rw [h.memtab])

section Calls

variable {init : List Block} {root : Nat} {Q : List Nat} {env : Env} {k k' : Kernel}
  (h : k.Private init)

include h

theorem Kernel.Private.cur : k.curthread ∈ k.created := by
  obtain ⟨root, Q, scheduled⟩ := h.sched
  exact scheduled.mem_created

theorem Kernel.Private.others {v : ProcMmap} (memtab : k'.memtab = Function.update k.memtab k.proc.pid v)
    (others : ∀ p ∈ k.created, p ≠ k.curthread → (k'.procs p).unqueued = (k.procs p).unqueued) :
    ∀ p ∈ k.created, p ≠ k.curthread → k.SameOwner k' p := by
  intro p mem ne
  refine sameOwner_of_unqueued (others p mem ne) ?_
  rw [memtab, Function.update_of_ne (h.numbers.other_slot h.cur mem ne)]

theorem Kernel.Private.loaded_moved {bin cr3 entry base sz : Nat} {regions : List VmRegion}
    (given : ∀ b ∈ k.store.given, b ∈ k'.store.given) (sound : k'.store.Sound init)
    (ok : SegsOk (env.initrd.segments bin)) (snug : Snug (env.initrd.segments bin))
    (image : loadImage env.kpagedir env.initrd.bytes bin k.store =
      .ok (.loaded cr3 entry base sz regions, k'.store))
    (memtab : k'.memtab = Function.update k.memtab k.proc.pid ⟨regions, sz⟩)
    (created : k'.created = k.created)
    (others : ∀ p ∈ k.created, p ≠ k.curthread → (k'.procs p).unqueued = (k.procs p).unqueued)
    (self : (k'.procs k.curthread).unqueued = { k.proc.unqueued with mmapBase := base, cr3 := cr3 }) :
    k.Moved k' (some (.deed k.curthread
      (.replace (programImage env.initrd.bytes bin (env.initrd.segments bin))))) := by
  obtain ⟨root, Q, scheduled⟩ := h.sched
  have pid := congrArg Proc.pid self
  have dir := congrArg Proc.cr3 self
  have start := congrArg Proc.mmapBase self
  change (k'.procs k.curthread).pid = k.proc.pid at pid
  have list : k'.regions k.curthread = regions := by
    rw [Kernel.regions, pid, memtab, Function.update_self]
  obtain ⟨own, place, space⟩ := loadImage_housed scheduled.sound ok snug image dir list start
  obtain ⟨blk, s, built, _⟩ := loadImage_built scheduled.sound ok image
  exact .deed h.settled sound given h.cur (built.newBytes.mono Set.subset_union_right) created
    (h.others memtab others) own (place.trans Set.subset_union_right) space trivial

theorem Kernel.Private.mapped_moved {len flags fd mem pa : Nat} {s s₁ : Store}
    (given' : ∀ b ∈ k.store.given, b ∈ k'.store.given) (sound : k'.store.Sound init)
    (nonzero : pgRoundup len ≠ 0) (anon : flags &&& mapAnon ≠ 0)
    (limit : u32 (k.proc.mmapBase + pgRoundup len) < mmapLimit)
    (apart : ∀ m ∈ k.regions k.curthread,
      Disjoint m.range (Set.Ico k.proc.mmapBase (k.proc.mmapBase + pgRoundup len)))
    (bytes : s.mem = k.store.mem) (free : s.free = k.store.free) (given : s.given = k.store.given)
    (backed : Backed { k with store := s } (pgRoundup len) flags fd mem pa s₁)
    (linked : allocPt (p2v k.proc.cr3) k.proc.mmapBase pa (pgRoundup len) userFlags s₁ = .ok k'.store)
    (memtab : k'.memtab = Function.update k.memtab k.proc.pid { k.memtab k.proc.pid with
      regions := ⟨k.proc.mmapBase, pa, pgRoundup len⟩ :: (k.memtab k.proc.pid).regions })
    (created : k'.created = k.created)
    (others : ∀ p ∈ k.created, p ≠ k.curthread → (k'.procs p).unqueued = (k.procs p).unqueued)
    (self : (k'.procs k.curthread).unqueued =
      { k.proc.unqueued with mmapBase := u32 (k.proc.mmapBase + pgRoundup len) }) :
    k.Moved k' (some (.deed k.curthread (.extend (zeros k.proc.mmapBase (pgRoundup len))))) := by
  obtain ⟨root, Q, scheduled⟩ := h.sched
  have housed := h.settled.housed _ h.cur
  have soundS : s.Sound init := scheduled.sound.write free given
  have whole := pgRoundup_mod len
  have small : pgRoundup len ≤ 0x80000000 := Backed.anon_bound soundS anon whole backed
  obtain ⟨baseLe, aligned⟩ : k.proc.mmapBase ≤ mmapLimit ∧ k.proc.mmapBase % 0x1000 = 0 := housed.base
  have top : mmapLimit = 0x7FFFF000 := rfl
  rw [u32_of_lt (show k.proc.mmapBase + pgRoundup len < 0x100000000 by omega)] at limit self
  have pid := congrArg Proc.pid self
  have cr3 := congrArg Proc.cr3 self
  have next := congrArg Proc.mmapBase self
  change (k'.procs k.curthread).pid = k.proc.pid at pid
  cases backed with
  | device fd' asked _ _ => exact absurd asked anon
  | anon page s₂ s₃ asked taken cleared =>
      have block : s.allocPages (pgRoundup len) = (page, s₂) := taken
      rw [pgRoundup_idem] at cleared
      have call : (s.allocPages (pgRoundup len)).2.memset (s.allocPages (pgRoundup len)).1 0
          (pgRoundup len) = .ok s₁ := by
        rw [block]
        exact cleared
      have fits := Store.fits_of_memset (Nat.pos_of_ne_zero nonzero) call
      obtain ⟨a, s', first, cleared', fresh⟩ := soundS.cleared whole (Nat.pos_of_ne_zero nonzero) fits
      rw [block] at first cleared'
      cases first
      cases Except.ok.inj (cleared.symm.trans cleared')
      have list : k'.regions k.curthread =
          ⟨k.proc.mmapBase, v2p page, pgRoundup len⟩ :: k.regions k.curthread := by
        rw [Kernel.regions, pid, memtab, Function.update_self]
        rfl
      have dirEq : k'.dir k.curthread = k.dir k.curthread := congrArg p2v cr3
      have extended := housed.extended (Nat.pos_of_ne_zero nonzero) bytes given fresh aligned limit linked
        dirEq
      refine .deed h.settled sound given' h.cur ?_ created (h.others memtab others)
        (extended.housed housed apart list next) (extended.footprint list)
        (extended.space housed apart list next) (housed.nothing_apart apart)
      exact extended.frame.mono (Set.union_subset_union_left _ Set.subset_union_left)

theorem Kernel.Private.forked_moved {kstack mem pd : Nat} {s s₁ s₂ s₃ : Store} {regions : List VmRegion}
    (given' : ∀ b ∈ k.store.given, b ∈ k'.store.given) (sound : k'.store.Sound init) (slot : k.pid ≤ maxprocs)
    (room : span (k.memtab k.proc.pid).regions ≤ pgRoundup (k.memtab k.proc.pid).sz)
    (took : k.store.Took init kstack s)
    (block : s.allocPages (k.memtab k.proc.pid).sz = (mem, s₁)) (nonnull : mem ≠ 0)
    (copied : copykvm env.kpagedir s₁ = .ok (pd, s₂))
    (filled : copyRegions pd (k.memtab k.proc.pid).regions mem (k.memtab k.pid).regions s₂ =
      .ok (regions, s₃))
    (bytes : k'.store.mem = s₃.mem) (given : k'.store.given = s₃.given)
    (memtab : k'.memtab =
      Function.update k.memtab k.pid { k.memtab k.pid with regions := regions })
    (created : k'.created = k.created ++ [kstack + 3992])
    (others : ∀ p ∈ k.created, (k'.procs p).unqueued = (k.procs p).unqueued)
    (child : (k'.procs (kstack + 3992)).pid = k.pid ∧ (k'.procs (kstack + 3992)).cr3 = v2p pd ∧
      (k'.procs (kstack + 3992)).mmapBase = 0) :
    k.Moved k' (some (.copy k.curthread (kstack + 3992))) ∧
      ∀ q ∈ k'.created, k'.footprint q ⊆ k.store.taken ∪ s.newBytes k'.store := by
  obtain ⟨root, Q, scheduled⟩ := h.sched
  obtain ⟨number, cr3, base⟩ := child
  have dirEq : k'.dir (kstack + 3992) = pd := by
    have grows := Store.allocPages_grows took.sound (k.memtab k.proc.pid).sz
    rw [block] at grows
    obtain ⟨sound₂, dir, _⟩ := copykvm_spec grows.sound copied
    have paged := sound₂.paged dir.own
    simp only at paged
    rw [Kernel.dir, cr3, p2v_v2p (by omega) (by omega)]
  have list : k'.regions (kstack + 3992) = regions := by
    rw [Kernel.regions, number, memtab, Function.update_self]
  obtain ⟨own, place, frame, space⟩ := (h.settled.housed _ h.cur).child room
    (h.numbers.unused k.pid (Nat.le_refl _) slot) took block nonnull copied filled bytes given dirEq list base
  have stranger : kstack + 3992 ∉ k.created := fun mem =>
    took.ne_home (scheduled.homes _ (List.mem_cons_of_mem _ mem)) rfl
  have same : ∀ p ∈ k.created, k.SameOwner k' p := fun p mem => by
    refine sameOwner_of_unqueued (others p mem) ?_
    rw [memtab, Function.update_of_ne (Nat.ne_of_lt (h.numbers.below p mem))]
  refine ⟨.born h.settled sound given' h.cur stranger frame created same own ?_ space, fun q mem => ?_⟩
  · exact place.trans (Store.newBytes_mono (fun b old => took.given ▸ List.mem_cons_of_mem _ old)
      fun _ old => old)
  · rw [created, List.mem_append, List.mem_singleton] at mem
    rcases mem with old | rfl
    · have housed := h.settled.housed q old
      have spared := housed.spared (same q old) given' frame fun x inside new =>
        (sound.newBytes_not_taken given' x new).2 (housed.footprint_taken inside)
      rw [spared.2.1]
      exact housed.footprint_taken.trans Set.subset_union_left
    · exact place.trans Set.subset_union_right

theorem Kernel.Private.call_moved {c : Call} (ok : k.Orderly env (.call (.other c)))
    (done : k.step env c = .ok k') : k.Moved k' (k.event env k' (.call (.other c))) ∧
      ∀ p ∈ k'.created, p ∈ k.created ∨
        ∀ q ∈ k'.created, Disjoint (k'.footprint q) (page (p - 3992)) := by
  obtain ⟨root, Q, scheduled⟩ := h.sched
  have given := (scheduled.step_grows done).given
  have sound := (scheduled.step_grows done).sound
  have same : k'.created = k.created → ∀ p ∈ k'.created, p ∈ k.created ∨
      ∀ q ∈ k'.created, Disjoint (k'.footprint q) (page (p - 3992)) :=
    fun created p mem => Or.inl (created ▸ mem)
  cases scheduled.effect done with
  | paused _ _ call store keeps =>
      refine ⟨?_, same keeps.created⟩
      have event : k.event env k' (.call (.other c)) = none := by
        rcases call with rfl | rfl <;> rfl
      rw [event]
      refine .quiet h.settled sound given ?_ keeps.created keeps.sameOwner
      rw [store]
      exact .refl _ _
  | wrote addr byte _ _ _ _ _ => exact absurd ok id
  | refused path _ none left keeps =>
      refine ⟨?_, same keeps.created⟩
      have event : k.event env k' (.call (.other (.execve path))) = Option.none := by
        rw [Kernel.event, Env.image, none]
        rfl
      rw [event]
      refine .quiet h.settled sound given ?_ keeps.created keeps.sameOwner
      rcases left with ⟨_, store⟩ | ⟨bin, pd, _, copied⟩
      · rw [store]
        exact .refl _ _
      · obtain ⟨sound', _, _, _, given', frame⟩ := copykvm_spec scheduled.sound copied
        refine frame.mono fun x inside => ⟨⟨pd, 0x1000⟩, given' ▸ List.mem_cons_self, ?_, inside⟩
        exact sound'.not_mem_of_new (show k'.store.given = [_] ++ k.store.given from given')
          (List.mem_singleton_self _)
  | declined len flags fd _ bytes free given' keeps =>
      refine ⟨?_, same keeps.created⟩
      have regions := (keeps.sameOwner _ h.cur).regions
      have event : k.event env k' (.call (.other (.mmap len flags fd))) = none := by
        rw [Kernel.event, regions, if_pos rfl]
      rw [event]
      refine .quiet h.settled sound given ?_ keeps.created keeps.sameOwner
      rw [bytes]
      exact .refl _ _
  | loaded path bin cr3 entry base sz regions _ file image memtab pid created others self =>
      refine ⟨?_, same created⟩
      obtain ⟨wellFormed, snug⟩ := ok bin file
      rw [Kernel.event, Env.image, file]
      exact h.loaded_moved given sound wellFormed snug image memtab created others self
  | mapped len flags fd mem pa s s₁ _ nonzero limit bytes free given' backed linked memtab pid created
      others self =>
      refine ⟨?_, same created⟩
      obtain ⟨returnable, apart⟩ := ok
      have number := congrArg Proc.pid self
      change (k'.procs k.curthread).pid = k.proc.pid at number
      have longer : (k'.regions k.curthread).length ≠ (k.regions k.curthread).length := by
        rw [Kernel.regions, number, memtab, Function.update_self, List.length_cons]
        exact Nat.succ_ne_self _
      rw [Kernel.event, if_neg longer]
      rcases returnable nonzero limit with ⟨anon, some⟩ | ⟨device, closed⟩
      · exact h.mapped_moved given sound some anon limit (apart nonzero limit anon) bytes free given' backed
          linked memtab created others self
      · cases backed with
        | anon page _ _ asked _ _ => exact absurd device asked
        | device fd' _ number opened => exact absurd (closed fd' number) opened
  | unforked kstack s _ took full memtab pid created procs =>
      refine ⟨?_, same created⟩
      have event : k.event env k' (.call (.other .fork)) = none := by
        rw [Kernel.event, created, List.getElem?_eq_none (Nat.le_refl _)]
        rfl
      rw [event]
      have alloc := Store.allocPages_mem s (k.memtab k.proc.pid).sz
      rw [full] at alloc
      have grown := Store.allocPages_grows took.sound (k.memtab k.proc.pid).sz
      rw [full] at grown
      refine .quiet h.settled sound given ?_ created fun p mem =>
        sameOwner_of_unqueued (procs p mem) (by rw [memtab])
      rw [alloc.1]
      exact took.newBytes.mono (Store.newBytes_mono (fun _ old => old) grown.given)
  | forked kstack mem pd s s₁ s₂ s₃ regions _ took made block nonnull copied filled bytes free given'
      memtab pid created others child =>
      have found := Store.allocPages_addr took.free (k.memtab k.proc.pid).sz
      rw [block] at found
      obtain ⟨number, cr3, base, _⟩ := child
      obtain ⟨moved, place⟩ := h.forked_moved given sound ok.1 (ok.2 (found ▸ nonnull)) took block nonnull
        copied filled bytes given' memtab created others ⟨number, cr3, base⟩
      have event : k.event env k' (.call (.other .fork)) = some (.copy k.curthread (kstack + 3992)) := by
        rw [Kernel.event, created, List.getElem?_concat_length]
        rfl
      rw [event]
      refine ⟨moved, fun p mem => ?_⟩
      rw [created, List.mem_append, List.mem_singleton] at mem
      refine mem.imp_right fun here q listed => Set.disjoint_left.mpr fun x inside inStack => ?_
      subst here
      rw [Nat.add_sub_cancel] at inStack
      have old : (⟨kstack, 0x1000⟩ : Block) ∈ s.given := took.given ▸ List.mem_cons_self
      have later : ∀ b ∈ s.given, b ∈ k'.store.given := by
        intro b inTook
        have grows₁ := Store.allocPages_grows took.sound (k.memtab k.proc.pid).sz
        rw [block] at grows₁
        have grows₂ := (copykvm_grows grows₁.sound _).of_ok copied
        have grows₃ := (copyRegions_grows _ _ _ grows₂.sound).of_ok filled
        exact given' ▸ grows₃.given b (grows₂.given b (grows₁.given b inTook))
      rcases place q listed inside with taken | new
      · exact (sound.newBytes_not_taken given x ⟨_, later _ old, took.fresh, inStack⟩).2 taken
      · exact sound.newBytes_outside later new _ old inStack

theorem Kernel.Private.keep {e : Option (MemoryEvent Nat Nat UInt8)} (moved : k.Moved k' e)
    (sound : k'.store.Sound init) (sched : ∃ root Q, Scheduled init root Q k') (numbers : Numbered k')
    (register : k'.cr3 = k'.proc.cr3)
    (stack : ∀ p ∈ k'.created, p ∈ k.created ∨
      ∀ q ∈ k'.created, Disjoint (k'.footprint q) (page (p - 3992))) : k'.Private init := by
  refine ⟨sched, numbers, moved.settled, register, fun p memP q memQ => ?_⟩
  refine (stack p memP).elim (fun old => ?_) fun new => new q memQ
  obtain ⟨root, Q, scheduled⟩ := h.sched
  obtain ⟨kstack, rfl, given⟩ := scheduled.homes p (List.mem_cons_of_mem _ old)
  refine Set.disjoint_left.mpr fun x inside inStack => ?_
  rcases moved.grew q memQ x inside with ⟨oldQ, before⟩ | new
  · exact Set.disjoint_left.mp (h.stack _ old q oldQ) before inStack
  · rw [Nat.add_sub_cancel] at inStack
    exact (sound.newBytes_not_taken moved.given x new).2 ⟨_, given, inStack⟩

theorem Kernel.Private.opened {path : List UInt8} (done : k.fileStep env (.open path) = .ok k') :
    k.Moved k' none ∧ k'.Private init := by
  obtain ⟨root, Q, scheduled⟩ := h.sched
  obtain ⟨⟨r, k₁⟩, opened, result⟩ := bind_eq_ok.mp done
  cases result
  obtain ⟨_, bytes, ofile, same⟩ := sysOpen_spec scheduled.sound opened
  have quiet := sysOpen_quiet scheduled.sound opened
  have memtab : k'.memtab = k.memtab := by rw [same]
  have number : k'.pid = k.pid := by rw [same]
  have procs : ∀ p ∈ k.created, (k'.procs p).pid = (k.procs p).pid ∧ (k'.procs p).cr3 = (k.procs p).cr3 ∧
      (k'.procs p).mmapBase = (k.procs p).mmapBase := by
    intro p _
    rw [same]
    by_cases here : p = k.curthread
    · subst here
      simp only [Function.update_self, Kernel.proc, and_self]
    · simp only [Function.update_of_ne here, and_self]
  have owners : ∀ p ∈ k.created, k.SameOwner k' p := by
    intro p mem
    obtain ⟨pid, cr3, base⟩ := procs p mem
    exact ⟨by rw [Kernel.dir, Kernel.dir, cr3], by rw [Kernel.regions, Kernel.regions, pid, memtab], base⟩
  have moved : k.Moved k' none := .quiet h.settled quiet.grows.sound quiet.grows.given
    (by rw [bytes]; exact .refl _ _) quiet.created owners
  refine ⟨moved, h.keep moved quiet.grows.sound ⟨root, Q, (scheduled.quiet quiet).1⟩ ?_ ?_ fun p mem =>
    Or.inl (quiet.created ▸ mem)⟩
  · refine h.numbers.update h.cur (v := k.memtab k.proc.pid) ?_ number quiet.created fun p mem =>
      (procs p mem).1
    rw [Function.update_eq_self]
    exact memtab
  · have register : k'.cr3 = k.cr3 := by rw [same]
    rw [register, h.register, Kernel.proc, Kernel.proc, quiet.curthread]
    exact (procs _ h.cur).2.1.symm

theorem Kernel.Private.stored {va pa : Nat} (byte : UInt8) (low : va < 0x80000000)
    (leads : walk k.store.mem (p2v k.cr3) va = some pa) :
    k.Moved (k.poke pa byte) (some (.deed k.curthread (.store va byte))) ∧ (k.poke pa byte).Private init := by
  obtain ⟨root, Q, scheduled⟩ := h.sched
  rw [h.register] at leads
  change walk k.store.mem (k.dir k.curthread) va = some pa at leads
  have sound : (k.poke pa byte).store.Sound init := scheduled.sound.write rfl rfl
  obtain ⟨own, footprint, frame⟩ := h.settled.poke_housed h.cur byte low leads
  obtain ⟨there, space⟩ := h.settled.poke_space h.cur byte low leads
  obtain ⟨m, listed, _, _, inPlace⟩ := h.settled.hit h.cur low leads
  have inside : {p2v pa} ⊆ k.footprint k.curthread :=
    Set.singleton_subset_iff.mpr (Or.inr ⟨m, listed, inPlace⟩)
  have moved : k.Moved (k.poke pa byte) (some (.deed k.curthread (.store va byte))) :=
    .deed h.settled sound (fun _ old => old) h.cur (frame.mono (inside.trans Set.subset_union_left)) rfl
      (fun p _ _ => ⟨rfl, rfl, rfl⟩) own (footprint ▸ Set.subset_union_left) space there
  refine ⟨moved, h.keep moved sound ⟨root, Q, ?_⟩ ?_ h.register fun p mem => Or.inl mem⟩
  · exact (scheduled.quiet ⟨⟨sound, fun _ old => old⟩, fun _ _ => ⟨rfl, rfl, rfl⟩, rfl, rfl, rfl, rfl, rfl,
      rfl⟩).1
  · exact h.numbers.keeps ⟨rfl, rfl, rfl, fun _ _ => rfl⟩

theorem Kernel.Private.step {c : UserStep} (ok : k.Orderly env c) (done : k.userStep env c = .ok k') :
    k.Moved k' (k.event env k' c) ∧ k'.Private init := by
  cases c with
  | store va byte =>
      rw [Kernel.userStep] at done
      split at done
      · rename_i low
        cases leads : walk k.store.mem (p2v k.cr3) va with
        | none =>
            rw [leads] at done
            cases done
        | some pa =>
            rw [leads] at done
            cases done
            exact h.stored byte low leads
      · cases done
  | call c =>
      cases c with
      | «open» path => exact h.opened done
      | other c =>
          obtain ⟨root, Q, scheduled⟩ := h.sched
          obtain ⟨moved, stack⟩ := h.call_moved ok done
          obtain ⟨Q', next, _⟩ := (scheduled.step c).of_ok done
          refine ⟨moved, h.keep moved next.sound ⟨root, Q', next⟩ ?_ (scheduled.register h.register done) stack⟩
          refine h.numbers.step h.cur ?_ (scheduled.effect done)
          rintro rfl
          exact ok.1

end Calls

/-! ## Runs -/

structure Journal.Faithful (init : List Block) (t : Journal) : Prop where
  keeps : t.kernel.Private init
  spaces : t.kernel.spaces = replay (fun _ _ => none) t.log
  lawful : Lawful (fun _ _ => none) t.log

theorem Journal.Faithful.step {init : List Block} {env : Env} {t t' : Journal} {c : UserStep}
    (h : t.Faithful init) (ok : t.kernel.Orderly env c) (done : t.step env c = .ok t') :
    t.kernel.Moved t'.kernel (t.kernel.event env t'.kernel c) ∧ t'.Faithful init := by
  obtain ⟨k, stepped, result⟩ := bind_eq_ok.mp done
  cases result
  obtain ⟨moved, keeps⟩ := h.keeps.step ok stepped
  refine ⟨moved, keeps, ?_, ?_⟩
  · rw [moved.spaces, h.spaces]
    cases t.kernel.event env k c <;> rfl
  · have fits := moved.fits
    rw [h.spaces] at fits
    cases event : t.kernel.event env k c with
    | none => exact h.lawful
    | some e => exact ⟨fits e event, h.lawful⟩

theorem Started.faithful {init : List Block} {env : Env} {k₀ k₁ k : Kernel} {entry : Nat}
    (h : Started init env k₀ k) (tables : TablesAtBoot env k₀) (snug : SnugInit env)
    (sched : initSched k₁ entry = .ok k) : (Journal.start env k).Faithful init := by
  obtain ⟨root, scheduled⟩ := h.scheduled
  have numbers := (h.each (P := fun _ _ _ _ => True) tables fun _ _ _ _ _ _ _ _ _ _ _ => trivial).numbers
  obtain ⟨kstack, idle, bin, cr3, start, base, sz, regions, s₁, s₂, s₃, took, file, image, _, grown, bytes,
    last, memtab, _, created, number, dir, place, _⟩ := h.stages
  have only : ∀ p, p ∈ k.created ↔ p = kstack + 3992 := fun p => by rw [created, List.mem_singleton]
  have cur : k.curthread = kstack + 3992 := (only _).mp scheduled.mem_created
  have list : k.regions (kstack + 3992) = regions := by
    rw [Kernel.regions, number, memtab, Function.update_self]
  have ok := tables.ok bin file
  -- at home when the program was loaded, and still when the first process starts
  obtain ⟨own, fresh, space⟩ := loadImage_housed (k := { k with store := s₂ }) took.sound ok (snug bin file)
    image dir list place
  have given : ∀ b ∈ s₂.given, b ∈ k.store.given := fun b old => last.grows.given b (grown.given b old)
  have idleNew : ∀ x ∈ page idle, x ∉ s₂.taken := by
    rintro x inside ⟨b, old, within⟩
    have apart := last.sound.apart
    rw [last.given] at apart
    have side := (List.pairwise_cons.mp apart).1 b (grown.given b old)
    simp only [Block.Apart] at side
    simp only [page, Set.mem_Ico] at inside
    omega
  have frame : Frame s₂.mem k.store.mem (page idle) := bytes ▸ last.frame
  have still : Kernel.SameOwner { k with store := s₂ } k (kstack + 3992) := ⟨rfl, rfl, rfl⟩
  obtain ⟨housed, footprint, same⟩ := own.spared still given frame fun x inside inIdle =>
    idleNew x inIdle (own.footprint_taken inside)
  have settled : k.Settled := by
    refine ⟨fun p mem => (only p).mp mem ▸ housed, fun p mem => ?_, fun p memP q memQ ne => ?_⟩
    · rw [(only p).mp mem]
      exact housed.footprint_taken
    · exact absurd (((only p).mp memP).trans ((only q).mp memQ).symm) ne
  obtain ⟨⟨thread, k₂⟩, _, switch⟩ := bind_eq_ok.mp sched
  have log : (Journal.start env k).log = [.deed k.curthread
      (.replace (programImage env.initrd.bytes bin (env.initrd.segments bin)))] := by
    rw [Journal.start, Env.image, file]
    rfl
  refine ⟨⟨⟨root, [], scheduled⟩, numbers, settled, scheduler_register switch, fun p memP q memQ => ?_⟩, ?_,
    ?_⟩
  · change p ∈ k.created at memP
    change q ∈ k.created at memQ
    rw [only] at memP memQ
    subst memP memQ
    rw [Nat.add_sub_cancel]
    refine Set.disjoint_left.mpr fun x inside inStack => ?_
    have new := fresh (footprint ▸ inside)
    have old : (⟨kstack, 0x1000⟩ : Block) ∈ s₁.given := took.given ▸ List.mem_cons_self
    have grows := (loadImage_grows took.sound env.kpagedir env.initrd.bytes bin).of_ok image
    exact grows.sound.newBytes_outside grows.given new _ old inStack
  · rw [log, replay, replay, MemoryEvent.on, cur]
    funext p
    change k.spaces p = _
    by_cases here : p = kstack + 3992
    · subst here
      rw [Function.update_self, Kernel.spaces_created ((only _).mpr rfl), same, space]
      rfl
    · rw [Function.update_of_ne here]
      funext va
      exact Kernel.spaces_stranger (fun mem => here ((only p).mp mem)) va
  · rw [log]
    exact ⟨trivial, trivial⟩

/-- A step that returns does not go astray unless it overruns its memory. -/
theorem Journal.steady {env : Env} {t t' : Journal} {c : UserStep} (done : t.step env c = .ok t')
    (inside : ∀ call, c = .call (.other call) → ¬ t.kernel.Overruns env call) : t.kernel.Steady env c := by
  rintro call rfl
  obtain ⟨k, stepped, _⟩ := bind_eq_ok.mp done
  exact Kernel.not_fileAstray stepped fun other same => inside other (by rw [same])

/-- An orderly run after the boot that does not go astray comes to `t`. -/
def Reached (init : List Block) (env : Env) (t : Journal) : Prop :=
  ∃ k₀ k₁ k₂ entry, AtBoot init k₀ ∧ TablesAtBoot env k₀ ∧ SnugInit env ∧ initsys env k₀ = .ok k₁ ∧
    initSched k₁ entry = .ok k₂ ∧
    Runs (Journal.step env) (fun t c => t.kernel.Orderly env c ∧ t.kernel.Steady env c) (.start env k₂) t

theorem Reached.faithful {init : List Block} {env : Env} {t : Journal} (h : Reached init env t) :
    t.Faithful init := by
  obtain ⟨k₀, k₁, k₂, entry, atBoot, tables, snug, booted, sched, run⟩ := h
  have start := (boot_started atBoot booted sched).faithful tables snug sched
  exact run.invariant (Journal.Faithful init) start fun t c t' inv ok done => (inv.step ok.1 done).2

theorem Reached.more {init : List Block} {env : Env} {t t' : Journal} (h : Reached init env t)
    (run : Runs (Journal.step env) (fun t c => t.kernel.Orderly env c ∧ t.kernel.Steady env c) t t') :
    Reached init env t' := by
  obtain ⟨k₀, k₁, k₂, entry, atBoot, tables, snug, booted, sched, first⟩ := h
  exact ⟨k₀, k₁, k₂, entry, atBoot, tables, snug, booted, sched, first.trans run⟩

theorem Kernel.Private.load_eq {init : List Block} {k : Kernel} (h : k.Private init) (va : Nat) :
    k.load va = k.spaces k.curthread va := by
  rw [Kernel.spaces_created h.cur, Kernel.load, Kernel.space, h.register]
  rfl

theorem Kernel.userStep_store (env : Env) (k : Kernel) (va : Nat) (byte : UInt8) :
    (∃ k', k.userStep env (.store va byte) = .ok k') ↔ k.load va ≠ none := by
  rw [Kernel.userStep, Kernel.load]
  by_cases low : va < 0x80000000
  · rw [if_pos low, if_pos low]
    cases walk k.store.mem (p2v k.cr3) va with
    | none => exact iff_of_false (by rintro ⟨k', done⟩; cases done) (fun some => some rfl)
    | some pa => exact iff_of_true ⟨_, rfl⟩ (Option.some_ne_none _)
  · rw [if_neg low, if_neg low]
    exact iff_of_false (by rintro ⟨k', done⟩; cases done) (fun some => some rfl)

/-- On the small machine the first process forks; then it stores, the child stores at the same
address, and the first process runs again. -/
theorem smallRun : ∃ k₂ t t', smallBoot alignedSegment = .ok k₂ ∧
    Reached smallFree (smallEnv alignedSegment) t ∧
    t.log = .copy 0x80001F98 0x8000CF98 :: (Journal.start (smallEnv alignedSegment) k₂).log ∧
    t.kernel.created = [0x80001F98, 0x8000CF98] ∧
    Runs (Journal.step (smallEnv alignedSegment))
      (fun t c => t.kernel.Orderly (smallEnv alignedSegment) c ∧
        t.kernel.Steady (smallEnv alignedSegment) c) t t' ∧
    t'.kernel.load 0x400010 = some 7 := by
  have result : (smallBoot alignedSegment >>= fun k₂ =>
      (Journal.start (smallEnv alignedSegment) k₂).step (smallEnv alignedSegment)
        (.call (.other .fork)) >>= fun t =>
      t.step (smallEnv alignedSegment) (.store 0x400010 7) >>= fun t₁ =>
      t₁.step (smallEnv alignedSegment) (.call (.other .yield)) >>= fun t₂ =>
      t₂.step (smallEnv alignedSegment) (.store 0x400010 9) >>= fun t₃ =>
      t₃.step (smallEnv alignedSegment) (.call (.other .yield)) >>= fun t₄ =>
      (.ok (decide (k₂.pid ≤ maxprocs ∧ span (k₂.memtab k₂.proc.pid).regions ≤
        pgRoundup (k₂.memtab k₂.proc.pid).sz), k₂.curthread, k₂.created.length, t.kernel.created,
        t₄.kernel.load 0x400010) : Except Halt _)) =
        .ok (true, 0x80001F98, 1, [0x80001F98, 0x8000CF98], some 7) := by
    decide +kernel
  obtain ⟨k₂, boot, afterBoot⟩ := bind_eq_ok.mp result
  obtain ⟨t, forked, afterFork⟩ := bind_eq_ok.mp afterBoot
  obtain ⟨t₁, stored, afterStore⟩ := bind_eq_ok.mp afterFork
  obtain ⟨t₂, yielded, afterYield⟩ := bind_eq_ok.mp afterStore
  obtain ⟨t₃, stored', afterStore'⟩ := bind_eq_ok.mp afterYield
  obtain ⟨t₄, yielded', values⟩ := bind_eq_ok.mp afterStore'
  obtain ⟨k₁, booted, scheduled⟩ := bind_eq_ok.mp boot
  simp only [Except.ok.injEq, Prod.mk.injEq, decide_eq_true_eq] at values
  obtain ⟨⟨slot, room⟩, cur, one, created, load⟩ := values
  have small : (Journal.start (smallEnv alignedSegment) k₂).kernel.Orderly (smallEnv alignedSegment)
      (.call (.other .fork)) := ⟨slot, fun _ => room⟩
  have steady : (Journal.start (smallEnv alignedSegment) k₂).kernel.Steady (smallEnv alignedSegment)
      (.call (.other .fork)) := by
    refine Journal.steady forked fun call same => ?_
    cases same
    exact Kernel.not_overruns_fork slot room
  have quiet : ∀ {s s' : Journal} {c : UserStep}, s.step (smallEnv alignedSegment) c = .ok s' →
      (c = .call (.other .yield) ∨ ∃ va byte, c = .store va byte) →
      s.kernel.Steady (smallEnv alignedSegment) c := by
    rintro s s' c done kind
    refine Journal.steady done fun call same => ?_
    rcases kind with rfl | ⟨va, byte, rfl⟩
    · cases same
      exact id
    · cases same
  refine ⟨k₂, t, t₄, boot, ⟨_, _, _, _, smallKernel_atBoot, smallKernel_tables, smallEnv_snug, booted,
    scheduled, .snoc _ .refl ⟨small, steady⟩ forked⟩, ?_, created,
    .snoc (.call (.other .yield)) (.snoc (.store 0x400010 9) (.snoc (.call (.other .yield))
      (.snoc (.store 0x400010 7) .refl ⟨trivial, quiet stored (Or.inr ⟨_, _, rfl⟩)⟩ stored)
      ⟨trivial, quiet yielded (Or.inl rfl)⟩ yielded) ⟨trivial, quiet stored' (Or.inr ⟨_, _, rfl⟩)⟩ stored')
      ⟨trivial, quiet yielded' (Or.inl rfl)⟩ yielded', load⟩
  obtain ⟨k, _, result⟩ := bind_eq_ok.mp forked
  cases result
  have event : k₂.event (smallEnv alignedSegment) k (.call (.other .fork)) =
      some (.copy 0x80001F98 0x8000CF98) := by
    have child : k.created = [0x80001F98, 0x8000CF98] := created
    rw [Kernel.event, cur, one, child]
    rfl
  exact congrArg (fun e => e.toList ++ _) event

/-- In every orderly run the processes find what the abstract machine of memories has for
them: loads by the running process give its bytes, and a store faults exactly where it has
none. -/
theorem memories_refined {init : List Block} {env : Env} {t : Journal} (reached : Reached init env t) :
    t.kernel.spaces = replay (fun _ _ => none) t.log ∧ Lawful (fun _ _ => none) t.log ∧
      ∀ va, t.kernel.load va = replay (fun _ _ => none) t.log t.kernel.curthread va ∧
        ∀ byte, (∃ k, t.kernel.userStep env (.store va byte) = .ok k) ↔
          replay (fun _ _ => none) t.log t.kernel.curthread va ≠ none := by
  have faithful := reached.faithful
  have load := faithful.keeps.load_eq
  rw [faithful.spaces] at load
  refine ⟨faithful.spaces, faithful.lawful, fun va => ⟨load va, fun byte => ?_⟩⟩
  rw [Kernel.userStep_store, load]

/-- After both processes have stored at one address the first one loads what it stored. -/
theorem memories_refined_fork : ∃ t : Journal, t.kernel.load 0x400010 = some 7 ∧
    t.kernel.spaces = replay (fun _ _ => none) t.log ∧ Lawful (fun _ _ => none) t.log ∧
      ∀ va, t.kernel.load va = replay (fun _ _ => none) t.log t.kernel.curthread va ∧
        ∀ byte, (∃ k, t.kernel.userStep (smallEnv alignedSegment) (.store va byte) = .ok k) ↔
          replay (fun _ _ => none) t.log t.kernel.curthread va ≠ none := by
  obtain ⟨_, _, t, _, reached, _, _, run, load⟩ := smallRun
  exact ⟨t, load, memories_refined (reached.more run)⟩

/-- Two processes of any two runs, on any two machines, with the same deeds back to the
programs they began with find the same bytes. -/
theorem memory_of_deeds {init init' : List Block} {env env' : Env} {t t' : Journal} {p p' : Nat}
    (reached : Reached init env t) (reached' : Reached init' env' t')
    (same : deeds p t.log = deeds p' t'.log) : t.kernel.spaces p = t'.kernel.spaces p' := by
  rw [reached.faithful.spaces, reached'.faithful.spaces]
  exact replay_eq_of_deeds same

/-- After a fork the child finds what its parent finds. -/
theorem memory_of_deeds_fork : ∃ t : Journal, Reached smallFree (smallEnv alignedSegment) t ∧
    t.kernel.created = [0x80001F98, 0x8000CF98] ∧
      t.kernel.spaces 0x8000CF98 = t.kernel.spaces 0x80001F98 := by
  obtain ⟨_, t, _, _, reached, log, created, _⟩ := smallRun
  refine ⟨t, reached, created, memory_of_deeds reached reached ?_⟩
  rw [log, deeds, deeds, if_pos rfl, if_neg (by decide)]

/-- Behind an address of a process is memory that was handed out and is neither free, nor a
page table, nor a kernel stack, nor behind any other address of any process. -/
theorem frames_apart {init : List Block} {env : Env} {t : Journal} (reached : Reached init env t) :
    ∀ p ∈ t.kernel.created, ∀ va < 0x80000000, ∀ pa,
      walk t.kernel.store.mem (t.kernel.dir p) va = some pa →
        p2v pa ∈ t.kernel.store.taken ∧ Outside t.kernel.store.free (p2v pa) ∧
          (∀ q ∈ t.kernel.created, p2v pa ∉ t.kernel.tables q ∧ p2v pa ∉ page (q - 3992)) ∧
            ∀ q ∈ t.kernel.created, ∀ vb < 0x80000000, ∀ pb,
              walk t.kernel.store.mem (t.kernel.dir q) vb = some pb → p2v pb = p2v pa → p = q ∧ va = vb := by
  obtain ⟨⟨⟨root, Q, scheduled⟩, _, settled, _, stack⟩, _, _⟩ := reached.faithful
  intro p memP va low pa leads
  obtain ⟨m, listed, within, kernel, inPlace⟩ := settled.hit memP low leads
  have inFootprint : p2v pa ∈ t.kernel.footprint p := Or.inr ⟨m, listed, inPlace⟩
  have taken := settled.apart.inside p memP inFootprint
  refine ⟨taken, ?_, fun q memQ => ⟨fun inTables => ?_, fun inStack => ?_⟩,
    fun q memQ vb lowB pb leadsB same => ?_⟩
  · obtain ⟨b, given, inside⟩ := taken
    exact scheduled.sound.given_not_free given inside
  · by_cases here : p = q
    · subst here
      exact (settled.housed p memP).clear m listed _ inTables inPlace
    · exact Set.disjoint_left.mp (settled.apart.apart memP memQ here) inFootprint (Or.inl inTables)
  · exact Set.disjoint_left.mp (stack q memQ p memP) inFootprint inStack
  · obtain ⟨m', listed', within', kernel', inPlace'⟩ := settled.hit memQ lowB leadsB
    by_cases here : p = q
    · subst here
      refine ⟨rfl, (settled.housed p memP).behind_inj listed listed' within within' ?_⟩
      rw [← kernel, ← kernel', same]
    · rw [same] at inPlace'
      exact absurd (Or.inr ⟨m', listed', inPlace'⟩)
        (Set.disjoint_left.mp (settled.apart.apart memP memQ here) inFootprint)

/-- The first process and its child after their stores. -/
theorem frames_apart_fork : ∃ t, Reached smallFree (smallEnv alignedSegment) t ∧
    t.kernel.load 0x400010 = some 7 ∧ ∀ p ∈ t.kernel.created, ∀ va < 0x80000000, ∀ pa,
      walk t.kernel.store.mem (t.kernel.dir p) va = some pa →
        p2v pa ∈ t.kernel.store.taken ∧ Outside t.kernel.store.free (p2v pa) ∧
          (∀ q ∈ t.kernel.created, p2v pa ∉ t.kernel.tables q ∧ p2v pa ∉ page (q - 3992)) ∧
            ∀ q ∈ t.kernel.created, ∀ vb < 0x80000000, ∀ pb,
              walk t.kernel.store.mem (t.kernel.dir q) vb = some pb → p2v pb = p2v pa → p = q ∧ va = vb := by
  obtain ⟨_, _, t, _, reached, _, _, run, load⟩ := smallRun
  exact ⟨t, reached.more run, load, frames_apart (reached.more run)⟩

/-! ## The memory of the kernel -/

/-- A byte of the kernel: it is not in the memory that `alloc_pages` manages, or it was
handed out and no process has it. -/
def Kernel.Own (init : List Block) (k : Kernel) (x : Nat) : Prop :=
  Outside init x ∨ (x ∈ k.store.taken ∧ ∀ p ∈ k.created, x ∉ k.footprint p)

theorem Kernel.Moved.own {init : List Block} {k k' : Kernel} {e : Option (MemoryEvent Nat Nat UInt8)}
    {x : Nat} (moved : k.Moved k' e) (cur : k.curthread ∈ k.created) (settled : k.Settled)
    (sound : k.store.Sound init) (sound' : k'.store.Sound init) (own : k.Own init x) :
    k'.Own init x ∧ k'.store.mem x = k.store.mem x := by
  have untaken : Outside init x → ∀ {s : Store}, s.Sound init → x ∉ s.taken := by
    rintro outside s sound ⟨b, given, inside⟩
    exact sound.outside outside b given inside
  have notNew : x ∉ k.store.newBytes k'.store := by
    intro new
    obtain ⟨taken, fresh⟩ := sound'.newBytes_not_taken moved.given x new
    rcases own with outside | ⟨old, _⟩
    · exact untaken outside sound' taken
    · exact fresh old
  have nobody : ∀ p ∈ k.created, x ∉ k.footprint p := by
    intro p mem inside
    rcases own with outside | ⟨_, none⟩
    · exact untaken outside sound (settled.apart.inside p mem inside)
    · exact none p mem inside
  refine ⟨own.imp_right fun ⟨old, _⟩ => ⟨Store.taken_mono moved.given old, fun p mem inside => ?_⟩,
    moved.frame x fun written => written.elim (nobody _ cur) notNew⟩
  exact (moved.grew p mem x inside).elim (fun both => nobody p both.1 both.2) notNew

theorem Journal.Faithful.own_kept {init : List Block} {env : Env} {t t' : Journal} {x : Nat}
    (faithful : t.Faithful init) (own : t.kernel.Own init x)
    (run : Runs (Journal.step env) (fun t c => t.kernel.Orderly env c) t t') :
    t'.kernel.store.mem x = t.kernel.store.mem x := by
  have kept := run.invariant
    (fun s => s.Faithful init ∧ s.kernel.Own init x ∧ s.kernel.store.mem x = t.kernel.store.mem x)
    ⟨faithful, own, rfl⟩ fun s c s' inv ok done => by
      obtain ⟨faithful, own, same⟩ := inv
      obtain ⟨moved, faithful'⟩ := faithful.step ok done
      obtain ⟨root, Q, scheduled⟩ := faithful.keeps.sched
      obtain ⟨root', Q', scheduled'⟩ := faithful'.keeps.sched
      obtain ⟨own', kept⟩ := moved.own faithful.keeps.cur faithful.keeps.settled scheduled.sound
        scheduled'.sound own
      exact ⟨faithful', own', kept.trans same⟩
  exact kept.2.2

/-- Whatever the processes do, no step writes a byte of the kernel: its image, its stacks,
its heap and the kernel stacks of the processes stay out of reach. -/
theorem kernel_memory_kept {init : List Block} {env : Env} {t t' : Journal} (reached : Reached init env t)
    (run : Runs (Journal.step env) (fun t c => t.kernel.Orderly env c ∧ t.kernel.Steady env c) t t') :
    ∀ x, (t.kernel.Own init x ∨ ∃ p ∈ t.kernel.created, x ∈ page (p - 3992)) →
      t'.kernel.store.mem x = t.kernel.store.mem x := by
  have faithful := reached.faithful
  obtain ⟨root, Q, scheduled⟩ := faithful.keeps.sched
  intro x kernel
  have own : t.kernel.Own init x := by
    rcases kernel with own | ⟨p, mem, inStack⟩
    · exact own
    · obtain ⟨kstack, rfl, given⟩ := scheduled.homes p (List.mem_cons_of_mem _ mem)
      refine Or.inr ⟨⟨_, given, ?_⟩, fun q memQ inside => ?_⟩
      · rw [Nat.add_sub_cancel] at inStack
        exact inStack
      · exact Set.disjoint_left.mp (faithful.keeps.stack _ mem q memQ) inside inStack
  exact faithful.own_kept own (run.mono fun _ _ ok => ok.1)

/-- The stores of the first process and its child leave their kernel stacks alone. -/
theorem kernel_memory_kept_fork : ∃ t t' : Journal, t.kernel.created = [0x80001F98, 0x8000CF98] ∧
    t'.kernel.load 0x400010 = some 7 ∧
      ∀ x, (t.kernel.Own smallFree x ∨ ∃ p ∈ t.kernel.created, x ∈ page (p - 3992)) →
        t'.kernel.store.mem x = t.kernel.store.mem x := by
  obtain ⟨_, t, t', _, reached, _, created, run, load⟩ := smallRun
  exact ⟨t, t', created, load, kernel_memory_kept reached run⟩

end Trunix
