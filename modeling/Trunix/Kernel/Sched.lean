import Trunix.Kernel.Astray
import Trunix.Kernel.Boot
import Trunix.Kernel.Mmap

/-!
# The scheduler

The run queue of `kernel/proc.c` over whole runs of the machine.  The queue and the
running process together hold every process exactly once; all but the running one are
ready or dead, and the first process never dies, so the scheduler always finds one to
run.
-/

set_option autoImplicit false

namespace Trunix

open Trunix.Lib

/-! ## One round of the scheduler -/

theorem Kernel.holds_of_entries {k k' : Kernel} {Q : List Nat} (holds : k.queue.Holds Q)
    (first : k'.tqhFirst = k.tqhFirst) (last : k'.tqhLast = k.tqhLast)
    (entries : ∀ p ∈ Q, (k'.procs p).entries = (k.procs p).entries) : k'.queue.Holds Q :=
  ⟨holds.nodup, holds.chain.congr Q .head first entries last⟩

structure Switched (k k' : Kernel) (p : Nat) : Prop where
  same : k' = { k with
    procs := k'.procs, tqhFirst := k'.tqhFirst, tqhLast := k'.tqhLast, curthread := p
    dispatched := p, cr3 := k'.cr3, esp0 := p }
  procs : ∀ x, k'.procs x = { k.procs x with
    state := if x = p then .running else (k.procs x).state, entries := (k'.procs x).entries }

theorem scheduler_spec {k : Kernel} {Q : List Nat} (holds : k.queue.Holds Q)
    (short : Q.length < queueLimit) (ready : ∃ p ∈ Q, (k.procs p).state = .ready) :
    ∃ p k', scheduler k = .ok k' ∧ (Q.find? fun p => (k.procs p).state = .ready) = some p ∧
      k'.queue.Holds (Q.erase p) ∧ Switched k k' p := by
  have walk : k.queue.search (fun p => (k.procs p).state = .ready) queueLimit k.tqhFirst =
      some (Q.find? fun p => (k.procs p).state = .ready) :=
    Tailq.search_chain _ Q .head queueLimit holds.chain short
  obtain ⟨p, found⟩ : ∃ p, (Q.find? fun p => (k.procs p).state = .ready) = some p := by
    obtain ⟨p, mem, isReady⟩ := ready
    exact Option.isSome_iff_exists.mp (List.find?_isSome.mpr ⟨p, mem, by simpa using isReady⟩)
  obtain ⟨q, removed, holds'⟩ := holds.remove (List.mem_of_find?_eq_some found)
  have sameQueue : Kernel.queue { k with curthread := p } = k.queue := rfl
  let k₁ := Kernel.setQueue { k with curthread := p } q
  let k₂ := k₁.setProc p { k₁.procs p with state := .running }
  refine ⟨p, { k₂ with cr3 := (k₂.procs p).cr3, esp0 := p, dispatched := p }, ?_, found, ?_, ?_⟩
  · rw [scheduler, walk, found]
    simp only [sameQueue, removed, Kernel.editQueue, ok_bind]
    rfl
  · refine Kernel.holds_of_entries (k := k.setQueue q) holds' ?_ ?_ fun x _ => ?_
    · rfl
    · rfl
    by_cases here : x = p
    · subst here
      simp [k₂, k₁, Kernel.setProc, Kernel.setQueue]
    · simp [k₂, k₁, Kernel.setProc, Kernel.setQueue, here]
  · refine ⟨rfl, fun x => ?_⟩
    by_cases here : x = p
    · subst here
      simp [k₂, k₁, Kernel.setProc, Kernel.setQueue]
    · simp [k₂, k₁, Kernel.setProc, Kernel.setQueue, here]

def Kernel.parked (k : Kernel) (x : Nat) : PState :=
  if x = k.curthread ∧ (k.procs x).state = .running then .ready else (k.procs x).state

theorem Kernel.parked_dead {k : Kernel} {p : Nat} (dead : (k.procs p).state = .dead) :
    k.parked p = .dead := by
  rw [Kernel.parked, dead, if_neg (fun both => PState.noConfusion both.2)]

structure Yielded (k k' : Kernel) (p : Nat) : Prop where
  same : k' = { k with
    procs := k'.procs, tqhFirst := k'.tqhFirst, tqhLast := k'.tqhLast, curthread := p
    dispatched := p, cr3 := k'.cr3, esp0 := p }
  procs : ∀ x, k'.procs x = { k.procs x with
    state := if x = p then .running else k.parked x, entries := (k'.procs x).entries }

theorem yield_spec {k : Kernel} {Q : List Nat} (holds : k.queue.Holds Q)
    (current : k.dispatched = k.curthread) (fresh : k.curthread ∉ Q) (nonnull : k.curthread ≠ 0)
    (short : Q.length + 1 < queueLimit) (ready : ∃ p ∈ Q ++ [k.curthread], k.parked p = .ready) :
    ∃ p k', yield k = .ok k' ∧ ((Q ++ [k.curthread]).find? fun p => k.parked p = .ready) = some p ∧
      k'.queue.Holds ((Q ++ [k.curthread]).erase p) ∧ Yielded k k' p := by
  let k₁ := if k.proc.state = .running then k.setProc k.curthread { k.proc with state := .ready } else k
  have procs₁ : ∀ x, k₁.procs x = { k.procs x with state := k.parked x } := by
    intro x
    by_cases here : x = k.curthread
    · subst here
      by_cases running : (k.procs k.curthread).state = .running
      · simp [k₁, Kernel.proc, Kernel.parked, running, Kernel.setProc]
      · simp [k₁, Kernel.proc, Kernel.parked, running]
    · by_cases running : k.proc.state = .running
      · simp [k₁, running, Kernel.parked, here, Kernel.setProc]
      · simp [k₁, running, Kernel.parked, here]
  have same₁ : k₁ = { k with procs := k₁.procs } := by
    by_cases running : k.proc.state = .running
    · simp [k₁, running, Kernel.setProc]
    · simp [k₁, running]
  have holds₁ : k₁.queue.Holds Q := by
    apply Kernel.holds_of_entries holds
    · rw [same₁]
    · rw [same₁]
    · intro p _
      rw [procs₁]
  obtain ⟨q, inserted, holds₂⟩ := holds₁.insertTail fresh nonnull
  have queued : enqueue k₁ k₁.dispatched = .ok (k₁.setQueue q) := by
    have who : k₁.dispatched = k.curthread := by
      rw [same₁]
      exact current
    rw [enqueue, who, inserted]
    rfl
  have procs₂ : ∀ x, (k₁.setQueue q).procs x =
      { k.procs x with state := k.parked x, entries := q.entry x } := by
    intro x
    simp only [Kernel.setQueue, procs₁]
  obtain ⟨p, k', done, first, holds₃, switched⟩ := scheduler_spec
    (k := k₁.setQueue q) (Q := Q ++ [k.curthread]) holds₂ (by simpa using short) (by
      obtain ⟨p, mem, isReady⟩ := ready
      exact ⟨p, mem, by rw [procs₂]; exact isReady⟩)
  have first' : ((Q ++ [k.curthread]).find? fun p => k.parked p = .ready) = some p := by
    simp only [procs₂] at first
    exact first
  refine ⟨p, k', ?_, first', holds₃, ⟨?_, fun x => ?_⟩⟩
  · rw [yield]
    simp only [k₁] at queued
    rw [queued]
    exact done
  · have same := switched.same
    simp only [Kernel.setQueue] at same
    rw [same₁] at same
    exact same
  · have same := switched.procs x
    rw [procs₂] at same
    exact same

/-! ## The invariant -/

/-- The processes while one of them may be about to let go of the processor.  `root` is
the first process and `Q` the run queue. -/
structure Queued (init : List Block) (root : Nat) (Q : List Nat) (k : Kernel) : Prop where
  sound : k.store.Sound init
  queue : k.queue.Holds Q
  all : (k.curthread :: Q).Perm k.created
  active : k.proc.state = .running ∨ k.proc.state = .dead
  current : k.dispatched = k.curthread
  waiting : ∀ p ∈ Q, (k.procs p).state = .ready ∨ (k.procs p).state = .dead
  homes : ∀ p ∈ k.idle :: k.created, k.Home p
  nodup : (k.idle :: k.created).Nodup
  idle : (k.procs k.idle).state = .ready
  first : root ∈ k.created ∧ (k.procs root).pid = 1 ∧ (k.procs root).state ≠ .dead

/-- The processes while one of them runs. -/
structure Scheduled (init : List Block) (root : Nat) (Q : List Nat) (k : Kernel) : Prop
    extends Queued init root Q k where
  running : k.proc.state = .running

def StayDead (k k' : Kernel) : Prop :=
  ∀ p ∈ k.created, p ∈ k'.created ∧ ((k.procs p).state = .dead → (k'.procs p).state = .dead)

theorem StayDead.refl (k : Kernel) : StayDead k k := fun _ mem => ⟨mem, fun dead => dead⟩

theorem StayDead.trans {k₁ k₂ k₃ : Kernel} (h : StayDead k₁ k₂) (h' : StayDead k₂ k₃) :
    StayDead k₁ k₃ := by
  intro p mem
  obtain ⟨mem₂, dead₂⟩ := h p mem
  obtain ⟨mem₃, dead₃⟩ := h' p mem₂
  exact ⟨mem₃, fun dead => dead₃ (dead₂ dead)⟩

section Queued

variable {init : List Block} {root : Nat} {Q : List Nat} {k : Kernel} (h : Queued init root Q k)

include h

theorem Queued.mem_created : k.curthread ∈ k.created := h.all.mem_iff.mp List.mem_cons_self

theorem Queued.waiting_created {p : Nat} (mem : p ∈ Q) : p ∈ k.created :=
  h.all.mem_iff.mp (List.mem_cons_of_mem _ mem)

theorem Queued.address {p : Nat} (mem : p ∈ k.idle :: k.created) : p ≠ 0 ∧ p < 0x100000000 := by
  obtain ⟨kstack, place, given⟩ := h.homes p mem
  have paged := h.sound.paged given
  simp only at paged
  omega

theorem Queued.not_waiting : k.curthread ∉ Q :=
  (List.nodup_cons.mp (h.all.nodup_iff.mpr (List.nodup_cons.mp h.nodup).2)).1

theorem Queued.short : Q.length + 1 < queueLimit := by
  have sub : k.idle :: k.created ⊆ List.range 0x100000000 := by
    intro p mem
    exact List.mem_range.mpr (h.address mem).2
  have le := (List.subperm_of_subset h.nodup sub).length_le
  have same := h.all.length_eq
  simp only [List.length_cons, List.length_range] at le same
  have limit : queueLimit = 0x100000000 := rfl
  omega

/-- Some process is ready once the running one has let go: the first one is not dead. -/
theorem Queued.ready : ∃ p ∈ Q ++ [k.curthread], k.parked p = .ready := by
  obtain ⟨member, _, alive⟩ := h.first
  refine ⟨root, ?_, ?_⟩
  · rcases List.mem_cons.mp (h.all.mem_iff.mpr member) with here | there
    · simp [here]
    · simp [there]
  · rcases List.mem_cons.mp (h.all.mem_iff.mpr member) with here | there
    · rcases h.active with running | dead
      · rw [Kernel.parked, if_pos ⟨here, by rw [here]; exact running⟩]
      · rw [here] at alive
        exact absurd dead alive
    · have ready := (h.waiting root there).resolve_right alive
      have notCur : ¬ (root = k.curthread ∧ (k.procs root).state = .running) := by
        rw [ready]
        exact fun both => PState.noConfusion both.2
      rw [Kernel.parked, if_neg notCur, ready]

/-- A waiting process is ready or dead whether or not it was the running one. -/
theorem Queued.parked_cases {p : Nat} (mem : p ∈ Q ++ [k.curthread]) :
    k.parked p = .ready ∨ k.parked p = .dead := by
  rcases List.mem_append.mp mem with waits | runs
  · have notCur : p ≠ k.curthread := fun same => h.not_waiting (same ▸ waits)
    rw [Kernel.parked, if_neg (fun both => notCur both.1)]
    exact h.waiting p waits
  · rw [List.mem_singleton.mp runs, Kernel.parked]
    rcases h.active with running | dead
    · exact Or.inl (if_pos ⟨rfl, running⟩)
    · have dead' : (k.procs k.curthread).state = .dead := dead
      right
      rw [dead', if_neg (fun both => PState.noConfusion both.2)]

end Queued

/-- Letting go of the processor always leads to the first process that is ready. -/
theorem Queued.next {init : List Block} {root : Nat} {Q : List Nat} {k : Kernel}
    (h : Queued init root Q k) :
    ∃ p k', Trunix.yield k = .ok k' ∧
      ((Q ++ [k.curthread]).find? fun x => k.parked x = .ready) = some p ∧ Yielded k k' p ∧
      Scheduled init root ((Q ++ [k.curthread]).erase p) k' ∧ StayDead k k' := by
  have nonnull := (h.address (List.mem_cons_of_mem _ h.mem_created)).1
  obtain ⟨p, k', done, first, holds, yielded⟩ := yield_spec h.queue h.current h.not_waiting
    nonnull h.short h.ready
  have member := List.mem_of_find?_eq_some first
  have isReady : k.parked p = .ready := by
    simpa using List.find?_some first
  have same := yielded.same
  have perm : (p :: (Q ++ [k.curthread]).erase p).Perm (k.curthread :: Q) :=
    (List.perm_cons_erase member).symm.trans List.perm_append_comm
  have memCreated : p ∈ k.created := h.all.mem_iff.mp (perm.mem_iff.mp List.mem_cons_self)
  have created : k'.created = k.created := by rw [same]
  have current : k'.curthread = p := by rw [same]
  have idle : k'.idle = k.idle := by rw [same]
  have store : k'.store = k.store := by rw [same]
  have notIdle : k.idle ≠ p := fun here =>
    (List.nodup_cons.mp h.nodup).1 (here ▸ memCreated)
  have stateOf : ∀ x, x ≠ p → (k'.procs x).state = k.parked x := by
    intro x ne
    rw [yielded.procs, if_neg ne]
  have running : (k'.procs p).state = .running := by
    rw [yielded.procs, if_pos rfl]
  refine ⟨p, k', done, first, yielded, ⟨⟨?_, holds, ?_, ?_, ?_, ?_, ?_, ?_, ?_, ?_⟩, ?_⟩, ?_⟩
  · rw [store]
    exact h.sound
  · rw [current, created]
    exact perm.trans h.all
  · rw [Kernel.proc, current]
    exact Or.inl running
  · rw [same]
  · intro x waits
    have ne : x ≠ p := by
      intro here
      exact (List.nodup_cons.mp (perm.nodup_iff.mpr
        (h.all.nodup_iff.mpr (List.nodup_cons.mp h.nodup).2))).1 (here ▸ waits)
    rw [stateOf x ne]
    exact h.parked_cases (List.mem_of_mem_erase waits)
  · intro x mem
    rw [created, idle] at mem
    obtain ⟨kstack, place, given⟩ := h.homes x mem
    exact ⟨kstack, place, store ▸ given⟩
  · rw [created, idle]
    exact h.nodup
  · rw [idle, stateOf _ notIdle, Kernel.parked, h.idle, if_neg (fun both => PState.noConfusion both.2)]
  · obtain ⟨member, number, alive⟩ := h.first
    refine ⟨created ▸ member, by rw [yielded.procs]; exact number, ?_⟩
    by_cases here : root = p
    · rw [here, running]
      intro dead
      cases dead
    · rw [stateOf root here, Kernel.parked]
      split
      · intro dead
        cases dead
      · exact alive
  · rw [Kernel.proc, current]
    exact running
  · intro x mem
    refine ⟨created ▸ mem, fun dead => ?_⟩
    have ne : x ≠ p := by
      intro here
      have parkedDead := Kernel.parked_dead dead
      rw [here, isReady] at parkedDead
      cases parkedDead
    rw [stateOf x ne]
    exact Kernel.parked_dead dead

theorem Queued.yields {init : List Block} {root : Nat} {Q : List Nat} {k : Kernel}
    (h : Queued init root Q k) :
    ∃ p k' Q', Trunix.yield k = .ok k' ∧ Yielded k k' p ∧ Scheduled init root Q' k' ∧
      StayDead k k' := by
  obtain ⟨p, k', done, _, yielded, scheduled, dead⟩ := h.next
  exact ⟨p, k', _, done, yielded, scheduled, dead⟩

/-! ## Calls that keep the processor -/

/-- A change of the kernel that the scheduler does not see. -/
structure Quiet (init : List Block) (k k' : Kernel) : Prop where
  grows : k.store.Grows init k'.store
  procs : ∀ p ∈ k.idle :: k.created, (k'.procs p).state = (k.procs p).state ∧
    (k'.procs p).entries = (k.procs p).entries ∧ (k'.procs p).pid = (k.procs p).pid
  tqhFirst : k'.tqhFirst = k.tqhFirst
  tqhLast : k'.tqhLast = k.tqhLast
  curthread : k'.curthread = k.curthread
  idle : k'.idle = k.idle
  dispatched : k'.dispatched = k.dispatched
  created : k'.created = k.created

theorem Queued.quiet {init : List Block} {root : Nat} {Q : List Nat} {k k' : Kernel}
    (h : Queued init root Q k) (q : Quiet init k k') : Queued init root Q k' := by
  have proc : k'.proc.state = k.proc.state := by
    rw [Kernel.proc, q.curthread]
    exact (q.procs _ (List.mem_cons_of_mem _ h.mem_created)).1
  refine ⟨q.grows.sound, ?_, ?_, ?_, ?_, ?_, ?_, ?_, ?_, ?_⟩
  · exact Kernel.holds_of_entries h.queue q.tqhFirst q.tqhLast fun p mem =>
      (q.procs p (List.mem_cons_of_mem _ (h.waiting_created mem))).2.1
  · rw [q.curthread, q.created]
    exact h.all
  · rw [proc]
    exact h.active
  · rw [q.dispatched, q.curthread]
    exact h.current
  · intro p mem
    rw [(q.procs p (List.mem_cons_of_mem _ (h.waiting_created mem))).1]
    exact h.waiting p mem
  · intro p mem
    rw [q.idle, q.created] at mem
    obtain ⟨kstack, place, given⟩ := h.homes p mem
    exact ⟨kstack, place, q.grows.given _ given⟩
  · rw [q.idle, q.created]
    exact h.nodup
  · rw [q.idle, (q.procs _ List.mem_cons_self).1]
    exact h.idle
  · obtain ⟨member, number, alive⟩ := h.first
    obtain ⟨state, _, pid⟩ := q.procs root (List.mem_cons_of_mem _ member)
    exact ⟨q.created ▸ member, pid.trans number, state ▸ alive⟩

theorem Scheduled.quiet {init : List Block} {root : Nat} {Q : List Nat} {k k' : Kernel}
    (h : Scheduled init root Q k) (q : Quiet init k k') :
    Scheduled init root Q k' ∧ StayDead k k' := by
  refine ⟨⟨h.toQueued.quiet q, ?_⟩, fun p mem => ⟨q.created ▸ mem, fun dead => ?_⟩⟩
  · rw [Kernel.proc, q.curthread]
    exact (q.procs _ (List.mem_cons_of_mem _ h.mem_created)).1.trans h.running
  · exact (q.procs p (List.mem_cons_of_mem _ mem)).1.trans dead

theorem sysMmap_quiet {init : List Block} {env : Env} {k : Kernel} {len flags fd : Nat}
    {r : Nat × Kernel} (sound : k.store.Sound init) (done : sysMmap env k len flags fd = .ok r) :
    Quiet init k r.2 := by
  rcases sysMmap_cases done with ⟨_, rfl⟩ | ⟨_, mapped⟩
  · exact ⟨.refl sound, fun _ _ => ⟨rfl, rfl, rfl⟩, rfl, rfl, rfl, rfl, rfl, rfl⟩
  · have grows := mapped.grows sound
    cases mapped with
    | refused => exact ⟨grows, fun _ _ => ⟨rfl, rfl, rfl⟩, rfl, rfl, rfl, rfl, rfl, rfl⟩
    | unopened => exact ⟨grows, fun _ _ => ⟨rfl, rfl, rfl⟩, rfl, rfl, rfl, rfl, rfl, rfl⟩
    | region =>
        refine ⟨grows, fun p _ => ?_, rfl, rfl, rfl, rfl, rfl, rfl⟩
        by_cases here : p = k.curthread
        · subst here
          simp [Kernel.proc]
        · simp [here]

theorem loadelf_quiet {init : List Block} {env : Env} {k k' : Kernel} {p : Proc} {path : List UInt8}
    {r : Option Proc} (sound : k.store.Sound init) (done : loadelf env k p path = .ok (r, k')) :
    Quiet init k k' ∧ k'.procs = k.procs ∧ ∀ p', r = some p' →
      p'.state = p.state ∧ p'.entries = p.entries ∧ p'.pid = p.pid := by
  rcases loadelf_cases done with ⟨rfl, _, s, refused, rfl⟩ |
    ⟨bin, cr3, entry, base, sz, regions, s, file, loaded, rfl, rfl⟩
  · have grown : k.store.Grows init s := by
      rcases refused with ⟨_, rfl⟩ | ⟨_, pd, _, copied⟩
      · exact .refl sound
      · exact (copykvm_grows sound _).of_ok copied
    exact ⟨⟨grown, fun _ _ => ⟨rfl, rfl, rfl⟩, rfl, rfl, rfl, rfl, rfl, rfl⟩, rfl, nofun⟩
  · have grown := (loadImage_grows sound env.kpagedir env.initrd.bytes bin).of_ok loaded
    refine ⟨⟨grown, fun _ _ => ⟨rfl, rfl, rfl⟩, rfl, rfl, rfl, rfl, rfl, rfl⟩, rfl, ?_⟩
    intro p' some
    cases some
    exact ⟨rfl, rfl, rfl⟩

/-! ## The calls -/

theorem Scheduled.reloaded {init : List Block} {root : Nat} {Q : List Nat} {env : Env} {k k' : Kernel}
    {p : Proc} {path : List UInt8} (h : Scheduled init root Q k)
    (done : loadelf env k k.proc path = .ok (some p, k')) :
    Quiet init k (k'.setProc k'.curthread p) := by
  obtain ⟨quiet, procs, kept⟩ := loadelf_quiet h.sound done
  obtain ⟨state, entries, pid⟩ := kept p rfl
  refine ⟨quiet.grows, fun x mem => ?_, quiet.tqhFirst, quiet.tqhLast, quiet.curthread, quiet.idle,
    quiet.dispatched, quiet.created⟩
  by_cases here : x = k.curthread
  · rw [here]
    simp only [Kernel.setProc, quiet.curthread, Function.update_self]
    exact ⟨state, entries, pid⟩
  · simp only [Kernel.setProc, quiet.curthread, Function.update_of_ne here]
    exact quiet.procs x mem

theorem Scheduled.execve {init : List Block} {root : Nat} {Q : List Nat} {env : Env} {k : Kernel}
    (h : Scheduled init root Q k) (path : List UInt8) :
    Returns Halt.InCall (fun k' => ∃ Q', Scheduled init root Q' k' ∧ StayDead k k')
      (sysExecve env k path) := by
  have stops : Returns Halt.InCall (fun _ => True) (loadelf env k k.proc path) := by
    rw [loadelf, loadelfWith]
    refine (loadFile_grows h.sound _ _ _).bind fun r _ => ?_
    obtain ⟨result, s⟩ := r
    cases result <;> trivial
  rw [sysExecve]
  refine (stops.intro fun r done => done).bind fun r done => ?_
  obtain ⟨loaded, k₁⟩ := r
  cases loaded with
  | none =>
      obtain ⟨scheduled, dead⟩ := h.quiet (loadelf_quiet h.sound done).1
      exact ⟨Q, scheduled, dead⟩
  | some p =>
      obtain ⟨scheduled, dead⟩ := h.quiet (h.reloaded done)
      obtain ⟨p', k', Q', yielded, _, scheduled', dead'⟩ := scheduled.toQueued.yields
      have result : Returns Halt.InCall (fun k' => ∃ Q', Scheduled init root Q' k' ∧ StayDead k k')
          (Trunix.yield (k₁.setProc k₁.curthread p)) := by
        rw [yielded]
        exact ⟨Q', scheduled', dead.trans dead'⟩
      exact result

theorem Scheduled.killed {init : List Block} {root : Nat} {Q : List Nat} {k : Kernel}
    (h : Scheduled init root Q k) (notFirst : k.proc.pid ≠ 1) :
    Queued init root Q (k.setProc k.curthread { k.proc with state := .dead }) := by
  have others : ∀ p, p ≠ k.curthread →
      (k.setProc k.curthread { k.proc with state := .dead }).procs p = k.procs p := by
    intro p ne
    simp [Kernel.setProc, ne]
  have self : (k.setProc k.curthread { k.proc with state := .dead }).procs k.curthread =
      { k.proc with state := .dead } := by
    simp [Kernel.setProc]
  refine ⟨h.sound, Kernel.holds_of_entries h.queue rfl rfl fun p _ => ?_, h.all, ?_, h.current,
    fun p mem => ?_, h.homes, h.nodup, ?_, ?_⟩
  · by_cases here : p = k.curthread
    · rw [here, self]
      rfl
    · rw [others p here]
  · right
    exact congrArg Proc.state self
  · have ne : p ≠ k.curthread := fun same => h.not_waiting (same ▸ mem)
    rw [others p ne]
    exact h.waiting p mem
  · have ne : k.idle ≠ k.curthread := fun same =>
      (List.nodup_cons.mp h.nodup).1 (same ▸ h.mem_created)
    exact (congrArg Proc.state (others _ ne)).trans h.idle
  · obtain ⟨member, number, alive⟩ := h.first
    have ne : root ≠ k.curthread := by
      intro same
      rw [same] at number
      exact notFirst number
    exact ⟨member, by rw [others root ne]; exact number, by rw [others root ne]; exact alive⟩

theorem Scheduled.exit {init : List Block} {root : Nat} {Q : List Nat} {k : Kernel}
    (h : Scheduled init root Q k) (notFirst : k.proc.pid ≠ 1) :
    ∃ k' Q', sysExit k = .ok k' ∧ Scheduled init root Q' k' ∧ StayDead k k' := by
  obtain ⟨p, k', Q', done, _, scheduled, dead⟩ := (h.killed notFirst).yields
  refine ⟨k', Q', ?_, scheduled, fun x mem => ⟨(dead x mem).1, fun isDead => (dead x mem).2 ?_⟩⟩
  · rw [sysExit, if_neg notFirst]
    exact done
  · by_cases here : x = k.curthread
    · subst here
      simp [Kernel.setProc]
    · simp only [Kernel.setProc, Function.update_of_ne here]
      exact isDead

theorem Scheduled.enqueue {init : List Block} {root n : Nat} {Q : List Nat} {k : Kernel} {q : Tailq}
    (h : Scheduled init root Q k) (fresh : n ∉ k.idle :: k.created) (home : k.Home n)
    (ready : (k.procs n).state = .ready) (inserted : k.queue.insertTail n = some q) :
    Scheduled init root (Q ++ [n]) { k.setQueue q with created := k.created ++ [n] } ∧
      StayDead k { k.setQueue q with created := k.created ++ [n] } := by
  have notQueued : n ∉ Q := fun mem => fresh (List.mem_cons_of_mem _ (h.waiting_created mem))
  have nonnull : n ≠ 0 := by
    obtain ⟨kstack, place, given⟩ := home
    omega
  obtain ⟨q', inserted', holds⟩ := h.queue.insertTail notQueued nonnull
  rw [inserted] at inserted'
  cases inserted'
  refine ⟨⟨⟨h.sound, holds, ?_, h.active, h.current, fun p mem => ?_, fun p mem => ?_, ?_, h.idle, ?_⟩,
    h.running⟩, fun p mem => ⟨List.mem_append_left _ mem, fun dead => dead⟩⟩
  · exact h.all.append_right [n]
  · rcases List.mem_append.mp mem with waits | new
    · exact h.waiting p waits
    · left
      rw [List.mem_singleton.mp new]
      exact ready
  · rw [← List.cons_append] at mem
    rcases List.mem_append.mp mem with old | new
    · exact h.homes p old
    · rw [List.mem_singleton.mp new]
      exact home
  · rw [← List.cons_append]
    exact List.nodup_append.mpr ⟨h.nodup, List.nodup_singleton n, fun a old b new => by
      rw [List.mem_singleton.mp new]
      exact fun same => fresh (same ▸ old)⟩
  · exact ⟨List.mem_append_left _ h.first.1, h.first.2⟩

/-- A fork leaves the running process running and adds the child, if there is one, at the
end of the queue. -/
theorem Scheduled.forked {init : List Block} {root : Nat} {Q : List Nat} {env : Env} {k : Kernel}
    {r : Int × Kernel} (h : Scheduled init root Q k) (done : sysFork env k = .ok r) :
    ∃ child : Option Nat, Scheduled init root (Q ++ child.toList) r.2 ∧
      r.2.created = k.created ++ child.toList ∧ r.2.curthread = k.curthread ∧
      (∀ n ∈ child, n ∉ k.created ∧ (r.2.procs n).state = .ready) ∧
      ∀ p ∈ k.created, (r.2.procs p).state = (k.procs p).state := by
  have homeCur := h.homes _ (List.mem_cons_of_mem _ h.mem_created)
  cases sysFork_cases h.sound homeCur done with
  | failed kstack s s' frames took full =>
      have grows := Store.allocPages_grows took.sound (k.memtab k.proc.pid).sz
      rw [full] at grows
      have quiet : Quiet init k { k with
          store := s'
          procs := Function.update k.procs (kstack + 3992) { newProc kstack with pid := k.pid }
          frames := frames
          pid := u32 (k.pid + 1) } :=
        ⟨took.grows.trans grows, fun p mem => by simp [took.ne_home (h.homes p mem)], rfl, rfl, rfl,
          rfl, rfl, rfl⟩
      refine ⟨none, ?_, (List.append_nil _).symm, rfl, nofun, fun p mem => ?_⟩
      · rw [Option.toList_none, List.append_nil]
        exact (h.quiet quiet).1
      · exact (quiet.procs p (List.mem_cons_of_mem _ mem)).1
  | child kstack mem pd s s₁ s₂ s₃ s₄ regions ofile frames files k₁ took made block nonnull copied filled
      bytes free given queued =>
      have grows₁ := Store.allocPages_grows took.sound (k.memtab k.proc.pid).sz
      rw [block] at grows₁
      have grows₂ := (copykvm_grows grows₁.sound env.kpagedir).of_ok copied
      have grows₃ := (copyRegions_grows _ _ _ grows₂.sound).of_ok filled
      have grows₄ := (((took.grows.trans grows₁).trans grows₂).trans grows₃).write free given
      have freshAt : ∀ p ∈ k.idle :: k.created, p ≠ kstack + 3992 := fun p mem =>
        took.ne_home (h.homes p mem)
      obtain ⟨q, inserted, rfl⟩ := enqueue_proc queued
      generalize quietKernel : ({ k with
        store := s₄
        procs := Function.update k.procs (kstack + 3992) { newProc kstack with
          pid := k.pid, parent := k.curthread, cr3 := v2p pd, ofile := ofile }
        frames := frames
        files := files
        memtab := Function.update k.memtab k.pid { k.memtab k.pid with regions := regions }
        pid := u32 (k.pid + 1) } : Kernel) = k₂ at inserted queued
      have quiet : Quiet init k k₂ := by
        subst quietKernel
        exact ⟨grows₄, fun p mem => by simp [freshAt p mem], rfl, rfl, rfl, rfl, rfl, rfl⟩
      have childState : (k₂.procs (kstack + 3992)).state = .ready := by
        subst quietKernel
        simp [newProc]
      have home : k₂.Home (kstack + 3992) := by
        refine ⟨kstack, rfl, ?_⟩
        subst quietKernel
        have inside : (⟨kstack, 0x1000⟩ : Block) ∈ s.given := by
          rw [took.given]
          exact List.mem_cons_self
        exact given ▸ grows₃.given _ (grows₂.given _ (grows₁.given _ inside))
      obtain ⟨scheduled, _⟩ := h.quiet quiet
      have fresh : kstack + 3992 ∉ k₂.idle :: k₂.created := by
        rw [quiet.idle, quiet.created]
        exact fun mem => freshAt _ mem rfl
      obtain ⟨scheduled', _⟩ := scheduled.enqueue fresh home childState inserted
      refine ⟨some (kstack + 3992), scheduled', ?_, quiet.curthread, fun n mem => ?_, fun p mem => ?_⟩
      · exact congrArg (· ++ [kstack + 3992]) quiet.created
      · cases mem
        exact ⟨fun mem => freshAt _ (List.mem_cons_of_mem _ mem) rfl, childState⟩
      · exact (quiet.procs p (List.mem_cons_of_mem _ mem)).1

theorem Scheduled.fork {init : List Block} {root : Nat} {Q : List Nat} {env : Env} {k : Kernel}
    {r : Int × Kernel} (h : Scheduled init root Q k) (done : sysFork env k = .ok r) :
    ∃ Q', Scheduled init root Q' r.2 ∧ StayDead k r.2 := by
  obtain ⟨child, scheduled, created, _, _, states⟩ := h.forked done
  refine ⟨_, scheduled, fun p mem => ⟨?_, fun dead => (states p mem).trans dead⟩⟩
  rw [created]
  exact List.mem_append_left _ mem

/-! ## Runs -/

theorem Scheduled.step {init : List Block} {root : Nat} {Q : List Nat} {env : Env} {k : Kernel}
    (h : Scheduled init root Q k) (c : Call) :
    Returns Halt.InCall (fun k' => ∃ Q', Scheduled init root Q' k' ∧ StayDead k k') (k.step env c) := by
  cases c with
  | yield =>
      obtain ⟨p, k', Q', done, _, scheduled, dead⟩ := h.toQueued.yields
      rw [Kernel.step, done]
      exact ⟨Q', scheduled, dead⟩
  | fork =>
      rw [Kernel.step]
      refine ((sysFork_stops h.sound).intro fun r done => h.fork done).bind fun r next => ?_
      exact next
  | execve path => exact h.execve path
  | exit =>
      rw [Kernel.step]
      by_cases notFirst : k.proc.pid = 1
      · rw [sysExit, if_pos notFirst]
        trivial
      · obtain ⟨k', Q', done, scheduled, dead⟩ := h.exit notFirst
        rw [done]
        exact ⟨Q', scheduled, dead⟩
  | mmap len flags fd =>
      rw [Kernel.step]
      refine ((sysMmap_stops h.sound).intro fun r done => h.quiet (sysMmap_quiet h.sound done)).bind
        fun r next => ?_
      exact ⟨Q, next⟩
  | write addr byte =>
      exact ⟨Q, h.quiet ⟨(Store.Grows.refl h.sound).write rfl rfl, fun _ _ => ⟨rfl, rfl, rfl⟩, rfl, rfl,
        rfl, rfl, rfl, rfl⟩⟩

theorem Scheduled.run {init : List Block} {root : Nat} {Q : List Nat} {env : Env} {k k' : Kernel}
    {allowed : Kernel → Call → Prop} (h : Scheduled init root Q k)
    (run : Runs (Kernel.step env) allowed k k') :
    ∃ Q', Scheduled init root Q' k' ∧ StayDead k k' := by
  refine run.invariant (fun k' => ∃ Q', Scheduled init root Q' k' ∧ StayDead k k')
    ⟨Q, h, .refl k⟩ fun t a t' inv _ done => ?_
  obtain ⟨Q₁, scheduled, dead⟩ := inv
  obtain ⟨Q₂, scheduled', dead'⟩ := (scheduled.step a).of_ok done
  exact ⟨Q₂, scheduled', dead.trans dead'⟩

structure AtBoot (init : List Block) (k : Kernel) : Prop where
  sound : k.store.Sound init
  first : k.tqhFirst = 0
  last : k.tqhLast = .head
  pid : k.pid = 1
  created : k.created = []

structure SteadyBoot (init : List Block) (env : Env) (k : Kernel) : Prop extends AtBoot init k where
  fits : InitFits env

theorem boot_ready {init : List Block} {env : Env} {k₀ k₁ k₂ : Kernel} {idle entry : Nat}
    (atBoot : AtBoot init k₀) (booted : initsys env k₀ = .ok k₁)
    (made : kthreadCreate k₁ entry = .ok (idle, k₂)) :
    ∃ root, k₂.store.Sound init ∧ k₂.queue.Holds [root] ∧ k₂.created = [root] ∧ k₂.Home root ∧
      k₂.Home idle ∧ idle ≠ root ∧ (k₂.procs root).state = .ready ∧ (k₂.procs idle).state = .ready ∧
      (k₂.procs root).pid = 1 := by
  cases initsys_cases atBoot.sound booted with
  | mk kstack bin cr3 entry base sz regions ofile s₁ s₂ s₃ frames files fbdevs k₃ took file loaded before
      grown bytes queued =>
      obtain ⟨q, inserted, rfl⟩ := enqueue_proc queued
      have grown₂ := (loadImage_grows took.sound env.kpagedir env.initrd.bytes bin).of_ok loaded
      obtain ⟨stack, s₄, took', rfl, same⟩ := kthreadCreate_spec grown.sound made
      have homeRoot : (⟨kstack, 0x1000⟩ : Block) ∈ s₃.given := by
        apply grown.given _ (grown₂.given _ _)
        rw [took.given]
        exact List.mem_cons_self
      have ne : stack ≠ kstack := fun here => took'.fresh (here ▸ homeRoot)
      have ne' : kstack + 3992 ≠ stack + 3992 := by omega
      have emptyQueue : (Kernel.queue { k₀ with
          procs := Function.update k₀.procs (kstack + 3992) { newProc kstack with
            pid := k₀.pid, mmapBase := base, cr3 := cr3, ofile := ofile } }).Holds [] := by
        refine ⟨List.nodup_nil, atBoot.first, atBoot.last⟩
      obtain ⟨q', inserted', holds⟩ := emptyQueue.insertTail (e := kstack + 3992) (by simp) (by omega)
      have sameQueue : q' = q := Option.some.inj (inserted'.symm.trans inserted)
      subst sameQueue
      refine ⟨kstack + 3992, ?_, ?_, ?_, ⟨kstack, rfl, ?_⟩, ⟨stack, rfl, ?_⟩, by omega, ?_, ?_, ?_⟩
      · rw [same]
        exact took'.sound
      · have first : k₂.tqhFirst = q'.first := by rw [same]; rfl
        have last : k₂.tqhLast = q'.last := by rw [same]; rfl
        refine Kernel.holds_of_entries (k := k₀.setQueue q') holds first last fun p mem => ?_
        have here : p = kstack + 3992 := List.mem_singleton.mp mem
        rw [here, same]
        simp only [Kernel.setQueue, Function.update_of_ne ne']
      · rw [same]
        simp [Kernel.setQueue, atBoot.created]
      · rw [same]
        exact took'.given ▸ List.mem_cons_of_mem _ homeRoot
      · rw [same]
        exact took'.given ▸ List.mem_cons_self
      · rw [same]
        simp only [Kernel.setQueue, Function.update_of_ne ne', Function.update_self, newProc]
      · rw [same]
        simp [newProc]
      · rw [same]
        simp only [Kernel.setQueue, Function.update_of_ne ne', Function.update_self]
        exact atBoot.pid

theorem boot_switches {init : List Block} {env : Env} {k₀ k₁ k₂ : Kernel} {idle entry : Nat}
    (atBoot : AtBoot init k₀) (booted : initsys env k₀ = .ok k₁)
    (made : kthreadCreate k₁ entry = .ok (idle, k₂)) :
    ∃ root k, scheduler { k₂ with idle := idle, curthread := idle } = .ok k ∧
      Switched { k₂ with idle := idle, curthread := idle } k root ∧ Scheduled init root [] k := by
  obtain ⟨root, sound, holds, created, homeRoot, homeIdle, ne, ready, idleReady, number⟩ :=
    boot_ready atBoot booted made
  obtain ⟨p, k, done, first, holds', switched⟩ := scheduler_spec
    (k := { k₂ with idle := idle, curthread := idle }) (Q := [root]) holds (by simp [queueLimit])
    ⟨root, List.mem_singleton_self _, ready⟩
  have isRoot : p = root := List.mem_singleton.mp (List.mem_of_find?_eq_some first)
  subst isRoot
  have same := switched.same
  have running : (k.procs p).state = .running := by
    rw [switched.procs, if_pos rfl]
  rw [List.erase_cons_head] at holds'
  refine ⟨p, k, done, switched, ⟨⟨?_, holds', ?_, ?_, ?_, fun x mem => absurd mem List.not_mem_nil,
    fun x mem => ?_, ?_, ?_, ?_⟩, ?_⟩⟩
  · rw [same]
    exact sound
  · rw [same]
    simp [created]
  · left
    rw [Kernel.proc, same]
    exact running
  · rw [same]
  · rw [same] at mem ⊢
    simp only [created, List.mem_cons, List.not_mem_nil, or_false] at mem
    rcases mem with rfl | rfl
    · exact homeIdle
    · exact homeRoot
  · rw [same]
    simp [created, ne]
  · have idleEq : k.idle = idle := by rw [same]
    rw [idleEq, switched.procs, if_neg ne]
    exact idleReady
  · refine ⟨by rw [same]; simp [created], ?_, ?_⟩
    · rw [switched.procs]
      exact number
    · rw [running]
      intro dead
      cases dead
  · rw [Kernel.proc, same]
    exact running

theorem initSched_scheduled {init : List Block} {env : Env} {k₀ k₁ : Kernel} {entry : Nat}
    (atBoot : AtBoot init k₀) (booted : initsys env k₀ = .ok k₁) :
    Returns Halt.InCall (fun k => ∃ root, Scheduled init root [] k) (initSched k₁ entry) := by
  have stops : Returns Halt.InCall (fun _ => True) (kthreadCreate k₁ entry) :=
    (allocThread_stops k₁).bind fun _ _ => trivial
  rw [initSched]
  refine (stops.intro fun r made => made).bind fun r made => ?_
  obtain ⟨idle, k₂⟩ := r
  obtain ⟨root, k, done, _, scheduled⟩ := boot_switches atBoot booted made
  have result : Returns Halt.InCall (fun k => ∃ root, Scheduled init root [] k)
      (scheduler { k₂ with idle := idle, curthread := idle }) := by
    rw [done]
    exact ⟨root, scheduled⟩
  exact result

theorem smallKernel_atBoot : AtBoot smallFree smallKernel := ⟨smallKernel_sound, rfl, rfl, rfl, rfl⟩

theorem smallEnv_fits : InitFits (smallEnv alignedSegment) := fun bin found =>
  (segsOk_program smallEnv_program smallEnv_segments (by decide) (by decide) bin found).loadFits

theorem smallKernel_steady : SteadyBoot smallFree (smallEnv alignedSegment) smallKernel :=
  ⟨smallKernel_atBoot, smallEnv_fits⟩

def smallBoot (ph : Proghdr) : Except Halt Kernel := do
  let k ← initsys (smallEnv ph) smallKernel
  initSched k 0

theorem smallBoot_fork : ∃ k₁ k₂ k₃, initsys (smallEnv alignedSegment) smallKernel = .ok k₁ ∧
    initSched k₁ 0 = .ok k₂ ∧ k₂.step (smallEnv alignedSegment) .fork = .ok k₃ ∧ k₂.pid = 2 ∧
    k₂.Careful (smallEnv alignedSegment) .fork := by
  have all : (smallBoot alignedSegment >>= fun k₂ => k₂.step (smallEnv alignedSegment) .fork >>= fun _ =>
      .ok (k₂.pid, decide (span (k₂.memtab k₂.proc.pid).regions ≤
        pgRoundup (k₂.memtab k₂.proc.pid).sz))) = .ok (2, true) := ok_of_toOption (by decide +kernel)
  obtain ⟨k₂, boot, afterBoot⟩ := bind_eq_ok.mp all
  obtain ⟨k₃, forked, values⟩ := bind_eq_ok.mp afterBoot
  obtain ⟨k₁, booted, scheduled⟩ := bind_eq_ok.mp boot
  simp only [Except.ok.injEq, Prod.mk.injEq, decide_eq_true_eq] at values
  obtain ⟨two, room⟩ := values
  have slot : k₂.pid ≤ maxprocs := by
    rw [two]
    decide
  exact ⟨k₁, k₂, k₃, booted, scheduled, forked, two, trivial, trivial,
    Kernel.not_astray forked (Kernel.not_overruns_fork slot room)⟩

end Trunix
