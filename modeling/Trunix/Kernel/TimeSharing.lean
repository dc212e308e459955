import Trunix.Lib.Sharing
import Trunix.Kernel.Isolation
import Trunix.Kernel.Resume
import Trunix.Kernel.RoundRobin

/-!
# Time sharing

The machine with its registers, stacks, page tables and run queue is a system of processes that
share a processor: each step of it is one or two events of the abstract system, which are what
the step means for the processes.  So a process that the timer interrupts is resumed after all
that were ready before it, with the registers and the memory it had.
-/

set_option autoImplicit false

namespace Trunix

open Trunix.Lib

/-! ## The machine and its events -/

inductive Action where
  | compute (regs : Regs)
  | store (va : Nat) (byte : UInt8)
  | call (c : Call)

def Machine.act (code : Code) (env : Env) (m : Machine) : Action → Except Halt Machine
  | .compute regs => m.event code env (.compute regs)
  | .store va byte => do
      let k ← m.kernel.userStep env (.store va byte)
      return ⟨k, m.cpu⟩
  | .call c => m.event code env (.call c)

/-- A process stays in user mode; its calls are orderly, overflow no stack and do not go astray, and
it makes them with the segments and the direction flag that the kernel needs. -/
def Machine.Orderly (code : Code) (env : Env) (m : Machine) : Action → Prop
  | .compute regs => regs.User
  | .store _ _ => True
  | .call c => m.kernel.Orderly env (.call (.other c)) ∧ m.Fits code env c ∧ ¬ m.kernel.Astray env c ∧
      m.Ready env c

abbrev TimeSharing := Sharing Nat Regs Nat UInt8

abbrev SystemEvent := SharingEvent Nat Regs Nat UInt8

def Regs.answered (r : Regs) (v : Nat) : Set Regs := {r' | r' = { r with eax := v }}

def Kernel.mmapRefusal (k : Kernel) (len flags : Nat) : Option Nat :=
  if len = 0 ∨ mmapLimit ≤ u32 (k.proc.mmapBase + pgRoundup len) then some 0
  else if flags &&& mapAnon = 0 then some 0xFFFFFFFF else none

/-- What a step from `m` to `m'` means for the processes, which have their numbers for names.  The
last event comes first. -/
def Machine.shows (env : Env) (m m' : Machine) : Action → List SystemEvent
  | .compute regs => [.own {regs} none]
  | .store va byte => [.own {m.cpu.regs} (some (.store va byte))]
  | .call .yield => [.switch, .own {m.cpu.regs} none]
  | .call .fork =>
      match m'.kernel.created[m.kernel.created.length]? with
      | some p => [.fork (m'.kernel.procs p).pid (m.cpu.regs.answered (m'.kernel.procs p).pid)
          (m.cpu.regs.answered 0)]
      | none => [.own (m.cpu.regs.answered 0xFFFFFFFF) none]
  | .call (.execve path) =>
      match env.initrd.program path with
      | some bin => [.switch, .own (m.cpu.regs.entered (elfEntry env.initrd.bytes bin) kernelOffset)
          (some (.replace (programImage env.initrd.bytes bin (env.initrd.segments bin))))]
      | none => [.own (m.cpu.regs.answered 0xFFFFFFFF) none]
  | .call (.mmap len flags _) =>
      match m.kernel.mmapRefusal len flags with
      | some v => [.own (m.cpu.regs.answered v) none]
      | none => [.own (m.cpu.regs.answered m.kernel.proc.mmapBase)
          (some (.extend (zeros m.kernel.proc.mmapBase (pgRoundup len))))]
  | .call .exit => [.exit]
  | .call (.write _ _) => []

/-- A machine with the events so far, the last one first. -/
structure Chronicle where
  machine : Machine
  log : List SystemEvent

def Chronicle.step (code : Code) (env : Env) (t : Chronicle) (a : Action) : Except Halt Chronicle := do
  let m ← t.machine.act code env a
  return ⟨m, t.machine.shows env m a ++ t.log⟩

/-! ## The system behind a machine -/

/-- The machine is at the state `s` of the system: the process that runs has its registers and its
memory, those in line are the ones that are ready, each with the memory and the registers that it
goes on with. -/
structure Machine.Shows (init : List Block) (code : Code) (m : Machine) (s : TimeSharing) : Prop where
  running : s.running = m.kernel.proc.pid
  line : ∃ root Q, Scheduled init root Q m.kernel ∧
    s.waiting = (m.kernel.turns Q).line.map fun p => (m.kernel.procs p).pid
  process : ∀ p ∈ m.kernel.created, (m.kernel.procs p).state ≠ .dead → ∃ regs,
    s.process (m.kernel.procs p).pid = some ⟨regs, m.kernel.space p⟩ ∧
      Waits code m.kernel m.cpu p (· ∈ regs)
  names : ∀ i ∈ s.names, i < m.kernel.pid

def Kernel.alive (k : Kernel) : List Nat := k.created.filter fun p => (k.procs p).state ≠ .dead

structure Machine.Kept (init : List Block) (code : Code) (base : Nat) (m : Machine) : Prop where
  settled : Settled init code base m
  keeps : m.kernel.Private init

def Machine.Spares (code : Code) (m m' : Machine) : Prop :=
  ∀ p ∈ m.kernel.created, p ≠ m.kernel.curthread → m'.kernel.space p = m.kernel.space p ∧
    ∀ Q, Waits code m.kernel m.cpu p Q → Waits code m'.kernel m'.cpu p Q

theorem Kernel.Moved.space_other {k k' : Kernel} {e : Option (MemoryEvent Nat Nat UInt8)} {p : Nat}
    (moved : k.Moved k' e) (mem : p ∈ k.created) (other : ∀ e' ∈ e, e'.target ≠ p) :
    k'.space p = k.space p := by
  rw [← Kernel.spaces_created mem, ← Kernel.spaces_created (moved.created p mem), moved.spaces]
  cases e with
  | none => rfl
  | some e => exact MemoryEvent.on_other (other e rfl)

theorem Kernel.Moved.space_deed {k k' : Kernel} {d : Deed Nat UInt8} {p : Nat}
    (moved : k.Moved k' (some (.deed p d))) (mem : p ∈ k.created) :
    k'.space p = d.on (k.space p) ∧ d.Fits (k.space p) := by
  have fits := moved.fits _ rfl
  rw [MemoryEvent.Fits, Kernel.spaces_created mem] at fits
  refine ⟨?_, fits⟩
  rw [← Kernel.spaces_created (moved.created p mem), moved.spaces, ← Kernel.spaces_created mem]
  exact Function.update_self _ _ _

theorem Effect.pids {init : List Block} {env : Env} {k k' : Kernel} {c : Call}
    (effect : Effect init env k c k') : ∀ p ∈ k.created, (k'.procs p).pid = (k.procs p).pid := by
  intro p mem
  have updated : (p ≠ k.curthread → (k'.procs p).unqueued = (k.procs p).unqueued) →
      (k'.procs k.curthread).pid = k.proc.pid → (k'.procs p).pid = (k.procs p).pid := by
    intro others self
    by_cases here : p = k.curthread
    · subst here
      exact self
    · exact pid_of_unqueued (others here)
  cases effect with
  | paused _ _ _ _ keeps => exact pid_of_unqueued (keeps.procs p mem)
  | wrote _ _ _ _ _ _ keeps => exact pid_of_unqueued (keeps.procs p mem)
  | refused _ _ _ _ keeps => exact pid_of_unqueued (keeps.procs p mem)
  | declined _ _ _ _ _ _ _ keeps => exact pid_of_unqueued (keeps.procs p mem)
  | loaded path bin cr3 entry base sz regions _ file image memtab pid created others self =>
      have number := congrArg Proc.pid self
      exact updated (others p mem) number
  | mapped len flags fd _ pa s s₁ _ nonzero limit bytes free given backed linked memtab pid created others
      self =>
      have number := congrArg Proc.pid self
      exact updated (others p mem) number
  | unforked _ _ _ _ _ _ _ _ procs => exact pid_of_unqueued (procs p mem)
  | forked _ _ _ _ _ _ _ _ _ _ _ _ _ _ _ _ _ _ _ _ _ others _ => exact pid_of_unqueued (others p mem)

section Step

variable {init : List Block} {code : Code} {base : Nat} {env : Env} {m m' : Machine} {s : TimeSharing}

theorem Machine.Shows.others (shows : m.Shows init code s) (keeps : m.kernel.Private init)
    (spares : m.Spares code m')
    (pids : ∀ p ∈ m.kernel.created, (m'.kernel.procs p).pid = (m.kernel.procs p).pid)
    (P : Option (Process Regs Nat UInt8)) {p : Nat} (mem : p ∈ m.kernel.created)
    (ne : p ≠ m.kernel.curthread) (alive : (m.kernel.procs p).state ≠ .dead) : ∃ regs,
      Function.update s.process s.running P (m'.kernel.procs p).pid = some ⟨regs, m'.kernel.space p⟩ ∧
        Waits code m'.kernel m'.cpu p (· ∈ regs) := by
  obtain ⟨regs, there, waits⟩ := shows.process p mem alive
  obtain ⟨space, still⟩ := spares p mem ne
  have other : (m'.kernel.procs p).pid ≠ s.running := by
    rw [pids p mem, shows.running]
    exact fun same => ne (keeps.numbers.distinct p mem _ keeps.cur same)
  refine ⟨regs, ?_, still _ waits⟩
  rw [Function.update_of_ne other, pids p mem, space]
  exact there

theorem Scheduled.current_alive {root : Nat} {Q : List Nat} {k : Kernel} (h : Scheduled init root Q k) :
    (k.procs k.curthread).state ≠ .dead := by
  have running : (k.procs k.curthread).state = .running := h.running
  rw [running]
  intro dead
  cases dead

theorem Machine.Shows.current (shows : m.Shows init code s) (keeps : m.kernel.Private init) : ∃ regs,
    s.process s.running = some ⟨regs, m.kernel.space m.kernel.curthread⟩ ∧ m.cpu.regs ∈ regs := by
  obtain ⟨root, Q, scheduled⟩ := keeps.sched
  obtain ⟨regs, there, waits⟩ := shows.process _ keeps.cur scheduled.current_alive
  rw [Waits, if_pos rfl] at waits
  rw [shows.running]
  exact ⟨regs, there, waits⟩

theorem Scheduled.line_pids {root : Nat} {Q : List Nat} {k k' : Kernel} (h : Scheduled init root Q k)
    (pids : ∀ p ∈ k.created, (k'.procs p).pid = (k.procs p).pid) :
    ((k.turns Q).line.map fun p => (k'.procs p).pid) = (k.turns Q).line.map fun p => (k.procs p).pid :=
  List.map_congr_left fun p mem => pids p (h.waiting_created (List.mem_of_mem_filter mem))

theorem Yielded.alive {k k' : Kernel} {p x : Nat} (h : Yielded k k' p) (alive : (k.procs x).state ≠ .dead) :
    (k'.procs x).state ≠ .dead := by
  rw [h.procs]
  by_cases here : x = p
  · simp [here]
  · by_cases parked : x = k.curthread ∧ (k.procs x).state = .running
    · simp [here, Kernel.parked, if_pos parked]
    · simpa [here, Kernel.parked, if_neg parked] using alive

section Shapes

variable (shows : m.Shows init code s) (keeps : m.kernel.Private init) (spares : m.Spares code m')
  (pids : ∀ p ∈ m.kernel.created, (m'.kernel.procs p).pid = (m.kernel.procs p).pid)
  (dead : StayDead m.kernel m'.kernel) (next : m.kernel.pid ≤ m'.kernel.pid)

include shows keeps spares pids dead next

omit next in
theorem Machine.Shows.updated {regs : Set Regs}
    (waits : Waits code m'.kernel m'.cpu m.kernel.curthread (· ∈ regs)) {p : Nat} (mem : p ∈ m.kernel.created)
    (alive : (m'.kernel.procs p).state ≠ .dead) : ∃ regs',
      Function.update s.process s.running (some ⟨regs, m'.kernel.space m.kernel.curthread⟩)
        (m'.kernel.procs p).pid = some ⟨regs', m'.kernel.space p⟩ ∧
      Waits code m'.kernel m'.cpu p (· ∈ regs') := by
  by_cases cur : p = m.kernel.curthread
  · subst cur
    refine ⟨regs, ?_, waits⟩
    have name : (m'.kernel.procs m.kernel.curthread).pid = s.running :=
      (pids _ keeps.cur).trans shows.running.symm
    rw [name, Function.update_self]
  · exact shows.others keeps spares pids _ mem cur fun gone => alive ((dead p mem).2 gone)

theorem Machine.Shows.stays (created : m'.kernel.created = m.kernel.created)
    (turn : ∀ root Q, Scheduled init root Q m.kernel → ∃ Q', Scheduled init root Q' m'.kernel ∧
      Turn (m.kernel.turns Q) none (m'.kernel.turns Q'))
    {regs : Set Regs} {deed : Option (Deed Nat UInt8)}
    (fits : ∀ d ∈ deed, d.Fits (m.kernel.space m.kernel.curthread))
    (space : m'.kernel.space m.kernel.curthread =
      deed.elim (m.kernel.space m.kernel.curthread) fun d => d.on (m.kernel.space m.kernel.curthread))
    (waits : Waits code m'.kernel m'.cpu m.kernel.curthread (· ∈ regs)) :
    ∃ s', s.Step (.own regs deed) s' ∧ m'.Shows init code s' := by
  obtain ⟨regs₀, there, _⟩ := shows.current keeps
  refine ⟨_, .own s _ regs deed there fits, ?_⟩
  obtain ⟨root, Q, scheduled, waiting⟩ := shows.line
  obtain ⟨Q', scheduled', turned⟩ := turn root Q scheduled
  obtain ⟨same, line⟩ := turned.line_keep
  have here : m'.kernel.curthread = m.kernel.curthread := same
  refine ⟨?_, ⟨root, Q', scheduled', ?_⟩, fun p mem alive => ?_, fun i mem =>
    Nat.lt_of_lt_of_le (shows.names i mem) next⟩
  · simp only [shows.running, Kernel.proc, here, pids _ keeps.cur]
  · rw [line, scheduled.line_pids pids]
    exact waiting
  · rw [created] at mem
    rw [← space]
    exact shows.updated keeps spares pids dead waits mem alive

theorem Machine.Shows.switches (created : m'.kernel.created = m.kernel.created)
    (turn : ∀ root Q, Scheduled init root Q m.kernel → ∃ Q', Scheduled init root Q' m'.kernel ∧
      Turn (m.kernel.turns Q) (some (.dispatch m'.kernel.curthread)) (m'.kernel.turns Q'))
    (alive : (m'.kernel.procs m.kernel.curthread).state ≠ .dead)
    {regs : Set Regs} {deed : Option (Deed Nat UInt8)}
    (fits : ∀ d ∈ deed, d.Fits (m.kernel.space m.kernel.curthread))
    (space : m'.kernel.space m.kernel.curthread =
      deed.elim (m.kernel.space m.kernel.curthread) fun d => d.on (m.kernel.space m.kernel.curthread))
    (waits : Waits code m'.kernel m'.cpu m.kernel.curthread (· ∈ regs)) :
    ∃ s', s.Run [.switch, .own regs deed] s' ∧ m'.Shows init code s' := by
  obtain ⟨regs₀, there, _⟩ := shows.current keeps
  obtain ⟨root, Q, scheduled, waiting⟩ := shows.line
  obtain ⟨Q', scheduled', turned⟩ := turn root Q scheduled
  obtain ⟨_, line⟩ := turned.line_switch
  have self : [(m.kernel.turns Q).running].filter (m'.kernel.turns Q').live = [m.kernel.curthread] := by
    simp [Kernel.turns, alive]
  have names := congrArg (List.map fun p => (m'.kernel.procs p).pid) line
  rw [self, List.map_append, scheduled.line_pids pids, ← waiting, List.map_cons, List.map_cons, List.map_nil,
    pids _ keeps.cur] at names
  have first : s.waiting ++ [s.running] = m'.kernel.proc.pid ::
      (m'.kernel.turns Q').line.map fun p => (m'.kernel.procs p).pid := by
    rw [shows.running]
    exact names
  refine ⟨_, .next (.next .start (.own s _ regs deed there fits)) (.switch _ _ _ first), rfl,
    ⟨root, Q', scheduled', rfl⟩, fun p mem alive => ?_, fun i mem =>
    Nat.lt_of_lt_of_le (shows.names i mem) next⟩
  rw [created] at mem
  simp only
  rw [← space]
  exact shows.updated keeps spares pids dead waits mem alive

theorem Machine.Shows.exits (created : m'.kernel.created = m.kernel.created)
    (turn : ∀ root Q, Scheduled init root Q m.kernel → ∃ Q', Scheduled init root Q' m'.kernel ∧
      Turn (m.kernel.turns Q) (some (.dispatch m'.kernel.curthread)) (m'.kernel.turns Q'))
    (gone : (m'.kernel.procs m.kernel.curthread).state = .dead) :
    ∃ s', s.Run [.exit] s' ∧ m'.Shows init code s' := by
  obtain ⟨root, Q, scheduled, waiting⟩ := shows.line
  obtain ⟨Q', scheduled', turned⟩ := turn root Q scheduled
  obtain ⟨_, line⟩ := turned.line_switch
  have self : [(m.kernel.turns Q).running].filter (m'.kernel.turns Q').live = [] := by
    simp [Kernel.turns, gone]
  have names := congrArg (List.map fun p => (m'.kernel.procs p).pid) line
  rw [self, List.append_nil, scheduled.line_pids pids, ← waiting, List.map_cons] at names
  have first : s.waiting = m'.kernel.proc.pid ::
      (m'.kernel.turns Q').line.map fun p => (m'.kernel.procs p).pid := names
  refine ⟨_, .next .start (.exit s _ _ first), rfl, ⟨root, Q', scheduled', rfl⟩, fun p mem alive => ?_,
    fun i mem => Nat.lt_of_lt_of_le (shows.names i mem) next⟩
  rw [created] at mem
  by_cases cur : p = m.kernel.curthread
  · exact absurd gone (cur ▸ alive)
  · exact shows.others keeps spares pids _ mem cur fun gone => alive ((dead p mem).2 gone)

omit next in
theorem Machine.Shows.forks {n : Nat} (created : m'.kernel.created = m.kernel.created ++ [n])
    (turn : ∀ root Q, Scheduled init root Q m.kernel → ∃ Q', Scheduled init root Q' m'.kernel ∧
      Turn (m.kernel.turns Q) (some (.fork m.kernel.curthread n)) (m'.kernel.turns Q'))
    (number : (m'.kernel.procs n).pid = m.kernel.pid) (counted : m.kernel.pid < m'.kernel.pid)
    (space : m'.kernel.space m.kernel.curthread = m.kernel.space m.kernel.curthread)
    (copy : m'.kernel.space n = m.kernel.space m.kernel.curthread) {regs young : Set Regs}
    (waits : Waits code m'.kernel m'.cpu m.kernel.curthread (· ∈ regs))
    (born : Waits code m'.kernel m'.cpu n (· ∈ young)) :
    ∃ s', s.Run [.fork (m'.kernel.procs n).pid regs young] s' ∧ m'.Shows init code s' := by
  obtain ⟨regs₀, there, _⟩ := shows.current keeps
  obtain ⟨root, Q, scheduled, waiting⟩ := shows.line
  obtain ⟨Q', scheduled', turned⟩ := turn root Q scheduled
  obtain ⟨same, line⟩ := turned.line_fork
  have here : m'.kernel.curthread = m.kernel.curthread := same
  have new : (m'.kernel.procs n).pid ∉ s.names := fun old => by
    have := shows.names _ old
    omega
  have other : ∀ p ∈ m.kernel.created, (m'.kernel.procs p).pid ≠ (m'.kernel.procs n).pid := by
    intro p mem
    have := keeps.numbers.below p mem
    rw [pids p mem]
    omega
  refine ⟨_, .next .start (.fork s _ _ regs young there new), ?_, ⟨root, Q', scheduled', ?_⟩,
    fun p mem alive => ?_, fun i mem => ?_⟩
  · simp only [shows.running, Kernel.proc, here, pids _ keeps.cur]
  · rw [line, List.map_append, scheduled.line_pids pids, ← waiting]
    rfl
  · rw [created, List.mem_append, List.mem_singleton] at mem
    rcases mem with mem | rfl
    · simp only [Function.update_of_ne (other p mem)]
      rw [← space]
      exact shows.updated keeps spares pids dead waits mem alive
    · exact ⟨young, by simp only [Function.update_self, copy], born⟩
  · rcases mem with rfl | old
    · exact number ▸ counted
    · exact Nat.lt_trans (shows.names i old) counted

end Shapes

/-! ## The calls -/

theorem Effect.pid_le {k k' : Kernel} {c : Call} (effect : Effect init env k c k')
    (slot : c = .fork → k.pid ≤ maxprocs) : k.pid ≤ k'.pid := by
  have more : k.pid ≤ maxprocs → k'.pid = u32 (k.pid + 1) → k.pid ≤ k'.pid := by
    intro low pid
    have limit : maxprocs = 128 := rfl
    rw [pid, u32_of_lt (by omega)]
    exact Nat.le_succ _
  cases effect with
  | paused _ _ _ _ keeps => exact Nat.le_of_eq keeps.pid.symm
  | wrote _ _ _ _ _ _ keeps => exact Nat.le_of_eq keeps.pid.symm
  | refused _ _ _ _ keeps => exact Nat.le_of_eq keeps.pid.symm
  | declined _ _ _ _ _ _ _ keeps => exact Nat.le_of_eq keeps.pid.symm
  | loaded path bin cr3 entry base sz regions _ file image memtab pid created others self =>
      exact Nat.le_of_eq pid.symm
  | mapped len flags fd _ pa s s₁ _ nonzero limit bytes free given backed linked memtab pid created others
      self =>
      exact Nat.le_of_eq pid.symm
  | unforked _ _ _ _ _ _ pid _ _ => exact more (slot rfl) pid
  | forked _ _ _ _ _ _ _ _ _ _ _ _ _ _ _ _ _ _ _ pid _ _ _ => exact more (slot rfl) pid

theorem Kernel.turn_dispatch {k k' : Kernel} {c : Call} (done : k.step env c = .ok k')
    (created : k'.created = k.created) (switches : k.switches env c = true) :
    ∀ root Q, Scheduled init root Q k → ∃ Q', Scheduled init root Q' k' ∧
      Turn (k.turns Q) (some (.dispatch k'.curthread)) (k'.turns Q') := by
  intro root Q h
  obtain ⟨Q', move, scheduled, turn, moves⟩ := h.turn done
  rw [Kernel.moves_of_created created, if_pos switches] at moves
  cases move with
  | none => cases moves
  | some x =>
      cases (List.cons.inj moves).1
      exact ⟨Q', scheduled, turn⟩

theorem Kernel.turn_quiet {k k' : Kernel} {c : Call} (done : k.step env c = .ok k')
    (created : k'.created = k.created) (switches : k.switches env c = false) :
    ∀ root Q, Scheduled init root Q k → ∃ Q', Scheduled init root Q' k' ∧
      Turn (k.turns Q) none (k'.turns Q') := by
  intro root Q h
  obtain ⟨Q', move, scheduled, turn, moves⟩ := h.turn done
  rw [Kernel.moves_of_created created, switches, if_neg Bool.false_ne_true] at moves
  cases move with
  | none => exact ⟨Q', scheduled, turn⟩
  | some x => cases moves

theorem Kernel.turn_fork {k k' : Kernel} {n : Nat} (done : k.step env .fork = .ok k')
    (created : k'.created = k.created ++ [n]) :
    ∀ root Q, Scheduled init root Q k → ∃ Q', Scheduled init root Q' k' ∧
      Turn (k.turns Q) (some (.fork k.curthread n)) (k'.turns Q') := by
  intro root Q h
  obtain ⟨Q', move, scheduled, turn, moves⟩ := h.turn done
  rw [Kernel.moves, created, List.drop_left] at moves
  cases move with
  | none => cases moves
  | some x =>
      cases (List.cons.inj moves).1
      exact ⟨Q', scheduled, turn⟩

structure Machine.Called (init : List Block) (code : Code) (base : Nat) (env : Env) (m m' : Machine)
    (c : Call) : Prop where
  kept : m'.Kept init code base
  done : m.kernel.step env c = .ok m'.kernel
  effect : Effect init env m.kernel c m'.kernel
  moved : m.kernel.Moved m'.kernel (m.kernel.event env m'.kernel (.call (.other c)))
  waits : ∀ p ∈ m.kernel.created, p ≠ m.kernel.curthread → ∀ Q,
    Waits code m.kernel m.cpu p Q → Waits code m'.kernel m'.cpu p Q
  dead : StayDead m.kernel m'.kernel
  next : m.kernel.pid ≤ m'.kernel.pid

theorem Machine.Kept.called {c : Call} (kept : m.Kept init code base) (boot : BootStack init base)
    (ok : m.Orderly code env (.call c)) (done : m.step code env c = .ok m') :
    m.Called init code base env m' c := by
  have stepped : m.kernel.step env c = .ok m'.kernel := Machine.step_kernel done
  obtain ⟨settled, others⟩ := kept.settled.event (e := .call c) boot (fun _ same => by cases same)
    (fun _ same => Event.call.inj same ▸ ok.2.1) done
  obtain ⟨moved, keeps⟩ := kept.keeps.step (c := .call (.other c)) ok.1 stepped
  obtain ⟨root, Q, scheduled⟩ := kept.keeps.sched
  have effect := scheduled.effect stepped
  refine ⟨⟨settled, keeps⟩, stepped, effect, moved, others, (kept.settled.seated.step stepped).2.2,
    effect.pid_le ?_⟩
  rintro rfl
  exact ok.1.1

theorem Machine.Called.spares {c : Call} (h : m.Called init code base env m' c)
    (own : ∀ e ∈ m.kernel.event env m'.kernel (.call (.other c)), e.target = m.kernel.curthread) :
    m.Spares code m' := fun p mem ne =>
  ⟨h.moved.space_other mem fun e listed => by
    rw [own e listed]
    exact Ne.symm ne, h.waits p mem ne⟩

theorem some_fits {d : Deed Nat UInt8} {f : Nat → Option UInt8} (fits : d.Fits f) :
    ∀ d' ∈ some d, d'.Fits f := by
  intro d' listed
  cases listed
  exact fits

theorem none_fits {f : Nat → Option UInt8} : ∀ d ∈ (none : Option (Deed Nat UInt8)), d.Fits f := by
  intro d listed
  cases listed

theorem Machine.Called.unmoved {c : Call} (h : m.Called init code base env m' c)
    (silent : m.kernel.event env m'.kernel (.call (.other c)) = none) :
    m.Spares code m' ∧ ∀ p ∈ m.kernel.created, m'.kernel.space p = m.kernel.space p := by
  refine ⟨h.spares fun e listed => ?_, fun p mem => h.moved.space_other mem fun e listed => ?_⟩
  · rw [silent] at listed
    cases listed
  · rw [silent] at listed
    cases listed

theorem Machine.Called.did {c : Call} {d : Deed Nat UInt8} (h : m.Called init code base env m' c)
    (cur : m.kernel.curthread ∈ m.kernel.created)
    (event : m.kernel.event env m'.kernel (.call (.other c)) = some (.deed m.kernel.curthread d)) :
    m.Spares code m' ∧ m'.kernel.space m.kernel.curthread = d.on (m.kernel.space m.kernel.curthread) ∧
      ∀ d' ∈ some d, d'.Fits (m.kernel.space m.kernel.curthread) := by
  have moved := h.moved
  rw [event] at moved
  obtain ⟨space, fits⟩ := moved.space_deed cur
  refine ⟨h.spares fun e listed => ?_, space, some_fits fits⟩
  rw [event] at listed
  cases listed
  rfl

theorem sysMmap_answer {k k' : Kernel} {len flags fd addr : Nat}
    (returnable : k.Returnable env (.other (.mmap len flags fd)))
    (mapped : sysMmap env k len flags fd = .ok (addr, k')) :
    (k.mmapRefusal len flags = some addr ∧ k'.regions k.curthread = k.regions k.curthread) ∨
      (k.mmapRefusal len flags = none ∧ addr = k.proc.mmapBase ∧
        (k'.regions k.curthread).length ≠ (k.regions k.curthread).length) := by
  rw [sysMmap] at mapped
  by_cases zero : len = 0
  · rw [if_pos zero] at mapped
    cases mapped
    exact Or.inl ⟨if_pos (Or.inl zero), rfl⟩
  rw [if_neg zero] at mapped
  by_cases limit : mmapLimit ≤ u32 (k.proc.mmapBase + pgRoundup len)
  · simp only [if_pos limit] at mapped
    cases mapped
    exact Or.inl ⟨if_pos (Or.inr limit), rfl⟩
  simp only [if_neg limit] at mapped
  obtain ⟨⟨mem, s₁⟩, alloc, afterAlloc⟩ := bind_eq_ok.mp mapped
  obtain ⟨backed, found, after⟩ := bind_eq_ok.mp afterAlloc
  have refusal : k.mmapRefusal len flags = if flags &&& mapAnon = 0 then some 0xFFFFFFFF else none :=
    if_neg fun either => either.elim zero limit
  rcases returnable zero (Nat.lt_of_not_le limit) with ⟨anon, _⟩ | ⟨device, closed⟩
  · rw [refusal, if_neg anon]
    cases backed with
    | none =>
        rw [backing, if_pos anon] at found
        obtain ⟨_, _, afterTouch⟩ := bind_eq_ok.mp found
        obtain ⟨_, _, result⟩ := bind_eq_ok.mp afterTouch
        cases result
    | some r =>
        obtain ⟨pa, k₁⟩ := r
        obtain ⟨s₂, _, rfl⟩ := backing_cases found
        obtain ⟨s₃, linked, result⟩ := bind_eq_ok.mp after
        cases result
        refine Or.inr ⟨rfl, rfl, ?_⟩
        simp [Kernel.regions, Kernel.setMemtab, Kernel.setProc, Kernel.proc]
  · rw [refusal, if_pos device]
    cases backed with
    | none =>
        obtain ⟨rfl, rfl⟩ := Prod.mk.inj (Except.ok.inj after)
        exact Or.inl ⟨rfl, rfl⟩
    | some r =>
        obtain ⟨pa, k₁⟩ := r
        obtain ⟨s₂, backed, _⟩ := backing_cases found
        cases backed with
        | anon page _ _ asked _ _ => exact absurd device asked
        | device fd' _ number opened => exact absurd (closed fd' number) opened

theorem sysFork_answer {root : Nat} {Q : List Nat} {k k' : Kernel} {r : Int} (h : Scheduled init root Q k)
    (forked : sysFork env k = .ok (r, k')) : k'.curthread = k.curthread ∧
      ((r = -1 ∧ k'.created = k.created) ∨ ∃ n, r = k.pid ∧ k'.created = k.created ++ [n] ∧ n ∉ k.created ∧
        (k'.procs n).pid = k.pid ∧ k'.pid = u32 (k.pid + 1)) := by
  cases sysFork_cases h.sound (h.homes _ (List.mem_cons_of_mem _ h.mem_created)) forked with
  | failed kstack s s' frames took full => exact ⟨rfl, Or.inl ⟨rfl, rfl⟩⟩
  | child kstack mem pd s s₁ s₂ s₃ s₄ regions ofile frames files k₁ took made block nonnull copied filled
      bytes free given queued =>
      obtain ⟨q, inserted, rfl⟩ := enqueue_proc queued
      refine ⟨rfl, Or.inr ⟨kstack + 3992, rfl, rfl, fun old => ?_, ?_, rfl⟩⟩
      · exact took.ne_home (h.homes _ (List.mem_cons_of_mem _ old)) rfl
      · simp only [Kernel.setQueue, Function.update_self]

section Calls

variable (kept : m.Kept init code base) (boot : BootStack init base) (shows : m.Shows init code s)

include kept boot shows

theorem Machine.Shows.yield (ok : m.Orderly code env (.call .yield))
    (done : m.step code env .yield = .ok m') :
    ∃ s', s.Run (m.shows env m' (.call .yield)) s' ∧ m'.Shows init code s' := by
  have called := kept.called boot ok done
  obtain ⟨k', c'⟩ := m'
  obtain ⟨c₁, stepped, _, waits⟩ := kept.settled.timer boot ok.2.1 called.done
  cases Except.ok.inj (stepped.symm.trans (Machine.step_handle done))
  obtain ⟨root, Q, scheduled⟩ := kept.keeps.sched
  obtain ⟨p, yielded⟩ := scheduled.toQueued.yielded called.done
  obtain ⟨spares, same⟩ := called.unmoved rfl
  exact shows.switches kept.keeps spares called.effect.pids called.dead called.next yielded.keeps.created
    (Kernel.turn_dispatch called.done yielded.keeps.created rfl)
    (yielded.alive scheduled.current_alive) none_fits (same _ kept.keeps.cur) waits

theorem Machine.Shows.exit (ok : m.Orderly code env (.call .exit))
    (done : m.step code env .exit = .ok m') :
    ∃ s', s.Run (m.shows env m' (.call .exit)) s' ∧ m'.Shows init code s' := by
  have called := kept.called boot ok done
  obtain ⟨root, Q, scheduled⟩ := kept.keeps.sched
  obtain ⟨spares, _⟩ := called.unmoved rfl
  have exited := called.done
  rw [Kernel.step, sysExit] at exited
  split at exited
  · cases exited
  · rename_i notFirst
    obtain ⟨p, k₁, Q₁, again, yielded, _, dead⟩ := (scheduled.killed notFirst).yields
    cases Except.ok.inj (again.symm.trans exited)
    have created : m'.kernel.created = m.kernel.created := yielded.keeps.created
    refine shows.exits kept.keeps spares called.effect.pids called.dead called.next created
      (Kernel.turn_dispatch called.done created rfl) ((dead _ kept.keeps.cur).2 ?_)
    simp only [Kernel.setProc, Function.update_self]

theorem Machine.Shows.mmap {len flags fd : Nat} (ok : m.Orderly code env (.call (.mmap len flags fd)))
    (done : m.step code env (.mmap len flags fd) = .ok m') :
    ∃ s', s.Run (m.shows env m' (.call (.mmap len flags fd))) s' ∧ m'.Shows init code s' := by
  have called := kept.called boot ok done
  obtain ⟨k', c'⟩ := m'
  obtain ⟨⟨addr, k₁⟩, mapped, same⟩ := bind_eq_ok.mp called.done
  cases same
  obtain ⟨c₁, stepped, _, regs⟩ := kept.settled.maps boot ok.2.1 mapped
  cases Except.ok.inj (stepped.symm.trans (Machine.step_handle done))
  obtain ⟨root, Q, scheduled⟩ := kept.keeps.sched
  have quiet := sysMmap_quiet scheduled.sound mapped
  have created : k'.created = m.kernel.created := quiet.created
  have back : Waits code k' c' m.kernel.curthread (· ∈ m.cpu.regs.answered addr) := by
    rw [Waits, if_pos quiet.curthread]
    exact regs
  rcases sysMmap_answer ok.1.1 mapped with ⟨refusal, regions⟩ | ⟨refusal, rfl, longer⟩
  · have event : m.kernel.event env k' (.call (.other (.mmap len flags fd))) = none := by
      rw [Kernel.event, regions, if_pos rfl]
    obtain ⟨spares, same⟩ := called.unmoved event
    obtain ⟨s', step, shows'⟩ := shows.stays kept.keeps spares called.effect.pids called.dead called.next
      created (Kernel.turn_quiet called.done created rfl) none_fits (same _ kept.keeps.cur) back
    refine ⟨s', ?_, shows'⟩
    simp only [Machine.shows, refusal]
    exact .next .start step
  · have event : m.kernel.event env k' (.call (.other (.mmap len flags fd))) = some (.deed m.kernel.curthread
        (.extend (zeros m.kernel.proc.mmapBase (pgRoundup len)))) := by
      rw [Kernel.event, if_neg longer]
    obtain ⟨spares, space, fits⟩ := called.did kept.keeps.cur event
    obtain ⟨s', step, shows'⟩ := shows.stays kept.keeps spares called.effect.pids called.dead called.next
      created (Kernel.turn_quiet called.done created rfl) fits space back
    refine ⟨s', ?_, shows'⟩
    simp only [Machine.shows, refusal]
    exact .next .start step

theorem Machine.Shows.fork (ok : m.Orderly code env (.call .fork)) (done : m.step code env .fork = .ok m') :
    ∃ s', s.Run (m.shows env m' (.call .fork)) s' ∧ m'.Shows init code s' := by
  have called := kept.called boot ok done
  obtain ⟨k', c'⟩ := m'
  obtain ⟨⟨r, k₁⟩, forked, same⟩ := bind_eq_ok.mp called.done
  cases same
  obtain ⟨c₁, stepped, _, regs, young⟩ := kept.settled.forks boot ok.2.1 forked
  cases Except.ok.inj (stepped.symm.trans (Machine.step_handle done))
  obtain ⟨root, Q, scheduled⟩ := kept.keeps.sched
  obtain ⟨here, answered⟩ := sysFork_answer scheduled forked
  rcases answered with ⟨rfl, created⟩ | ⟨n, rfl, created, stranger, number, counted⟩
  · have nobody : k'.created[m.kernel.created.length]? = none := by
      rw [created, List.getElem?_eq_none (Nat.le_refl _)]
    have event : m.kernel.event env k' (.call (.other .fork)) = none := by
      rw [Kernel.event, nobody]
      rfl
    have back : Waits code k' c' m.kernel.curthread (· ∈ m.cpu.regs.answered 0xFFFFFFFF) := by
      rw [Waits, if_pos here]
      exact regs
    obtain ⟨spares, same⟩ := called.unmoved event
    obtain ⟨s', step, shows'⟩ := shows.stays kept.keeps spares called.effect.pids called.dead called.next
      created (Kernel.turn_quiet called.done created rfl) none_fits
      (same _ kept.keeps.cur) back
    refine ⟨s', ?_, shows'⟩
    simp only [Machine.shows, nobody]
    exact .next .start step
  · have newest : k'.created[m.kernel.created.length]? = some n := by
      rw [created, List.getElem?_concat_length]
    have event : m.kernel.event env k' (.call (.other .fork)) = some (.copy m.kernel.curthread n) := by
      rw [Kernel.event, newest]
      rfl
    have slot : m.kernel.pid ≤ maxprocs := ok.1.1
    have limit : maxprocs = 128 := rfl
    have more : m.kernel.pid < k'.pid := by
      rw [u32_of_lt (by omega)] at counted
      change k'.pid = m.kernel.pid + 1 at counted
      omega
    have answer : u32 ((m.kernel.pid : Int) + 0x100000000).toNat = m.kernel.pid := by
      have whole : ((m.kernel.pid : Int) + 0x100000000).toNat = m.kernel.pid + 0x100000000 := by omega
      rw [whole, u32]
      omega
    have back : Waits code k' c' m.kernel.curthread (· ∈ m.cpu.regs.answered (k'.procs n).pid) := by
      rw [Waits, if_pos here, number]
      rw [answer] at regs
      exact regs
    have memN : n ∈ k'.created := by
      rw [created]
      exact List.mem_append_right _ (List.mem_singleton_self n)
    have moved := called.moved
    rw [event] at moved
    have others : ∀ p ∈ m.kernel.created, k'.space p = m.kernel.space p := fun p mem =>
      moved.space_other mem fun e listed => by
        cases listed
        intro same
        have here : n = p := same
        exact stranger (here ▸ mem)
    have copy : k'.space n = m.kernel.space m.kernel.curthread := by
      rw [← Kernel.spaces_created memN, moved.spaces, ← Kernel.spaces_created kept.keeps.cur]
      exact Function.update_self _ _ _
    have spares : m.Spares code ⟨k', c'⟩ := fun p mem ne => ⟨others p mem, called.waits p mem ne⟩
    have turn : ∀ root Q, Scheduled init root Q m.kernel → ∃ Q', Scheduled init root Q' k' ∧
        Turn (m.kernel.turns Q) (some (.fork m.kernel.curthread n)) (k'.turns Q') :=
      Kernel.turn_fork called.done created
    obtain ⟨s', run, shows'⟩ := shows.forks kept.keeps spares called.effect.pids called.dead created turn
      number more (others _ kept.keeps.cur) copy back (young n memN stranger)
    refine ⟨s', ?_, shows'⟩
    simp only [Machine.shows, newest]
    exact run

theorem Machine.Shows.execve {path : List UInt8} (ok : m.Orderly code env (.call (.execve path)))
    (done : m.step code env (.execve path) = .ok m') :
    ∃ s', s.Run (m.shows env m' (.call (.execve path))) s' ∧ m'.Shows init code s' := by
  have called := kept.called boot ok done
  obtain ⟨k', c'⟩ := m'
  obtain ⟨root, Q, scheduled⟩ := kept.keeps.sched
  have executed := called.done
  rw [Kernel.step, sysExecve] at executed
  obtain ⟨⟨r, k₁⟩, loaded, after⟩ := bind_eq_ok.mp executed
  cases r with
  | none =>
      cases after
      obtain ⟨c₁, stepped, _, regs⟩ := kept.settled.execve_refused boot ok.2.1 loaded
      cases Except.ok.inj (stepped.symm.trans (Machine.step_handle done))
      have absent : env.initrd.program path = none := by
        rcases loadelf_cases loaded with ⟨_, absent, _⟩ | ⟨_, _, _, _, _, _, _, _, _, result, _⟩
        · exact absent
        · cases result
      have event : m.kernel.event env k' (.call (.other (.execve path))) = none := by
        rw [Kernel.event, Env.image, absent]
        rfl
      have quiet := (loadelf_quiet scheduled.sound loaded).1
      have back : Waits code k' c' m.kernel.curthread (· ∈ m.cpu.regs.answered 0xFFFFFFFF) := by
        rw [Waits, if_pos quiet.curthread]
        exact regs
      obtain ⟨spares, same⟩ := called.unmoved event
      obtain ⟨s', step, shows'⟩ := shows.stays kept.keeps spares called.effect.pids called.dead called.next
        quiet.created (Kernel.turn_quiet called.done quiet.created (by simp only [Kernel.switches, loaded]))
        none_fits (same _ kept.keeps.cur) back
      refine ⟨s', ?_, shows'⟩
      simp only [Machine.shows, absent]
      exact .next .start step
  | some p =>
      obtain ⟨c₁, stepped, _, waits⟩ := kept.settled.execve_loaded boot ok.2.1 loaded after
      cases Except.ok.inj (stepped.symm.trans (Machine.step_handle done))
      have quiet := scheduled.reloaded loaded
      have queued := (scheduled.quiet quiet).1
      obtain ⟨q, yielded⟩ := queued.toQueued.yielded after
      have created : k'.created = m.kernel.created := yielded.keeps.created.trans quiet.created
      rcases loadelf_cases loaded with ⟨refused, _⟩ |
        ⟨bin, cr3, entry, _, sz, regions, s₁, file, image, result, same⟩
      · cases refused
      cases Option.some.inj result
      obtain ⟨_, _, _, _, _, _, _, _, _, _, _, _, _, _, _, entered, _⟩ := loadImage_stages image
      have frame : k₁.frames m.kernel.proc.tf =
          { m.kernel.frames m.kernel.proc.tf with eip := entry, esp := kernelOffset } := by
        rw [same]
        simp only [Kernel.setFrame, Function.update_self]
      simp only [frame, entered] at waits
      have event : m.kernel.event env k' (.call (.other (.execve path))) = some (.deed
          m.kernel.curthread (.replace (programImage env.initrd.bytes bin (env.initrd.segments bin)))) := by
        rw [Kernel.event, Env.image, file]
        rfl
      obtain ⟨spares, space, fits⟩ := called.did kept.keeps.cur event
      have alive : (k'.procs m.kernel.curthread).state ≠ .dead := by
        apply yielded.alive
        rw [quiet.states _ kept.keeps.cur]
        exact scheduled.current_alive
      obtain ⟨s', run, shows'⟩ := shows.switches kept.keeps spares called.effect.pids called.dead called.next
        created (Kernel.turn_dispatch called.done created (by simp only [Kernel.switches, loaded])) alive
        fits space waits
      refine ⟨s', ?_, shows'⟩
      simp only [Machine.shows, file]
      exact run

omit boot in
theorem Machine.Shows.store {va : Nat} {byte : UInt8} (done : m.act code env (.store va byte) = .ok m') :
    m'.Kept init code base ∧
      ∃ s', s.Run (m.shows env m' (.store va byte)) s' ∧ m'.Shows init code s' := by
  obtain ⟨k, stored, result⟩ := bind_eq_ok.mp done
  cases result
  obtain ⟨moved, keeps⟩ := kept.keeps.step (c := .store va byte) trivial stored
  obtain ⟨pa, rfl⟩ : ∃ pa, k = m.kernel.poke pa byte := by
    rw [Kernel.userStep] at stored
    split at stored
    · cases leads : walk m.kernel.store.mem (p2v m.kernel.cr3) va with
      | none =>
          rw [leads] at stored
          cases stored
      | some pa =>
          rw [leads] at stored
          cases stored
          exact ⟨pa, rfl⟩
    · cases stored
  obtain ⟨space, fits⟩ := moved.space_deed kept.keeps.cur
  have settled := kept.settled
  refine ⟨⟨⟨⟨keeps.sched, settled.seated.esp0, settled.seated.tfs⟩, settled.scheduler, settled.waits⟩, keeps⟩,
    ?_⟩
  have spares : m.Spares code ⟨m.kernel.poke pa byte, m.cpu⟩ := fun p mem ne =>
    ⟨moved.space_other mem fun e listed => by cases listed; exact Ne.symm ne, fun Q waits => waits⟩
  have turn : ∀ root Q, Scheduled init root Q m.kernel → ∃ Q',
      Scheduled init root Q' (m.kernel.poke pa byte) ∧
        Turn (m.kernel.turns Q) none ((m.kernel.poke pa byte).turns Q') := by
    intro root Q scheduled
    have sound : (m.kernel.poke pa byte).store.Sound init := scheduled.sound.write rfl rfl
    have quiet : Quiet init m.kernel (m.kernel.poke pa byte) :=
      ⟨⟨sound, fun _ old => old⟩, fun _ _ => ⟨rfl, rfl, rfl⟩, rfl, rfl, rfl, rfl, rfl, rfl⟩
    exact ⟨Q, (scheduled.quiet quiet).1, scheduled.turn_quiet rfl fun _ _ => rfl⟩
  have here : Waits code (m.kernel.poke pa byte) m.cpu m.kernel.curthread
      (· ∈ ({m.cpu.regs} : Set Regs)) := by
    rw [Waits, if_pos (show (m.kernel.poke pa byte).curthread = m.kernel.curthread from rfl)]
    rfl
  obtain ⟨s', step, shows'⟩ : ∃ s', s.Step (.own {m.cpu.regs} (some (.store va byte))) s' ∧
      Machine.Shows init code ⟨m.kernel.poke pa byte, m.cpu⟩ s' := shows.stays kept.keeps spares
    (fun _ _ => rfl) (.refl _) (Nat.le_refl _) rfl turn (some_fits fits) space here
  exact ⟨s', .next .start step, shows'⟩

theorem Machine.Shows.compute {regs : Regs} (user : regs.User)
    (done : m.act code env (.compute regs) = .ok m') :
    m'.Kept init code base ∧ ∃ s', s.Run (m.shows env m' (.compute regs)) s' ∧ m'.Shows init code s' := by
  have computed : m.event code env (.compute regs) = .ok m' := done
  obtain ⟨settled, others⟩ := kept.settled.event boot (fun _ same => Event.compute.inj same ▸ user)
    (fun _ same => by cases same) computed
  cases done
  refine ⟨⟨settled, kept.keeps⟩, ?_⟩
  have here : Waits code m.kernel { m.cpu with regs := regs } m.kernel.curthread
      (· ∈ ({regs} : Set Regs)) := by
    rw [Waits, if_pos rfl]
    rfl
  have spares : m.Spares code ⟨m.kernel, { m.cpu with regs := regs }⟩ :=
    fun p mem ne => ⟨rfl, others p mem ne⟩
  obtain ⟨s', step, shows'⟩ : ∃ s', s.Step (.own {regs} none) s' ∧
      Machine.Shows init code ⟨m.kernel, { m.cpu with regs := regs }⟩ s' := shows.stays kept.keeps spares
    (fun _ _ => rfl) (.refl _) (Nat.le_refl _) rfl
    (fun root Q scheduled => ⟨Q, scheduled, scheduled.turn_quiet rfl fun _ _ => rfl⟩) none_fits rfl here
  exact ⟨s', .next .start step, shows'⟩

/-- Every step of the machine is what it means for the processes. -/
theorem Machine.Shows.act {a : Action} (ok : m.Orderly code env a) (done : m.act code env a = .ok m') :
    m'.Kept init code base ∧ ∃ s', s.Run (m.shows env m' a) s' ∧ m'.Shows init code s' := by
  cases a with
  | compute regs => exact shows.compute kept boot ok done
  | store va byte => exact shows.store kept done
  | call c =>
      refine ⟨(kept.called boot ok done).kept, ?_⟩
      cases c with
      | yield => exact shows.yield kept boot ok done
      | fork => exact shows.fork kept boot ok done
      | execve path => exact shows.execve kept boot ok done
      | exit => exact shows.exit kept boot ok done
      | mmap len flags fd => exact shows.mmap kept boot ok done
      | write addr byte => exact absurd ok.1 id

end Calls

/-! ## Runs -/

theorem Chronicle.run_shows {t t' : Chronicle} (kept : t.machine.Kept init code base)
    (boot : BootStack init base) (shows : t.machine.Shows init code s)
    (run : Runs (Chronicle.step code env) (fun t a => t.machine.Orderly code env a) t t') :
    t'.machine.Kept init code base ∧ ∃ new s', t'.log = new ++ t.log ∧ s.Run new s' ∧
      t'.machine.Shows init code s' := by
  induction run with
  | refl => exact ⟨kept, [], s, rfl, .start, shows⟩
  | @snoc t₁ t₂ a run ok done ih =>
      obtain ⟨kept₁, new, s₁, log, trace, shows₁⟩ := ih
      obtain ⟨m₂, acted, result⟩ := bind_eq_ok.mp done
      cases result
      obtain ⟨kept₂, s₂, trace₂, shows₂⟩ := shows₁.act kept₁ boot ok acted
      exact ⟨kept₂, _, s₂, by rw [log, List.append_assoc], trace.trans trace₂, shows₂⟩

end Step

/-! ## From the boot on -/

section Boot

variable {init : List Block} {code : Code} {base entry : Nat} {env : Env} {k₀ : Kernel} {c : Cpu}
  {m₀ : Machine} (atBoot : AtBoot init k₀) (tables : TablesAtBoot env k₀) (snug : SnugInit env)
  (stack : BootStack init base) (esp : c.regs.esp = base) (booted : code.boot env entry k₀ c = .ok m₀)

include atBoot tables snug stack esp booted

theorem Code.boot_shows : m₀.Kept init code base ∧ ∃ image, env.image (pathBytes "/sbin/init") = some image ∧
    m₀.Shows init code (.first 1 ⟨{m₀.cpu.regs}, image⟩) := by
  have settled := Code.boot_settled atBoot stack esp booted
  rw [Code.boot] at booted
  obtain ⟨k₁, first, afterBoot⟩ := bind_eq_ok.mp booted
  obtain ⟨k, sched, afterSched⟩ := bind_eq_ok.mp afterBoot
  obtain ⟨⟨k', c'⟩, dispatched, afterSwitch⟩ := bind_eq_ok.mp afterSched
  obtain ⟨_, _, result⟩ := bind_eq_ok.mp afterSwitch
  cases result
  obtain rfl := code.dispatch_kernel dispatched
  have started := boot_started atBoot first sched
  have faithful := started.faithful tables snug sched
  obtain ⟨root, scheduled⟩ := started.scheduled
  obtain ⟨kstack, idle, bin, cr3, start, start', sz, regions, s₁, s₂, s₃, took, file, _, _, _, _, _, _, next,
    created, number, _⟩ := started.stages
  have only : ∀ p, p ∈ k'.created ↔ p = kstack + 3992 := fun p => by rw [created, List.mem_singleton]
  have cur : k'.curthread = kstack + 3992 := (only _).mp scheduled.mem_created
  have log : (Journal.start env k').log = [.deed k'.curthread
      (.replace (programImage env.initrd.bytes bin (env.initrd.segments bin)))] := by
    rw [Journal.start, Env.image, file]
    rfl
  have space : k'.space k'.curthread = programImage env.initrd.bytes bin (env.initrd.segments bin) := by
    have spaces := faithful.spaces
    rw [log] at spaces
    have loaded := congrFun spaces k'.curthread
    rw [replay, MemoryEvent.on, Function.update_self] at loaded
    exact (Kernel.spaces_created scheduled.mem_created).symm.trans loaded
  refine ⟨⟨settled, faithful.keeps⟩, _, by rw [Env.image, file]; rfl, ?_, ⟨root, [], scheduled, rfl⟩,
    fun p mem alive => ?_, fun i mem => ?_⟩
  · rw [Kernel.proc, cur, number]
    rfl
  · have here : p = k'.curthread := ((only p).mp mem).trans cur.symm
    subst here
    refine ⟨{c'.regs}, ?_, ?_⟩
    · rw [space, cur, number, Sharing.first]
      simp only [Function.update_self]
    · rw [Waits, if_pos rfl]
      rfl
  · have one : i = 1 := mem
    change i < k'.pid
    rw [next, one]
    decide

variable {t : Chronicle}
  (run : Runs (Chronicle.step code env) (fun t a => t.machine.Orderly code env a) ⟨m₀, []⟩ t)

include run

theorem Chronicle.reached : t.machine.Kept init code base ∧ ∃ image s,
    env.image (pathBytes "/sbin/init") = some image ∧
      (Sharing.first 1 ⟨{m₀.cpu.regs}, image⟩).Run t.log s ∧ s.Ordered ∧ t.machine.Shows init code s := by
  obtain ⟨kept, image, file, shows⟩ := Code.boot_shows atBoot tables snug stack esp booted
  obtain ⟨kept', new, s, log, trace, shows'⟩ := Chronicle.run_shows (t := ⟨m₀, []⟩) kept stack shows run
  rw [List.append_nil] at log
  rw [← log] at trace
  exact ⟨kept', image, s, file, trace, trace.ordered (Sharing.first_ordered 1 _), shows'⟩

end Boot

end Trunix
