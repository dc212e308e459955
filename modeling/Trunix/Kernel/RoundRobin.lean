import Trunix.Kernel.Sched
import Trunix.Lib.Rounds

/-!
# Round robin

The machine with a record of the forks that made a child and of the processes the
scheduler switched to.  Its steps are the turns of a queue: a call that gives up the
processor moves the running process to the end and takes the first one that is ready.
-/

set_option autoImplicit false

namespace Trunix

open Trunix.Lib

def Kernel.switches (env : Env) (k : Kernel) : Call → Bool
  | .yield => true
  | .exit => true
  | .execve path =>
      match loadelf env k k.proc path with
      | .ok (some _, _) => true
      | _ => false
  | _ => false

/-- What a call that leads from `k` to `k'` shows: the child that was put into the run
queue, or the process that was dispatched. -/
def Kernel.moves (env : Env) (k : Kernel) (c : Call) (k' : Kernel) : List (Move Nat) :=
  (k'.created.drop k.created.length).map (.fork k.curthread) ++
    if k.switches env c then [.dispatch k'.curthread] else []

structure Traced where
  kernel : Kernel
  log : List (Move Nat)

def Traced.step (env : Env) (t : Traced) (c : Call) : Except Halt Traced := do
  let k ← t.kernel.step env c
  return ⟨k, t.log ++ t.kernel.moves env c k⟩

def Traced.Careful (env : Env) (t : Traced) (c : Call) : Prop := t.kernel.Careful env c

def Kernel.turns (k : Kernel) (Q : List Nat) : Turns Nat :=
  ⟨k.curthread, Q, fun p => decide ((k.procs p).state ≠ .dead)⟩

/-! ## Steps are turns -/

section Step

variable {init : List Block} {root : Nat} {Q Q' : List Nat} {env : Env} {k k' : Kernel}

theorem Queued.once (h : Queued init root Q k) : (k.turns Q).Once :=
  h.all.nodup_iff.mpr (List.nodup_cons.mp h.nodup).2

theorem Scheduled.turn_quiet (h : Scheduled init root Q k) (current : k'.curthread = k.curthread)
    (states : ∀ p ∈ k.created, (k'.procs p).state = (k.procs p).state) :
    Turn (k.turns Q) none (k'.turns Q) := by
  have turn := Turn.keep (k.turns Q) (k'.turns Q).live fun p mem => by
    simp only [Kernel.turns, states p (h.all.mem_iff.mp mem)]
  have same : { k.turns Q with live := (k'.turns Q).live } = k'.turns Q := by
    simp only [Kernel.turns, current]
  rw [same] at turn
  exact turn

theorem Quiet.states (q : Quiet init k k') : ∀ p ∈ k.created, (k'.procs p).state = (k.procs p).state :=
  fun p mem => (q.procs p (List.mem_cons_of_mem _ mem)).1

theorem Kernel.moves_of_created {c : Call} (created : k'.created = k.created) :
    k.moves env c k' = if k.switches env c then [.dispatch k'.curthread] else [] := by
  rw [Kernel.moves, created, List.drop_length, List.map_nil, List.nil_append]

/-- Giving up the processor in a state that differs from `k` only where the scheduler does
not look, or in that the running process has died. -/
theorem Queued.turn_yielded {k₁ : Kernel} (h : Queued init root Q k₁)
    (current : k₁.curthread = k.curthread) (states : ∀ p ∈ Q, (k₁.procs p).state = (k.procs p).state)
    (done : Trunix.yield k₁ = .ok k') :
    ∃ Q', Scheduled init root Q' k' ∧ Turn (k.turns Q) (some (.dispatch k'.curthread)) (k'.turns Q') ∧
      k'.created = k₁.created := by
  obtain ⟨p, k'', again, first, yielded, scheduled, _⟩ := h.next
  rw [done] at again
  cases again
  have here : k'.curthread = p := by rw [yielded.same]
  have created : k'.created = k₁.created := by rw [yielded.same]
  have isReady : k₁.parked p = .ready := by
    simpa using List.find?_some first
  -- whoever waits is alive exactly when it is ready
  have live : ∀ x ∈ Q ++ [k₁.curthread],
      decide ((k'.procs x).state ≠ .dead) = decide (k₁.parked x = .ready) := by
    intro x mem
    rw [yielded.procs]
    by_cases same : x = p
    · rw [same, isReady]
      simp
    · rcases h.parked_cases mem with ready | dead
      · simp [same, ready]
      · simp [same, dead]
  have turn := Turn.switch (k.turns Q) p (k'.turns Q).live (fun x mem => ?_) ?_
  · refine ⟨_, scheduled, ?_, created⟩
    have same : (⟨p, (Q ++ [k.curthread]).erase p, (k'.turns Q).live⟩ : Turns Nat) =
        k'.turns ((Q ++ [k₁.curthread]).erase p) := by
      simp only [Kernel.turns, here, current]
    rw [here, ← same]
    exact turn
  · have notCur : x ≠ k₁.curthread := fun same => h.not_waiting (same ▸ mem)
    have parked : k₁.parked x = (k₁.procs x).state := by
      rw [Kernel.parked, if_neg (fun both => notCur both.1)]
    have alive := live x (List.mem_append_left _ mem)
    simp only [Kernel.turns]
    rw [alive, parked, ← states x mem]
    rcases h.waiting x mem with ready | dead
    · simp [ready]
    · simp [dead]
  · simp only [Kernel.turns, ← current]
    rw [List.find?_congr live]
    exact first

theorem Scheduled.execve_turn {path : List UInt8} (h : Scheduled init root Q k)
    (done : sysExecve env k path = .ok k') :
    ∃ Q' m, Scheduled init root Q' k' ∧ Turn (k.turns Q) m (k'.turns Q') ∧
      k.moves env (.execve path) k' = m.toList := by
  rw [sysExecve] at done
  obtain ⟨⟨loaded, k₁⟩, loads, after⟩ := bind_eq_ok.mp done
  cases loaded with
  | none =>
      cases after
      have quiet := (loadelf_quiet h.sound loads).1
      refine ⟨Q, none, (h.quiet quiet).1, h.turn_quiet quiet.curthread quiet.states, ?_⟩
      rw [Kernel.moves_of_created quiet.created]
      simp only [Kernel.switches, loads]
      rfl
  | some p =>
      have quiet := h.reloaded loads
      obtain ⟨Q', scheduled, turn, created⟩ := (h.quiet quiet).1.toQueued.turn_yielded
        quiet.curthread (fun x mem => quiet.states x (h.waiting_created mem)) after
      refine ⟨Q', _, scheduled, turn, ?_⟩
      rw [Kernel.moves_of_created (created.trans quiet.created)]
      simp only [Kernel.switches, loads]
      rfl

/-- Every step of the machine is one turn, and shows the move of it. -/
theorem Scheduled.turn {c : Call} (h : Scheduled init root Q k) (done : k.step env c = .ok k') :
    ∃ Q' m, Scheduled init root Q' k' ∧ Turn (k.turns Q) m (k'.turns Q') ∧
      k.moves env c k' = m.toList := by
  cases c with
  | yield =>
      obtain ⟨Q', scheduled, turn, created⟩ := h.toQueued.turn_yielded (k := k) rfl (fun _ _ => rfl) done
      exact ⟨Q', _, scheduled, turn, Kernel.moves_of_created created⟩
  | fork =>
      obtain ⟨⟨r, k₁⟩, forked, same⟩ := bind_eq_ok.mp done
      cases same
      obtain ⟨child, scheduled, created, current, young, states⟩ := h.forked forked
      dsimp only at scheduled created current young states
      have shows : k.moves env .fork k' = child.toList.map (.fork k.curthread) := by
        rw [Kernel.moves, created, List.drop_left]
        exact List.append_nil _
      rw [shows]
      cases child with
      | none =>
          rw [Option.toList_none, List.append_nil] at scheduled
          exact ⟨Q, none, scheduled, h.turn_quiet current states, rfl⟩
      | some n =>
          obtain ⟨fresh, ready⟩ := young n rfl
          have turn := Turn.fork (k.turns Q) n (k'.turns Q).live
            (fun mem => fresh (h.all.mem_iff.mp mem)) (by simp [Kernel.turns, ready]) fun p mem => by
              simp only [Kernel.turns, states p (h.all.mem_iff.mp mem)]
          refine ⟨Q ++ [n], some (.fork k.curthread n), scheduled, ?_, rfl⟩
          have same : (⟨k.curthread, Q ++ [n], (k'.turns Q).live⟩ : Turns Nat) = k'.turns (Q ++ [n]) := by
            simp only [Kernel.turns, current]
          rw [← same]
          exact turn
  | execve path => exact h.execve_turn done
  | exit =>
      rw [Kernel.step, sysExit] at done
      split at done
      · cases done
      · rename_i notFirst
        have others : ∀ x ∈ Q, ((k.setProc k.curthread { k.proc with state := .dead }).procs x).state =
            (k.procs x).state := by
          intro x mem
          have ne : x ≠ k.curthread := fun same => h.not_waiting (same ▸ mem)
          simp only [Kernel.setProc, Function.update_of_ne ne]
        obtain ⟨Q', scheduled, turn, created⟩ :=
          (h.killed notFirst).turn_yielded (k := k) rfl others done
        exact ⟨Q', _, scheduled, turn, Kernel.moves_of_created created⟩
  | mmap len flags fd =>
      obtain ⟨⟨r, k₁⟩, mapped, same⟩ := bind_eq_ok.mp done
      cases same
      have quiet := sysMmap_quiet h.sound mapped
      exact ⟨Q, none, (h.quiet quiet).1, h.turn_quiet quiet.curthread quiet.states,
        Kernel.moves_of_created quiet.created⟩
  | write addr byte =>
      have quiet : Quiet init k k' := by
        cases done
        exact ⟨(Store.Grows.refl h.sound).write rfl rfl, fun _ _ => ⟨rfl, rfl, rfl⟩, rfl, rfl, rfl, rfl,
          rfl, rfl⟩
      exact ⟨Q, none, (h.quiet quiet).1, h.turn_quiet quiet.curthread quiet.states,
        Kernel.moves_of_created quiet.created⟩

end Step

/-! ## Runs -/

theorem Traced.trace {init : List Block} {root : Nat} {Q : List Nat} {env : Env} {t t' : Traced}
    {allowed : Traced → Call → Prop} (h : Scheduled init root Q t.kernel)
    (run : Runs (Traced.step env) allowed t t') :
    ∃ Q' log, Scheduled init root Q' t'.kernel ∧
      Trace (t.kernel.turns Q) log (t'.kernel.turns Q') ∧ t'.log = t.log ++ log := by
  induction run with
  | refl => exact ⟨Q, [], h, .start, (List.append_nil _).symm⟩
  | snoc c run ok done ih =>
      obtain ⟨Q₁, log, scheduled, trace, shown⟩ := ih
      obtain ⟨k, stepped, same⟩ := bind_eq_ok.mp done
      cases same
      obtain ⟨Q₂, m, scheduled', turn, moves⟩ := scheduled.turn stepped
      refine ⟨Q₂, _, scheduled', .next trace turn, ?_⟩
      simp only [shown, moves, List.append_assoc]

end Trunix
