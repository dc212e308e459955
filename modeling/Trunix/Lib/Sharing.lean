import Mathlib
import Trunix.Lib.Memories
import Trunix.Lib.Rounds

/-!
# Processes that share a processor

An abstract system of processes.  One of them runs and the others wait in line.  Each has a
memory of its own and registers to go on with; of these a process that waits may know no
more than what they can be, so they are a set.  What a process has changes by its own steps
only, and one that waits behind `n` others runs when the processor has changed hands `n + 1`
times.
-/

set_option autoImplicit false

namespace Trunix.Lib

universe u v w x

structure Process (ρ : Type v) (α : Type w) (β : Type x) where
  regs : Set ρ
  memory : α → Option β

/-- `names` are those that were ever given to a process. -/
structure Sharing (ι : Type u) (ρ : Type v) (α : Type w) (β : Type x) where
  running : ι
  waiting : List ι
  process : ι → Option (Process ρ α β)
  names : Set ι

/-- What happens in a system.  With `own` the running process goes on with other registers and
may have done something to its memory; with `fork` it and a child with a copy of its memory go
on with registers of their own. -/
inductive SharingEvent (ι : Type u) (ρ : Type v) (α : Type w) (β : Type x) where
  | own (regs : Set ρ) (deed : Option (Deed α β))
  | fork (child : ι) (regs young : Set ρ)
  | switch
  | exit

section Sharing

variable {ι : Type u} {ρ : Type v} {α : Type w} {β : Type x}

def SharingEvent.passes : SharingEvent ι ρ α β → Bool
  | .switch => true
  | .exit => true
  | _ => false

def Sharing.first [DecidableEq ι] (i : ι) (P : Process ρ α β) : Sharing ι ρ α β :=
  ⟨i, [], Function.update (fun _ => none) i (some P), {i}⟩

variable [DecidableEq ι] [DecidableEq α]

inductive Sharing.Step : Sharing ι ρ α β → SharingEvent ι ρ α β → Sharing ι ρ α β → Prop where
  | own (s : Sharing ι ρ α β) (P : Process ρ α β) (regs : Set ρ) (deed : Option (Deed α β))
      (there : s.process s.running = some P) (fits : ∀ d ∈ deed, d.Fits P.memory) :
      Step s (.own regs deed) { s with
        process := Function.update s.process s.running
          (some ⟨regs, deed.elim P.memory fun d => d.on P.memory⟩) }
  | fork (s : Sharing ι ρ α β) (P : Process ρ α β) (child : ι) (regs young : Set ρ)
      (there : s.process s.running = some P) (new : child ∉ s.names) :
      Step s (.fork child regs young)
        ⟨s.running, s.waiting ++ [child],
          Function.update (Function.update s.process s.running (some ⟨regs, P.memory⟩)) child
            (some ⟨young, P.memory⟩), insert child s.names⟩
  | switch (s : Sharing ι ρ α β) (next : ι) (rest : List ι)
      (first : s.waiting ++ [s.running] = next :: rest) :
      Step s .switch { s with running := next, waiting := rest }
  | exit (s : Sharing ι ρ α β) (next : ι) (rest : List ι) (first : s.waiting = next :: rest) :
      Step s .exit { s with
        running := next, waiting := rest, process := Function.update s.process s.running none }

/-- A run and its events, of which the last one comes first. -/
inductive Sharing.Run (s : Sharing ι ρ α β) : List (SharingEvent ι ρ α β) → Sharing ι ρ α β → Prop where
  | start : Run s [] s
  | next {log : List (SharingEvent ι ρ α β)} {t t' : Sharing ι ρ α β} {e : SharingEvent ι ρ α β}
      (run : Run s log t) (step : t.Step e t') : Run s (e :: log) t'

structure Sharing.Ordered (s : Sharing ι ρ α β) : Prop where
  once : (s.running :: s.waiting).Nodup
  alive : ∀ i, s.process i ≠ none ↔ i ∈ s.running :: s.waiting
  named : ∀ i ∈ s.running :: s.waiting, i ∈ s.names

variable {s s' t : Sharing ι ρ α β} {e : SharingEvent ι ρ α β} {log log' : List (SharingEvent ι ρ α β)}

theorem Sharing.Run.trans (run : Run s log t) (run' : Run t log' s') : Run s (log' ++ log) s' := by
  induction run' with
  | start => exact run
  | next _ step ih => exact .next ih step

omit [DecidableEq α] in
theorem Sharing.first_ordered (i : ι) (P : Process ρ α β) : (Sharing.first i P).Ordered := by
  refine ⟨List.nodup_singleton i, fun j => ?_, fun j mem => List.mem_singleton.mp mem⟩
  rw [Sharing.first, List.mem_singleton]
  by_cases here : j = i
  · subst here
    simp
  · simp [here]

/-! ## Steps -/

omit [DecidableEq α] in
theorem update_ne_none {f : ι → Option (Process ρ α β)} {i j : ι} {P : Process ρ α β} :
    Function.update f i (some P) j ≠ none ↔ j = i ∨ f j ≠ none := by
  by_cases here : j = i
  · subst here
    simp
  · simp [here]

theorem Sharing.Step.ordered (step : s.Step e s') (h : s.Ordered) : s'.Ordered := by
  obtain ⟨once, alive, named⟩ := h
  cases step with
  | own P regs deed there fits =>
      refine ⟨once, fun i => ?_, named⟩
      rw [update_ne_none, alive]
      exact or_iff_right_of_imp fun here => here ▸ List.mem_cons_self
  | fork P child regs young there new =>
      have stranger : child ∉ s.running :: s.waiting := fun old => new (named child old)
      refine ⟨?_, fun i => ?_, fun i mem => ?_⟩
      · rw [← List.cons_append, List.nodup_append]
        refine ⟨once, List.nodup_singleton child, fun i old j here same => ?_⟩
        rw [same, List.mem_singleton.mp here] at old
        exact stranger old
      · simp only
        rw [update_ne_none, update_ne_none, alive, ← List.cons_append, List.mem_append, List.mem_singleton,
          or_comm]
        refine or_congr_left (or_iff_right_of_imp fun here => here ▸ List.mem_cons_self)
      · simp only at mem ⊢
        rw [← List.cons_append, List.mem_append, List.mem_singleton] at mem
        rcases mem with old | here
        · exact Set.mem_insert_of_mem _ (named i old)
        · exact Or.inl here
  | switch next rest first =>
      have perm : (next :: rest).Perm (s.running :: s.waiting) := first ▸ List.perm_append_comm
      exact ⟨perm.nodup_iff.mpr once, fun i => (alive i).trans perm.mem_iff.symm,
        fun i mem => named i (perm.mem_iff.mp mem)⟩
  | exit next rest first =>
      rw [first] at once alive named
      obtain ⟨gone, once⟩ := List.nodup_cons.mp once
      refine ⟨once, fun i => ?_, fun i mem => named i (List.mem_cons_of_mem _ mem)⟩
      by_cases here : i = s.running
      · subst here
        simp [gone]
      · simp only
        rw [Function.update_of_ne here, alive, List.mem_cons, or_iff_right here]

theorem Sharing.Step.others (step : s.Step e s') (h : s.Ordered) {i : ι} (waits : i ∈ s.waiting) :
    s'.process i = s.process i := by
  have ne : i ≠ s.running := fun here => (List.nodup_cons.mp h.once).1 (here ▸ waits)
  cases step with
  | own P regs deed there fits => exact Function.update_of_ne ne _ _
  | fork P child regs young there new =>
      have other : i ≠ child := fun here => new (here ▸ h.named i (List.mem_cons_of_mem _ waits))
      simp only
      rw [Function.update_of_ne other, Function.update_of_ne ne]
  | switch next rest first => rfl
  | exit next rest first => exact Function.update_of_ne ne _ _

/-- Whoever waits comes one place closer when the processor changes hands, and not otherwise. -/
theorem Sharing.Step.ahead (step : s.Step e s') {i : ι} {ahead behind : List ι}
    (line : s.waiting = ahead ++ i :: behind) :
    ∃ behind', s'.running :: s'.waiting =
      if e.passes then ahead ++ i :: behind' else s.running :: (ahead ++ i :: behind') := by
  cases step with
  | own P regs deed there fits => exact ⟨behind, by rw [line]; rfl⟩
  | fork P child regs young there new =>
      refine ⟨behind ++ [child], ?_⟩
      simp only [line, List.append_assoc, List.cons_append]
      rfl
  | switch next rest first =>
      refine ⟨behind ++ [s.running], ?_⟩
      simp only [← first, line, List.append_assoc, List.cons_append]
      rfl
  | exit next rest first => exact ⟨behind, by simp only [← first, line]; rfl⟩

/-! ## Runs -/

theorem Sharing.Run.ordered (run : Run s log t) (h : s.Ordered) : t.Ordered := by
  induction run with
  | start => exact h
  | next _ step ih => exact step.ordered ih

theorem Sharing.Run.pair {e' : SharingEvent ι ρ α β} (run : s.Run [e', e] t) :
    ∃ s', s.Step e s' ∧ s'.Step e' t := by
  cases run with
  | next before second =>
      cases before with
      | next begun first =>
          cases begun
          exact ⟨_, first, second⟩

def turnsOf (log : List (SharingEvent ι ρ α β)) : Nat := log.countP SharingEvent.passes

/-- As long as the processor has changed hands no more often than there are others ahead, a
process waits and has what it had. -/
theorem Sharing.Run.waits (run : Run s log t) (h : s.Ordered) {i : ι} {ahead behind : List ι}
    (line : s.waiting = ahead ++ i :: behind) (few : turnsOf log ≤ ahead.length) :
    (∃ behind', t.waiting = ahead.drop (turnsOf log) ++ i :: behind') ∧ t.process i = s.process i := by
  induction run with
  | start => exact ⟨⟨behind, line⟩, rfl⟩
  | @next log t t' e run step ih =>
      rw [turnsOf, List.countP_cons] at few ⊢
      obtain ⟨⟨behind', now⟩, kept⟩ := ih (Nat.le_of_add_right_le few)
      have still := step.others (run.ordered h) (i := i) (by rw [now]; simp)
      obtain ⟨later, next⟩ := step.ahead now
      refine ⟨⟨later, ?_⟩, still.trans kept⟩
      change log.countP _ + _ ≤ _ at few
      cases passing : e.passes with
      | false =>
          simp only [passing, Bool.false_eq_true, if_false] at next ⊢
          exact (List.cons.inj next).2
      | true =>
          simp only [passing, if_true] at next few ⊢
          rw [← List.getElem_cons_drop (show turnsOf log < ahead.length from few), List.cons_append] at next
          exact (List.cons.inj next).2

/-- Behind `n` others a process has its turn when the processor changes hands for the
`n + 1`st time; it then has what it had. -/
theorem Sharing.Run.in_turn (run : Run s (e :: log) t) (h : s.Ordered) {i : ι} {ahead behind : List ι}
    (line : s.waiting = ahead ++ i :: behind) (passes : e.passes = true)
    (turn : turnsOf log = ahead.length) : t.running = i ∧ t.process i = s.process i := by
  cases run with
  | next run step =>
      obtain ⟨⟨behind', now⟩, kept⟩ := run.waits h line (Nat.le_of_eq turn)
      have still := step.others (run.ordered h) (i := i) (by rw [now]; simp)
      obtain ⟨later, next⟩ := step.ahead now
      rw [if_pos passes, turn, List.drop_length, List.nil_append] at next
      exact ⟨(List.cons.inj next).1, still.trans kept⟩

/-- A process that gives up the processor has it back when all that were in line have had it. -/
theorem Sharing.Run.back {s₁ : Sharing ι ρ α β} (step : s.Step .switch s₁) (h : s.Ordered)
    (run : s₁.Run log t) (turn : turnsOf log = s.waiting.length)
    (last : ∀ e ∈ log.head?, e.passes = true) :
    t.running = s.running ∧ t.process s.running = s.process s.running := by
  have ordered := step.ordered h
  cases step with
  | switch next rest first =>
      cases line : s.waiting with
      | nil =>
          rw [line] at first turn
          obtain ⟨rfl, rfl⟩ := List.cons.inj first
          cases run with
          | start => exact ⟨rfl, rfl⟩
          | @next log t t' e run step =>
              have passes : e.passes = true := last e rfl
              rw [turnsOf, List.countP_cons_of_pos passes] at turn
              exact absurd turn (Nat.succ_ne_zero _)
      | cons a ahead =>
          rw [line, List.cons_append] at first
          rw [line, List.length_cons] at turn
          obtain ⟨rfl, rfl⟩ := List.cons.inj first
          cases log with
          | nil => exact absurd turn (Nat.succ_ne_zero _).symm
          | cons e older =>
              have passes : e.passes = true := last e rfl
              rw [turnsOf, List.countP_cons_of_pos passes] at turn
              exact run.in_turn ordered rfl passes (Nat.succ.inj turn)

theorem Sharing.Run.away {s₁ : Sharing ι ρ α β} (step : s.Step .switch s₁) (h : s.Ordered)
    (run : s₁.Run log t) (few : turnsOf log < s.waiting.length) : t.running ≠ s.running := by
  have ordered := step.ordered h
  cases step with
  | switch next rest first =>
      cases line : s.waiting with
      | nil =>
          rw [line] at few
          exact absurd few (Nat.not_lt_zero _)
      | cons a ahead =>
          rw [line, List.cons_append] at first
          rw [line, List.length_cons] at few
          obtain ⟨rfl, rfl⟩ := List.cons.inj first
          obtain ⟨⟨behind, now⟩, _⟩ := run.waits ordered rfl (Nat.le_of_lt_succ few)
          intro here
          have once := (run.ordered ordered).once
          rw [here, now] at once
          exact (List.nodup_cons.mp once).1 (List.mem_append_right _ List.mem_cons_self)

end Sharing

/-! ## The line in a queue -/

section Line

variable {α : Type u} [DecidableEq α] {s t : Turns α} {p q c : α}

theorem find?_filter_erase {f : α → Bool} {L : List α} (first : L.find? f = some p) :
    L.filter f = p :: (L.erase p).filter f := by
  induction L with
  | nil => cases first
  | cons a L ih =>
      by_cases pos : f a = true
      · rw [List.find?_cons_of_pos pos] at first
        cases first
        rw [List.filter_cons_of_pos pos, List.erase_cons_head]
      · rw [List.find?_cons_of_neg pos] at first
        have ne : a ≠ p := fun same => pos (same ▸ List.find?_some first)
        rw [List.filter_cons_of_neg pos, List.erase_cons_tail (by simpa using ne),
          List.filter_cons_of_neg pos]
        exact ih first

/-- The live ones in the queue, in their order. -/
def Turns.line (t : Turns α) : List α := t.queue.filter t.live

theorem Turn.line_keep (turn : Turn s none t) : t.running = s.running ∧ t.line = s.line := by
  cases turn with
  | keep live same =>
      exact ⟨rfl, List.filter_congr fun x mem => same x (List.mem_cons_of_mem _ mem)⟩

theorem Turn.line_fork (turn : Turn s (some (.fork q c)) t) :
    t.running = s.running ∧ t.line = s.line ++ [c] := by
  cases turn with
  | fork c live fresh alive same =>
      refine ⟨rfl, ?_⟩
      have old := List.filter_congr fun x mem => same x (List.mem_cons_of_mem _ mem)
      rw [Turns.line, Turns.line, List.filter_append, old]
      simp [alive]

theorem Turn.line_switch (turn : Turn s (some (.dispatch p)) t) :
    t.running = p ∧ s.line ++ [s.running].filter t.live = p :: t.line := by
  cases turn with
  | switch p live same first =>
      have whole := find?_filter_erase first
      rw [List.filter_append, List.filter_congr same] at whole
      exact ⟨rfl, whole⟩

end Line

end Trunix.Lib
