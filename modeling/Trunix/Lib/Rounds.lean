import Mathlib

/-!
# Taking turns

One processor and a queue.  The running process may put new ones at the end of the
queue; when it lets go of the processor it goes to the end itself, alive or dead, and
the first live process of the queue is dispatched.  Between two dispatches of a process
everything that was alive in the queue at the first one has had exactly one turn, and so
has everything the process put there itself.
-/

set_option autoImplicit false

namespace Trunix.Lib

universe u

inductive Move (α : Type u) where
  | fork (parent child : α)
  | dispatch (p : α)
  deriving DecidableEq, Repr

structure Turns (α : Type u) where
  running : α
  queue : List α
  live : α → Bool

variable {α : Type u} {s t t' : Turns α} {log : List (Move α)}

/-- The processes that wait for a turn while `s.running` waits for its next one. -/
def Turns.Due (s : Turns α) (log : List (Move α)) (q : α) : Prop :=
  (q ∈ s.queue ∧ s.live q = true) ∨ Move.fork s.running q ∈ log

theorem Turns.Due.held {kids : List α} {q : α} (due : s.Due log q) (queue : t.queue = s.queue ++ kids)
    (live : ∀ x ∈ s.queue, t.live x = s.live x) (young : ∀ x ∈ kids, t.live x = true)
    (forks : ∀ c, Move.fork s.running c ∈ log → c ∈ kids) :
    q ∈ t.queue ∧ t.live q = true := by
  rw [queue]
  rcases due with ⟨mem, alive⟩ | forked
  · exact ⟨List.mem_append_left _ mem, (live q mem).trans alive⟩
  · exact ⟨List.mem_append_right _ (forks q forked), young q (forks q forked)⟩

/-- The first live process of a queue that holds a live one is that one, or it is ahead. -/
theorem find?_ahead {live : α → Bool} {ahead behind : List α} {p x : α}
    (first : (ahead ++ p :: behind).find? live = some x) (alive : live p = true) :
    x ∈ ahead ∨ x = p ∧ ∀ y ∈ ahead, live y = false := by
  rw [List.find?_append] at first
  cases found : ahead.find? live with
  | some y =>
      rw [found] at first
      cases first
      exact Or.inl (List.mem_of_find?_eq_some found)
  | none =>
      rw [found, Option.none_or, List.find?_cons_of_pos alive] at first
      refine Or.inr ⟨(Option.some.inj first).symm, fun y mem => ?_⟩
      simpa using List.find?_eq_none.mp found y mem

/-! ## Steps -/

variable [DecidableEq α]

/-- One step and the move it shows.  Only the running process can die. -/
inductive Turn : Turns α → Option (Move α) → Turns α → Prop where
  | keep (t : Turns α) (live : α → Bool) (same : ∀ x ∈ t.running :: t.queue, live x = t.live x) :
      Turn t none { t with live := live }
  | fork (t : Turns α) (c : α) (live : α → Bool) (fresh : c ∉ t.running :: t.queue)
      (alive : live c = true) (same : ∀ x ∈ t.running :: t.queue, live x = t.live x) :
      Turn t (some (.fork t.running c)) ⟨t.running, t.queue ++ [c], live⟩
  | switch (t : Turns α) (p : α) (live : α → Bool) (same : ∀ x ∈ t.queue, live x = t.live x)
      (first : (t.queue ++ [t.running]).find? live = some p) :
      Turn t (some (.dispatch p)) ⟨p, (t.queue ++ [t.running]).erase p, live⟩

inductive Trace (s : Turns α) : List (Move α) → Turns α → Prop where
  | start : Trace s [] s
  | next {log : List (Move α)} {t t' : Turns α} {m : Option (Move α)} (trace : Trace s log t)
      (turn : Turn t m t') : Trace s (log ++ m.toList) t'

/-! ## Every process has one place -/

def Turns.Once (t : Turns α) : Prop := (t.running :: t.queue).Nodup

theorem Turn.once {m : Option (Move α)} (turn : Turn t m t') (once : t.Once) : t'.Once := by
  unfold Turns.Once at once ⊢
  cases turn with
  | keep live same => exact once
  | fork c live fresh alive same =>
      rw [← List.cons_append, List.nodup_append]
      exact ⟨once, List.nodup_singleton c, fun a old b new => by
        rw [List.mem_singleton.mp new]
        exact fun here => fresh (here ▸ old)⟩
  | switch p live same first =>
      have member := List.mem_of_find?_eq_some first
      have perm : (p :: (t.queue ++ [t.running]).erase p).Perm (t.running :: t.queue) :=
        (List.perm_cons_erase member).symm.trans List.perm_append_comm
      exact perm.nodup_iff.mpr once

theorem Trace.once (trace : Trace s log t) (once : s.Once) : t.Once := by
  induction trace with
  | start => exact once
  | next trace turn ih => exact turn.once ih

/-- Since `s` the process `s.running` has not been dispatched.  Either it still runs, or
it waits, and as long as it is alive those ahead of it that are due are exactly the ones
that have not had their turn. -/
inductive Owed (s : Turns α) (log : List (Move α)) (t : Turns α) : Prop where
  | holding (kids : List α) (running : t.running = s.running) (queue : t.queue = s.queue ++ kids)
      (live : ∀ x ∈ s.queue, t.live x = s.live x) (young : ∀ x ∈ kids, t.live x = true)
      (forks : ∀ c, Move.fork s.running c ∈ log → c ∈ kids) (none : ∀ q, Move.dispatch q ∉ log)
  | waiting (ahead behind : List α) (queue : t.queue = ahead ++ s.running :: behind)
      (owed : t.live s.running = true → ∀ q, s.Due log q →
        (q ∈ ahead ∧ t.live q = true ∧ log.count (.dispatch q) = 0) ∨
          (q ∉ ahead ∧ log.count (.dispatch q) = 1))

theorem Owed.keep {live : α → Bool} (h : Owed s log t)
    (same : ∀ x ∈ t.running :: t.queue, live x = t.live x) : Owed s log { t with live := live } := by
  cases h with
  | holding kids running queue old young forks none =>
      refine .holding kids running queue (fun x mem => ?_) (fun x mem => ?_) forks none
      · exact (same x (by rw [queue]; simp [mem])).trans (old x mem)
      · exact (same x (by rw [queue]; simp [mem])).trans (young x mem)
  | waiting ahead behind queue owed =>
      have inQueue : ∀ x ∈ ahead, live x = t.live x := fun x mem => same x (by rw [queue]; simp [mem])
      have self : live s.running = t.live s.running := same _ (by rw [queue]; simp)
      refine .waiting ahead behind queue fun alive q due => ?_
      rcases owed (self ▸ alive) q due with ⟨mem, liveQ, count⟩ | served
      · exact Or.inl ⟨mem, (inQueue q mem).trans liveQ, count⟩
      · exact Or.inr served

theorem Owed.fork {c : α} {live : α → Bool} (h : Owed s log t) (once : t.Once)
    (alive : live c = true) (same : ∀ x ∈ t.running :: t.queue, live x = t.live x) :
    Owed s (log ++ [.fork t.running c]) ⟨t.running, t.queue ++ [c], live⟩ := by
  cases h with
  | holding kids running queue old young forks none =>
      refine .holding (kids ++ [c]) running ?_ (fun x mem => ?_) (fun x mem => ?_) (fun d mem => ?_)
        fun q mem => ?_
      · rw [queue, List.append_assoc]
      · exact (same x (by rw [queue]; simp [mem])).trans (old x mem)
      · rcases List.mem_append.mp mem with kid | new
        · exact (same x (by rw [queue]; simp [kid])).trans (young x kid)
        · rw [List.mem_singleton.mp new]
          exact alive
      · rcases List.mem_append.mp mem with before | new
        · exact List.mem_append_left _ (forks d before)
        · obtain ⟨_, same⟩ := Move.fork.inj (List.mem_singleton.mp new)
          exact List.mem_append_right _ (List.mem_singleton.mpr same)
      · rcases List.mem_append.mp mem with before | new
        · exact none q before
        · cases List.mem_singleton.mp new
  | waiting ahead behind queue owed =>
      have inQueue : ∀ x ∈ ahead, live x = t.live x := fun x mem => same x (by rw [queue]; simp [mem])
      have self : live s.running = t.live s.running := same _ (by rw [queue]; simp)
      -- the parent of `c` is not the waiting process
      have other : s.running ≠ t.running := by
        intro here
        exact (List.nodup_cons.mp once).1 (by rw [queue, ← here]; simp)
      refine .waiting ahead (behind ++ [c]) ?_ fun liveP q due => ?_
      · simp [queue]
      · have due' : s.Due log q := by
          rcases due with waits | forked
          · exact Or.inl waits
          · rcases List.mem_append.mp forked with before | new
            · exact Or.inr before
            · exact absurd (Move.fork.inj (List.mem_singleton.mp new)).1 other
        have count : (log ++ [Move.fork t.running c]).count (.dispatch q) = log.count (.dispatch q) := by
          simp
        rw [count]
        rcases owed (self ▸ liveP) q due' with ⟨mem, liveQ, zero⟩ | served
        · exact Or.inl ⟨mem, (inQueue q mem).trans liveQ, zero⟩
        · exact Or.inr served

theorem Owed.switch {x : α} {live : α → Bool} (h : Owed s log t) (once : t.Once) (other : x ≠ s.running)
    (same : ∀ y ∈ t.queue, live y = t.live y)
    (first : (t.queue ++ [t.running]).find? live = some x) :
    Owed s (log ++ [.dispatch x]) ⟨x, (t.queue ++ [t.running]).erase x, live⟩ := by
  have member := List.mem_of_find?_eq_some first
  have nodup : t.queue.Nodup := (List.nodup_cons.mp once).2
  have due' : ∀ q, s.Due (log ++ [.dispatch x]) q → s.Due log q := by
    intro q due
    rcases due with waits | forked
    · exact Or.inl waits
    · rcases List.mem_append.mp forked with before | new
      · exact Or.inr before
      · cases List.mem_singleton.mp new
  have counted : (log ++ [Move.dispatch x]).count (.dispatch x) = log.count (.dispatch x) + 1 := by
    simp
  have uncounted : ∀ q, q ≠ x →
      (log ++ [Move.dispatch x]).count (.dispatch q) = log.count (.dispatch q) := by
    intro q ne
    simp [ne.symm]
  cases h with
  | holding kids running queue old young forks none =>
      have mem : x ∈ t.queue := by
        rcases List.mem_append.mp member with here | last
        · exact here
        · rw [List.mem_singleton.mp last, running] at other
          exact absurd rfl other
      have zero : ∀ q, log.count (.dispatch q) = 0 := fun q => List.count_eq_zero.mpr (none q)
      refine .waiting (t.queue.erase x) [] ?_ fun _ q due => ?_
      · rw [← running]
        exact List.erase_append_left _ mem
      · obtain ⟨inQueue, alive⟩ := (due' q due).held queue old young forks
        by_cases here : q = x
        · subst here
          exact Or.inr ⟨nodup.not_mem_erase, by rw [counted, zero]⟩
        · left
          rw [uncounted q here, zero]
          exact ⟨(List.mem_erase_of_ne here).mpr inQueue, (same q inQueue).trans alive, rfl⟩
  | waiting ahead behind queue owed =>
      have self : live s.running = t.live s.running := same _ (by rw [queue]; simp)
      rw [queue] at nodup
      have nodupAhead : ahead.Nodup := (List.nodup_append.mp nodup).1
      have whole : t.queue ++ [t.running] = ahead ++ s.running :: (behind ++ [t.running]) := by
        rw [queue, List.append_assoc, List.cons_append]
      rw [whole] at first ⊢
      by_cases front : x ∈ ahead
      · refine .waiting (ahead.erase x) (behind ++ [t.running]) ?_ fun alive q due => ?_
        · exact List.erase_append_left _ front
        · rcases owed (self ▸ alive) q (due' q due) with ⟨mem, liveQ, zero⟩ | ⟨out, one⟩
          · by_cases here : q = x
            · subst here
              exact Or.inr ⟨nodupAhead.not_mem_erase, by rw [counted, zero]⟩
            · left
              rw [uncounted q here]
              refine ⟨(List.mem_erase_of_ne here).mpr mem, ?_, zero⟩
              exact (same q (by rw [queue]; simp [mem])).trans liveQ
          · right
            rw [uncounted q fun here => out (here ▸ front)]
            exact ⟨fun mem => out (List.mem_of_mem_erase mem), one⟩
      · refine .waiting ahead ((behind ++ [t.running]).erase x) ?_ fun alive => ?_
        · rw [List.erase_append_right _ front, List.erase_cons_tail]
          simpa using other.symm
        · rcases find?_ahead first alive with inFront | ⟨here, _⟩
          · exact absurd inFront front
          · exact absurd here other

theorem Owed.turn {m : Option (Move α)} (h : Owed s log t) (once : t.Once) (turn : Turn t m t')
    (other : m ≠ some (.dispatch s.running)) : Owed s (log ++ m.toList) t' := by
  cases turn with
  | keep live same =>
      rw [Option.toList_none, List.append_nil]
      exact h.keep same
  | fork c live fresh alive same => exact h.fork once alive same
  | switch x live same first =>
      have ne : x ≠ s.running := by
        intro here
        rw [here] at other
        exact other rfl
      exact h.switch once ne same first

/-- When it is dispatched again, everything due has had its turn. -/
theorem Owed.served {q : α} (h : Owed s log t) (once : t.Once)
    (turn : Turn t (some (.dispatch s.running)) t') (due : s.Due log q) :
    log.count (.dispatch q) = 1 := by
  cases turn with
  | switch p live same first =>
      have alive : live s.running = true := List.find?_some first
      cases h with
      | holding kids running queue old young forks none =>
          obtain ⟨inQueue, liveQ⟩ := due.held queue old young forks
          rw [← running] at first alive
          rcases find?_ahead first alive with front | ⟨_, dead⟩
          · exact absurd front (List.nodup_cons.mp once).1
          · have deadQ := dead q inQueue
            rw [same q inQueue, liveQ] at deadQ
            cases deadQ
      | waiting ahead behind queue owed =>
          have self : live s.running = t.live s.running := same _ (by rw [queue]; simp)
          have apart : s.running ∉ ahead := by
            have nodup := (List.nodup_cons.mp once).2
            rw [queue] at nodup
            exact fun mem => (List.nodup_append.mp nodup).2.2 _ mem _ List.mem_cons_self rfl
          rw [queue, List.append_assoc, List.cons_append] at first
          rcases owed (self ▸ alive) q due with ⟨mem, liveQ, _⟩ | ⟨_, one⟩
          · rcases find?_ahead first alive with front | ⟨_, dead⟩
            · exact absurd front apart
            · have deadQ := dead q mem
              rw [same q (by rw [queue]; simp [mem]), liveQ] at deadQ
              cases deadQ
          · exact one

/-! ## Runs -/

theorem Trace.owed (trace : Trace s log t) (once : s.Once)
    (first : Move.dispatch s.running ∉ log) : Owed s log t := by
  induction trace with
  | start =>
      exact .holding [] rfl (List.append_nil _).symm (fun _ _ => rfl) (fun _ mem => absurd mem List.not_mem_nil)
        (fun _ mem => absurd mem List.not_mem_nil) fun _ => List.not_mem_nil
  | @next log t t' m trace turn ih =>
      refine (ih fun mem => first (List.mem_append_left _ mem)).turn (trace.once once) turn fun here => ?_
      apply first
      rw [here]
      exact List.mem_append_right _ (List.mem_singleton_self _)

end Trunix.Lib
