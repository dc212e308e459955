import Mathlib

/-!
# Tail queues

The tail queue of `sys/queue.h` over a store of entries: every element links to the next
one and back to the place that holds the link to itself, and the head knows the place of
the last link.  `Holds q L` says that the queue is the list `L`; the operations are then
appending to `L`, erasing from it and searching it.
-/

set_option autoImplicit false

namespace Trunix.Lib

/-- A place that holds a link: the head of the queue or the `next` field of an element. -/
inductive TailqRef where
  | null
  | head
  | next (p : Nat)
  deriving DecidableEq, Repr

structure TailqEntry where
  next : Nat
  prev : TailqRef
  deriving DecidableEq, Repr

structure Tailq where
  first : Nat
  last : TailqRef
  entry : Nat → TailqEntry

namespace Tailq

def read (q : Tailq) : TailqRef → Nat
  | .null => 0
  | .head => q.first
  | .next p => (q.entry p).next

def setEntry (q : Tailq) (p : Nat) (e : TailqEntry) : Tailq :=
  { q with entry := Function.update q.entry p e }

/-- A store through a link; there is nothing at `null`. -/
def write (q : Tailq) (r : TailqRef) (v : Nat) : Option Tailq :=
  match r with
  | .null => none
  | .head => some { q with first := v }
  | .next p => some (q.setEntry p { q.entry p with next := v })

def insertTail (q : Tailq) (p : Nat) : Option Tailq :=
  let q := q.setEntry p ⟨0, q.last⟩
  match q.write q.last p with
  | none => none
  | some q => some { q with last := .next p }

def remove (q : Tailq) (p : Nat) : Option Tailq :=
  let e := q.entry p
  let q :=
    if e.next ≠ 0 then q.setEntry e.next { q.entry e.next with prev := e.prev }
    else { q with last := e.prev }
  q.write e.prev e.next

/-- The first element from `p` on that passes the test; the outer `none` is for a walk
that does not end. -/
def search (q : Tailq) (test : Nat → Bool) : Nat → Nat → Option (Option Nat)
  | 0, _ => none
  | fuel + 1, p =>
      if p = 0 then some none
      else if test p then some (some p)
      else search q test fuel (q.entry p).next

/-! ## Queues as lists -/

/-- The links from the place `r` on run through `L`. -/
def Chain (q : Tailq) : TailqRef → List Nat → Prop
  | r, [] => q.read r = 0 ∧ q.last = r
  | r, p :: rest => q.read r = p ∧ p ≠ 0 ∧ (q.entry p).prev = r ∧ Chain q (.next p) rest

structure Holds (q : Tailq) (L : List Nat) : Prop where
  nodup : L.Nodup
  chain : q.Chain .head L

theorem search_chain {q : Tailq} (test : Nat → Bool) : ∀ (L : List Nat) (r : TailqRef) (fuel : Nat),
    q.Chain r L → L.length < fuel → q.search test fuel (q.read r) = some (L.find? test) := by
  intro L
  induction L with
  | nil =>
      intro r fuel chain enough
      obtain ⟨fuel, rfl⟩ := Nat.exists_eq_succ_of_ne_zero (Nat.ne_of_gt enough)
      simp [search, chain.1]
  | cons p rest ih =>
      intro r fuel chain enough
      obtain ⟨here, nonnull, _, tail⟩ := chain
      obtain ⟨fuel, rfl⟩ := Nat.exists_eq_succ_of_ne_zero (Nat.ne_of_gt (Nat.zero_lt_of_lt enough))
      rw [here]
      by_cases found : test p = true
      · simp [search, nonnull, found]
      · have later := ih (.next p) fuel tail (Nat.lt_of_succ_lt_succ enough)
        simp only [read] at later
        simp [search, nonnull, found, later]

def lastRef : TailqRef → List Nat → TailqRef
  | r, [] => r
  | _, p :: rest => lastRef (.next p) rest

theorem Chain.last_eq {q : Tailq} : ∀ (L : List Nat) (r : TailqRef), q.Chain r L →
    q.last = lastRef r L ∧ q.read (lastRef r L) = 0 := by
  intro L
  induction L with
  | nil => intro r chain; exact ⟨chain.2, chain.1⟩
  | cons p rest ih => intro r chain; exact ih (.next p) chain.2.2.2

theorem lastRef_cases : ∀ (L : List Nat) (r : TailqRef),
    lastRef r L = r ∨ ∃ p ∈ L, lastRef r L = .next p := by
  intro L
  induction L with
  | nil => intro r; exact Or.inl rfl
  | cons p rest ih =>
      intro r
      rcases ih (.next p) with here | ⟨s, mem, there⟩
      · exact Or.inr ⟨p, List.mem_cons_self, here⟩
      · exact Or.inr ⟨s, List.mem_cons_of_mem _ mem, there⟩

/-- Appending: the last link now leads to the new element. -/
theorem Chain.append {q q' : Tailq} {e : Nat} : ∀ (L : List Nat) (r : TailqRef), q.Chain r L →
    L.Nodup → e ∉ L → e ≠ 0 → r ≠ .next e → (∀ p ∈ L, r ≠ .next p) →
    (∀ s, s ≠ lastRef r L → s ≠ .next e → q'.read s = q.read s) → q'.read (lastRef r L) = e →
    q'.read (.next e) = 0 → q'.last = .next e → (q'.entry e).prev = lastRef r L →
    (∀ p, p ≠ e → (q'.entry p).prev = (q.entry p).prev) → q'.Chain r (L ++ [e]) := by
  intro L
  induction L with
  | nil =>
      intro r _ _ _ nonnull _ _ _ link stop last prev _
      exact ⟨link, nonnull, prev, stop, last⟩
  | cons p rest ih =>
      intro r chain nodup fresh nonnull notE notIn others link stop last prev back
      obtain ⟨here, nonnullP, prevP, tail⟩ := chain
      obtain ⟨notMem, nodupRest⟩ := List.nodup_cons.mp nodup
      have neE : p ≠ e := fun same => fresh (same ▸ List.mem_cons_self)
      have notLast : r ≠ lastRef r (p :: rest) := by
        rcases lastRef_cases rest (.next p) with first | ⟨s, mem, later⟩
        · rw [lastRef, first]
          exact notIn p List.mem_cons_self
        · rw [lastRef, later]
          exact notIn s (List.mem_cons_of_mem _ mem)
      refine ⟨(others r notLast notE).trans here, nonnullP, (back p neE).trans prevP, ?_⟩
      apply ih (.next p) tail nodupRest (fun mem => fresh (List.mem_cons_of_mem _ mem)) nonnull
        (fun same => neE (TailqRef.next.inj same)) ?_ others link stop last prev back
      intro s mem same
      exact notMem (TailqRef.next.inj same ▸ mem)

theorem setEntry_self (q : Tailq) (p : Nat) (e : TailqEntry) : (q.setEntry p e).entry p = e := by
  simp [setEntry]

theorem setEntry_of_ne (q : Tailq) {p x : Nat} (e : TailqEntry) (h : x ≠ p) :
    (q.setEntry p e).entry x = q.entry x := by
  simp [setEntry, h]

theorem write_spec {q : Tailq} {r : TailqRef} (v : Nat) (nonnull : r ≠ .null) :
    ∃ q', q.write r v = some q' ∧ q'.read r = v ∧ (∀ s, s ≠ r → q'.read s = q.read s) ∧
      q'.last = q.last ∧ ∀ p, (q'.entry p).prev = (q.entry p).prev := by
  cases r with
  | null => exact absurd rfl nonnull
  | head =>
      refine ⟨{ q with first := v }, rfl, rfl, fun s ne => ?_, rfl, fun _ => rfl⟩
      cases s with
      | null => rfl
      | head => exact absurd rfl ne
      | next p => rfl
  | next p =>
      refine ⟨q.setEntry p { q.entry p with next := v }, rfl, ?_, fun s ne => ?_, rfl, fun x => ?_⟩
      · simp only [read, setEntry_self]
      · cases s with
        | null => rfl
        | head => rfl
        | next x =>
            have other : x ≠ p := fun same => ne (congrArg TailqRef.next same)
            simp only [read, setEntry_of_ne q _ other]
      · by_cases same : x = p
        · rw [same, setEntry_self]
        · rw [setEntry_of_ne q _ same]

theorem lastRef_head_ne {L : List Nat} : lastRef .head L ≠ .null := by
  rcases lastRef_cases L .head with here | ⟨p, _, there⟩
  · rw [here]
    exact nofun
  · rw [there]
    exact nofun

theorem Holds.insertTail {q : Tailq} {L : List Nat} {e : Nat} (h : q.Holds L) (fresh : e ∉ L)
    (nonnull : e ≠ 0) : ∃ q', q.insertTail e = some q' ∧ q'.Holds (L ++ [e]) := by
  obtain ⟨lastEq, _⟩ := h.chain.last_eq
  let q₁ := q.setEntry e ⟨0, q.last⟩
  have lastNe : lastRef .head L ≠ .next e := by
    rcases lastRef_cases L .head with here | ⟨p, mem, there⟩
    · rw [here]
      exact nofun
    · rw [there]
      intro same
      exact fresh (TailqRef.next.inj same ▸ mem)
  have read₁ : ∀ s, s ≠ .next e → q₁.read s = q.read s := by
    intro s ne
    cases s with
    | null => rfl
    | head => rfl
    | next x =>
        have other : x ≠ e := fun same => ne (congrArg TailqRef.next same)
        simp only [read, q₁, setEntry_of_ne q _ other]
  have last₁ : q₁.last = lastRef .head L := lastEq
  obtain ⟨q₂, written, link, others, last₂, back⟩ :=
    write_spec (q := q₁) (r := q₁.last) e (by rw [last₁]; exact lastRef_head_ne)
  rw [last₁] at link others
  refine ⟨{ q₂ with last := .next e }, ?_, ⟨?_, ?_⟩⟩
  · have unfolded : q.insertTail e = match q₁.write q₁.last e with
        | none => none
        | some q => some { q with last := .next e } := rfl
    rw [unfolded, written]
  · exact List.nodup_append.mpr ⟨h.nodup, List.nodup_singleton e, by
      intro a mem b single same
      exact fresh (List.mem_singleton.mp single ▸ same ▸ mem)⟩
  · have reads : ∀ s, ({ q₂ with last := .next e } : Tailq).read s = q₂.read s := by
      intro s
      cases s <;> rfl
    apply Chain.append L .head h.chain h.nodup fresh nonnull nofun (fun _ _ => nofun)
    · intro s notLast notE
      rw [reads, others s notLast, read₁ s notE]
    · rw [reads, link]
    · rw [reads, others _ lastNe.symm]
      simp only [read, q₁, setEntry_self]
    · rfl
    · rw [← last₁]
      have := back e
      simp only [q₁, setEntry_self] at this ⊢
      exact this
    · intro p ne
      have := back p
      simp only [q₁, setEntry_of_ne q _ ne] at this
      exact this

theorem Chain.congr {q q' : Tailq} : ∀ (L : List Nat) (r : TailqRef), q.Chain r L →
    q'.read r = q.read r → (∀ p ∈ L, q'.entry p = q.entry p) → q'.last = q.last → q'.Chain r L := by
  intro L
  induction L with
  | nil => intro r chain here _ last; exact ⟨here.trans chain.1, last.trans chain.2⟩
  | cons p rest ih =>
      intro r chain here same last
      obtain ⟨link, nonnull, prev, tail⟩ := chain
      have entry := same p List.mem_cons_self
      refine ⟨here.trans link, nonnull, by rw [entry]; exact prev, ?_⟩
      exact ih (.next p) tail (by simp only [read, entry])
        (fun x mem => same x (List.mem_cons_of_mem _ mem)) last

theorem Chain.next_eq {q : Tailq} {p x : Nat} {rest : List Nat} : ∀ (pre : List Nat) (r : TailqRef),
    q.Chain r (pre ++ p :: x :: rest) → (q.entry p).next = x := by
  intro pre
  induction pre with
  | nil => intro r chain; exact chain.2.2.2.1
  | cons y pre ih => intro r chain; exact ih (.next y) chain.2.2.2

theorem Chain.prev_eq {q : Tailq} {p : Nat} {post : List Nat} : ∀ (pre : List Nat) (r : TailqRef),
    q.Chain r (pre ++ p :: post) → (q.entry p).prev = lastRef r pre := by
  intro pre
  induction pre with
  | nil => intro r chain; exact chain.2.2.1
  | cons y pre ih => intro r chain; exact ih (.next y) chain.2.2.2

/-- Taking `p` out: the link in front of it now skips it, and what comes behind it knows
the place of that link. -/
theorem Chain.erase {q q' : Tailq} {p : Nat} {post : List Nat} : ∀ (pre : List Nat) (r : TailqRef),
    q.Chain r (pre ++ p :: post) → (pre ++ p :: post).Nodup → (∀ x ∈ pre ++ p :: post, r ≠ .next x) →
    q'.read (lastRef r pre) = (q.entry p).next → (∀ s, s ≠ lastRef r pre → q'.read s = q.read s) →
    (∀ x, x ≠ (q.entry p).next ∨ post = [] → (q'.entry x).prev = (q.entry x).prev) →
    (post ≠ [] → (q'.entry (q.entry p).next).prev = lastRef r pre ∧ q'.last = q.last) →
    (post = [] → q'.last = lastRef r pre) → q'.Chain r (pre ++ post) := by
  intro pre
  induction pre with
  | nil =>
      intro r chain nodup notIn link others back behind stop
      obtain ⟨_, _, _, tail⟩ := chain
      cases post with
      | nil =>
          obtain ⟨stopped, _⟩ := tail
          exact ⟨link.trans stopped, stop rfl⟩
      | cons x rest =>
          obtain ⟨next, nonnull, _, more⟩ := tail
          have nextEq : (q.entry p).next = x := next
          obtain ⟨behindPrev, behindLast⟩ := behind (by simp)
          rw [nextEq] at link behindPrev back
          refine ⟨link, nonnull, behindPrev, ?_⟩
          have nodupRest := (List.nodup_cons.mp (List.nodup_cons.mp nodup).2)
          apply Chain.congr rest (.next x) more (others _ ?_) ?_ behindLast
          · exact (notIn x (by simp)).symm
          · intro y mem
            have ne : y ≠ x := fun same => nodupRest.1 (same ▸ mem)
            have sameNext := others (.next y) (notIn y (by simp [mem])).symm
            have samePrev := back y (Or.inl ne)
            simp only [read] at sameNext
            cases here : q'.entry y with
            | mk next' prev' =>
                rw [here] at sameNext samePrev
                simp only at sameNext samePrev
                rw [sameNext, samePrev]
  | cons x pre ih =>
      intro r chain nodup notIn link others back behind stop
      obtain ⟨here, nonnull, prev, tail⟩ := chain
      obtain ⟨notMem, nodupRest⟩ := List.nodup_cons.mp nodup
      have notLast : r ≠ lastRef (.next x) pre := by
        rcases lastRef_cases pre (.next x) with first | ⟨y, mem, later⟩
        · rw [first]
          exact notIn x (by simp)
        · rw [later]
          exact notIn y (by simp [mem])
      have notNext : x ≠ (q.entry p).next ∨ post = [] := by
        cases post with
        | nil => exact Or.inr rfl
        | cons y rest =>
            left
            intro same
            apply notMem
            have nextEq := Chain.next_eq pre (.next x) tail
            rw [same, nextEq]
            simp
      refine ⟨(others r notLast).trans here, nonnull, (back x notNext).trans prev, ?_⟩
      apply ih (.next x) tail nodupRest ?_ link others back behind stop
      intro y mem same
      exact notMem (TailqRef.next.inj same ▸ mem)

theorem Chain.nonnull {q : Tailq} : ∀ (L : List Nat) (r : TailqRef), q.Chain r L →
    ∀ p ∈ L, p ≠ 0 := by
  intro L
  induction L with
  | nil => intro r _ p mem; exact absurd mem List.not_mem_nil
  | cons y rest ih =>
      intro r chain p mem
      rcases List.mem_cons.mp mem with rfl | inRest
      · exact chain.2.1
      · exact ih (.next y) chain.2.2.2 p inRest

theorem Chain.stop_eq {q : Tailq} {p : Nat} : ∀ (pre : List Nat) (r : TailqRef),
    q.Chain r (pre ++ [p]) → (q.entry p).next = 0 := by
  intro pre
  induction pre with
  | nil => intro r chain; exact chain.2.2.2.1
  | cons y pre ih => intro r chain; exact ih (.next y) chain.2.2.2

theorem Holds.remove {q : Tailq} {L : List Nat} {p : Nat} (h : q.Holds L) (mem : p ∈ L) :
    ∃ q', q.remove p = some q' ∧ q'.Holds (L.erase p) := by
  obtain ⟨pre, post, rfl⟩ := List.append_of_mem mem
  have notMem : p ∉ pre := fun inPre =>
    (List.nodup_append.mp h.nodup).2.2 p inPre p List.mem_cons_self rfl
  have erased : (pre ++ p :: post).erase p = pre ++ post := by
    rw [List.erase_append_right _ notMem, List.erase_cons_head]
  have prevEq := Chain.prev_eq pre .head h.chain
  rw [erased]
  have nodup : (pre ++ post).Nodup := h.nodup.sublist (by simp)
  cases post with
  | nil =>
      have stop := Chain.stop_eq pre .head h.chain
      obtain ⟨q', written, link, others, last, back⟩ :=
        write_spec (q := { q with last := lastRef .head pre }) (r := lastRef .head pre) 0 lastRef_head_ne
      refine ⟨q', ?_, nodup, ?_⟩
      · simp only [Tailq.remove, stop, ne_eq, not_true, if_false, prevEq, written]
      · have reads : ∀ s, ({ q with last := lastRef .head pre } : Tailq).read s = q.read s := by
          intro s
          cases s <;> rfl
        apply Chain.erase pre .head h.chain h.nodup (fun _ _ => nofun)
        · rw [link, stop]
        · intro s ne
          rw [others s ne, reads]
        · intro x _
          exact back x
        · intro nonempty
          exact absurd rfl nonempty
        · intro _
          exact last
  | cons x rest =>
      have nextEq := Chain.next_eq pre .head h.chain
      have nonnull : x ≠ 0 := Chain.nonnull _ _ h.chain x (by simp)
      let q₁ := q.setEntry x { q.entry x with prev := lastRef .head pre }
      have read₁ : ∀ s, q₁.read s = q.read s := by
        intro s
        cases s with
        | null => rfl
        | head => rfl
        | next y =>
            by_cases same : y = x
            · rw [same]
              simp only [read, q₁, setEntry_self]
            · simp only [read, q₁, setEntry_of_ne q _ same]
      obtain ⟨q', written, link, others, last, back⟩ :=
        write_spec (q := q₁) (r := lastRef .head pre) x lastRef_head_ne
      refine ⟨q', ?_, nodup, ?_⟩
      · simp only [Tailq.remove, nextEq, ne_eq, nonnull, not_false_eq_true, if_true, prevEq]
        exact written
      · apply Chain.erase pre .head h.chain h.nodup (fun _ _ => nofun)
        · rw [link, nextEq]
        · intro s ne
          rw [others s ne, read₁]
        · intro y either
          rw [nextEq] at either
          have ne : y ≠ x := either.resolve_right (by simp)
          rw [back y]
          simp only [q₁, setEntry_of_ne q _ ne]
        · intro _
          rw [nextEq, back x]
          simp only [q₁, setEntry_self]
          exact ⟨trivial, last⟩
        · intro empty
          exact absurd empty (by simp)

end Tailq

end Trunix.Lib
