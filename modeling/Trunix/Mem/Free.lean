import Trunix.Mem.Coalesce

/-!
# `kfree`

`kfree` of `kernel/mem.c` on the bytes of memory.  A block that lies between two free
ones is put back as `giveBack` says.  In front of the first free block the code adds the
size of `tmp`, which nothing has set; behind the last one, and when nothing is free, it
reads the header at `NULL`.
-/

set_option autoImplicit false

namespace Trunix

open Trunix.Lib

inductive KfreeStop where
  /-- a read through `NULL` -/
  | null
  /-- a read of the local variable `tmp` before it is set -/
  | unset
  /-- a list walk that stops -/
  | halt (h : Halt)
  deriving DecidableEq

def removeNode (m : Mem) (heap elm : Nat) : Except KfreeStop Mem :=
  (slistRemove m heap elm).mapError .halt

/-- `tmp->sz`, where `tmp` may not be set. -/
def tmpSize (m : Mem) : Option Nat → Except KfreeStop Nat
  | none => .error .unset
  | some tmp => .ok (load32 m tmp)

/-- `SLIST_FOREACH_SAFE` of `kfree`: the node at which the loop ends, and `tmp`. -/
def aroundLoop (m : Mem) (p : Nat) : Nat → Nat → Option Nat → Except KfreeStop (Nat × Option Nat)
  | 0, _, _ => .error (.halt .loops)
  | fuel + 1, n, tmp =>
      if n = 0 then .ok (n, tmp)
      else
        let next := sleNext m n
        if n < p ∧ p < next then .ok (n, some next) else aroundLoop m p fuel next (some next)

/-- The first `if` behind the loop: the new block is joined with `n` or linked behind it. -/
def linkBehind (m : Mem) (n p : Nat) : Except KfreeStop (Mem × Nat) :=
  if n = 0 then .error .null
  else if u32 (n + load32 m n) = p then .ok (store32 m n (u32 (load32 m n + load32 m p)), n)
  else .ok (slistInsertAfter m n p, p)

/-- The second `if` behind the loop: `p` is joined with `tmp`. -/
def joinNext (heap : Nat) (m : Mem) (p : Nat) (tmp : Option Nat) : Except KfreeStop Mem :=
  match tmp with
  | none => .error .unset
  | some t =>
      if u32 (p + load32 m p) = t then do
        let m ← removeNode m heap t
        let sz ← tmpSize m tmp
        return store32 m p (u32 (load32 m p + sz))
      else .ok m

def kfree (heap : Nat) (m : Mem) (a : Nat) : Except KfreeStop Mem := do
  let p := u32 (a + 0xFFFFFFFE)
  let m := store32 m p (load16 m p)
  let n := load32 m heap
  let tmp := none
  if p < n then
    let m ← if u32 (p + load32 m p) = n then do
        let m ← removeNode m heap n
        let sz ← tmpSize m tmp
        pure (store32 m p (u32 (load32 m p + sz)))
      else pure m
    return slistInsertHead m heap p
  else
    let (n, tmp) ← aroundLoop m p walkLimit n tmp
    let (m, p) ← linkBehind m n p
    joinNext heap m p tmp

/-! ## The walk -/

theorem aroundLoop_between {m : Mem} {p : Nat} {lo hi : Block} {post : List Block}
    (below : lo.addr < p) (above : p < hi.addr) : ∀ (pre : List Block) (cell fuel : Nat)
    (tmp : Option Nat), Chained m cell (pre ++ lo :: hi :: post) → (∀ c ∈ pre, c.addr < p) →
      pre.length < fuel →
      aroundLoop m p fuel (load32 m cell) tmp = .ok (lo.addr, some hi.addr) := by
  intro pre
  induction pre with
  | nil =>
      intro cell fuel tmp chained _ enough
      obtain ⟨first, nonnull, _, next, _⟩ := chained
      have link : sleNext m lo.addr = hi.addr := next
      cases fuel with
      | zero => simp at enough
      | succ fuel => simp [aroundLoop, first, nonnull, link, below, above]
  | cons c pre ih =>
      intro cell fuel tmp chained small enough
      obtain ⟨first, nonnull, _, restChained⟩ := chained
      cases fuel with
      | zero => simp at enough
      | succ fuel =>
          have tail := ih (c.addr + 4) fuel (some (sleNext m c.addr)) restChained
            (fun d mem => small d (by simp [mem])) (by simp at enough; omega)
          have nextBelow : sleNext m c.addr < p := by
            cases pre with
            | nil => exact lt_of_eq_of_lt restChained.1 below
            | cons d pre => exact lt_of_eq_of_lt restChained.1 (small d (by simp))
          have more : ¬ (c.addr < p ∧ p < sleNext m c.addr) := fun both =>
            Nat.lt_asymm both.2 nextBelow
          simp only [aroundLoop, first, if_neg nonnull, if_neg more]
          exact tail

theorem aroundLoop_end {m : Mem} {p : Nat} : ∀ (F : List Block) (cell fuel : Nat)
    (tmp : Option Nat), Chained m cell F → (∀ c ∈ F, c.addr < p) → F.length < fuel →
      ∃ tmp', aroundLoop m p fuel (load32 m cell) tmp = .ok (0, tmp') := by
  intro F
  induction F with
  | nil =>
      intro cell fuel tmp chained _ enough
      have last : load32 m cell = 0 := chained
      cases fuel with
      | zero => simp at enough
      | succ fuel => exact ⟨tmp, by simp [aroundLoop, last]⟩
  | cons c rest ih =>
      intro cell fuel tmp chained small enough
      obtain ⟨first, nonnull, _, restChained⟩ := chained
      cases fuel with
      | zero => simp at enough
      | succ fuel =>
          obtain ⟨tmp', tail⟩ := ih (c.addr + 4) fuel (some (sleNext m c.addr)) restChained
            (fun d mem => small d (by simp [mem])) (by simp at enough; omega)
          have nextBelow : ¬ p < sleNext m c.addr := by
            cases rest with
            | nil =>
                have last : sleNext m c.addr = 0 := restChained
                omega
            | cons d rest =>
                have next : sleNext m c.addr = d.addr := restChained.1
                have := small d (by simp)
                omega
          have more : ¬ (c.addr < p ∧ p < sleNext m c.addr) := fun both => nextBelow both.2
          refine ⟨tmp', ?_⟩
          simp only [aroundLoop, first, if_neg nonnull, if_neg more]
          exact tail

theorem joinNext_chained {heap : Nat} {m : Mem} {q hi : Block} {pre post : List Block}
    (chained : Chained m heap (pre ++ q :: hi :: post))
    (ordered : Ordered heap (pre ++ q :: hi :: post)) (order : q.addr + q.sz ≤ hi.addr)
    (bound : hi.addr + hi.sz ≤ 0x100000000) :
    ∃ m', joinNext heap m q.addr (some hi.addr) = .ok m' ∧
      Chained m' heap (pre ++ joinRight q (hi :: post)) ∧
      Frame m m' (Set.Ico q.addr (q.addr + 8)) := by
  have boundHi := ordered.bound hi (by simp)
  have memQ : q ∈ pre ++ q :: hi :: post := by simp
  have memHi : hi ∈ pre ++ q :: hi :: post := by simp
  have sizeQ := chained.size_eq _ heap memQ
  have sizeHi := chained.size_eq _ heap memHi
  have nonnull : q.addr ≠ 0 := (chained.after pre heap).2.1
  have headerApart : q.addr + 8 ≤ hi.addr :=
    (List.pairwise_cons.mp (List.pairwise_append.mp ordered.ascending).2.1).1 hi (by simp)
  have reach : u32 (q.addr + load32 m q.addr) = q.addr + q.sz := by
    rw [sizeQ]
    exact u32_of_lt (by omega)
  by_cases touch : q.addr + q.sz = hi.addr
  · have split : pre ++ q :: hi :: post = (pre ++ [q]) ++ hi :: post := List.append_cons pre q _
    have chained₀ := chained
    have ordered₀ := ordered
    rw [split] at chained₀ ordered₀
    have cell : cellAfter heap (pre ++ [q]) = q.addr + 4 := cellAfter_concat heap pre q
    obtain ⟨m₁, removed, chained₁, frame₁⟩ := slistRemove_chained chained₀ ordered₀
    rw [cell] at frame₁
    have again : pre ++ [q] ++ post = pre ++ q :: post := (List.append_cons pre q post).symm
    rw [again] at chained₁
    have ordered₁ : Ordered heap (pre ++ q :: post) := ordered.sublist (by simp)
    have sizeQ₁ : load32 m₁ q.addr = q.sz := chained₁.size_eq _ heap (by simp)
    have sizeHi₁ : load32 m₁ hi.addr = hi.sz := by
      rw [frame₁.load32_eq, sizeHi]
      intro x low high mem
      simp only [Set.mem_Ico] at mem
      omega
    have word : u32 (q.sz + hi.sz) = q.sz + hi.sz := u32_of_lt (by omega)
    have resized := resize_chained (n := q.sz + hi.sz) chained₁ ordered₁ (by omega)
    refine ⟨store32 m₁ q.addr (q.sz + hi.sz), ?_, ?_, ?_⟩
    · have taken : removeNode m heap hi.addr = .ok m₁ := by
        rw [removeNode, removed]
        rfl
      simp only [joinNext, reach, if_pos touch, taken, ok_bind, tmpSize, sizeQ₁, sizeHi₁, word]
      rfl
    · rw [joinRight, if_pos touch]
      exact resized
    · apply (frame₁.mono ?_).trans ((store32_frame _ _ _).mono ?_)
      all_goals
        intro x mem
        simp only [Set.mem_Ico] at mem ⊢
        omega
  · refine ⟨m, ?_, ?_, Frame.refl _ _⟩
    · simp only [joinNext, reach, if_neg touch]
    · rw [joinRight, if_neg touch]
      exact chained

/-! ## One call -/

/-- A block that `kmalloc` handed out and that no free block overlaps. -/
structure Allocated (heap : Nat) (m : Mem) (F : List Block) (b : Block) : Prop where
  nonnull : b.addr ≠ 0
  header : load16 m b.addr = b.sz
  room : 8 ≤ b.sz
  whole : b.sz % 8 = 0
  bound : b.addr + b.sz ≤ 0x100000000
  apart : ∀ c ∈ F, b.Apart c
  headApart : heap + 4 ≤ b.addr ∨ b.addr + b.sz ≤ heap

theorem Gapped.around {b : Block} : ∀ {F : List Block}, Gapped F → (∀ c ∈ F, b.Apart c) →
    (∀ c ∈ F, 0 < c.sz) → 0 < b.sz →
    ∃ pre post, F = pre ++ post ∧ (∀ c ∈ pre, c.addr + c.sz ≤ b.addr) ∧
      ∀ c ∈ post, b.addr + b.sz ≤ c.addr := by
  intro F
  induction F with
  | nil => intro _ _ _ _; exact ⟨[], [], rfl, by simp, by simp⟩
  | cons c rest ih =>
      intro gapped apart nonempty pos
      obtain ⟨above, restGapped⟩ := List.pairwise_cons.mp gapped
      have apartC := apart c (by simp)
      simp only [Block.Apart] at apartC
      by_cases below : c.addr + c.sz ≤ b.addr
      · obtain ⟨pre, post, rfl, belowPre, abovePost⟩ := ih restGapped
          (fun d mem => apart d (by simp [mem])) (fun d mem => nonempty d (by simp [mem])) pos
        refine ⟨c :: pre, post, rfl, fun d mem => ?_, abovePost⟩
        rcases List.mem_cons.mp mem with rfl | inPre
        · exact below
        · exact belowPre d inPre
      · refine ⟨[], c :: rest, rfl, by simp, fun d mem => ?_⟩
        rcases List.mem_cons.mp mem with rfl | inRest
        · omega
        · have := above d inRest
          simp only [Block.Before] at this
          omega

theorem giveBack_between {b lo hi : Block} {post : List Block} (below : lo.addr + lo.sz ≤ b.addr)
    (above : b.addr < hi.addr) : ∀ {pre : List Block}, Gapped (pre ++ lo :: hi :: post) →
      giveBack b (pre ++ lo :: hi :: post) =
        pre ++ (if lo.addr + lo.sz = b.addr then joinRight ⟨lo.addr, lo.sz + b.sz⟩ (hi :: post)
          else lo :: joinRight b (hi :: post)) := by
  intro pre
  induction pre with
  | nil =>
      intro _
      have notFront : ¬ b.addr < lo.addr := by omega
      rw [List.nil_append, List.nil_append, giveBack, if_neg notFront, giveBack, if_pos above]
  | cons c pre ih =>
      intro gapped
      obtain ⟨aboveC, restGapped⟩ := List.pairwise_cons.mp gapped
      have order := aboveC lo (by simp)
      simp only [Block.Before] at order
      have notFront : ¬ b.addr < c.addr := by omega
      have gap : c.addr + c.sz ≠ b.addr := by omega
      rw [List.cons_append, giveBack, if_neg notFront, if_neg gap, ih restGapped, List.cons_append]

section Kfree

variable {heap : Nat} {m : Mem} {F : List Block} {b : Block}

/-- The header of a block that is given back, widened to 32 bits. -/
def widened (m : Mem) (b : Block) : Mem := store32 m b.addr b.sz

theorem kfree_eq (given : Allocated heap m F b) : kfree heap m (b.addr + 2) =
    (if b.addr < load32 (widened m b) heap then do
      let m' ← if u32 (b.addr + b.sz) = load32 (widened m b) heap then do
          let m' ← removeNode (widened m b) heap (load32 (widened m b) heap)
          let sz ← tmpSize m' none
          pure (store32 m' b.addr (u32 (load32 m' b.addr + sz)))
        else pure (widened m b)
      return slistInsertHead m' heap b.addr
    else do
      let (n, tmp) ← aroundLoop (widened m b) b.addr walkLimit (load32 (widened m b) heap) none
      let (m', p) ← linkBehind (widened m b) n b.addr
      joinNext heap m' p tmp) := by
  have bound := given.bound
  have room := given.room
  have nonnull := given.nonnull
  have start : u32 (b.addr + 2 + 0xFFFFFFFE) = b.addr := by
    simp only [u32]
    omega
  have size : load32 (store32 m b.addr b.sz) b.addr = b.sz := by
    rw [load32_store32_same]
    exact Nat.mod_eq_of_lt (by omega)
  simp only [kfree, start, given.header, size, widened]
  rfl

theorem Allocated.widened_chained (given : Allocated heap m F b) (list : HeapListAt heap m F) :
    Chained (widened m b) heap F ∧ load32 (widened m b) b.addr = b.sz ∧
      Frame m (widened m b) (Set.Ico b.addr (b.addr + 8)) := by
  have bound := given.bound
  have room := given.room
  have nonnull := given.nonnull
  have headApart := given.headApart
  have frame := store32_frame m b.addr b.sz
  refine ⟨list.chained.frame frame ?_, ?_, frame.mono ?_⟩
  · intro x inList inside
    simp only [Set.mem_Ico] at inside
    rcases inList with ⟨lo, hi⟩ | ⟨c, memC, lo, hi⟩
    · omega
    · have apart := given.apart c memC
      have sizes := list.sizes c memC
      simp only [Block.Apart] at apart
      omega
  · rw [widened, load32_store32_same]
    exact Nat.mod_eq_of_lt (by omega)
  · intro x mem
    simp only [Set.mem_Ico] at mem ⊢
    omega

def kfreeBytes (heap : Nat) (F : List Block) (b : Block) : Set Nat :=
  chainBytes heap F ∪ Set.Ico b.addr (b.addr + 8)

theorem kfree_front {hi : Block} {post : List Block} (given : Allocated heap m (hi :: post) b)
    (list : HeapListAt heap m (hi :: post)) (before : b.addr + b.sz < hi.addr) :
    ∃ m', kfree heap m (b.addr + 2) = .ok m' ∧ Chained m' heap (b :: hi :: post) ∧
      Frame m m' (kfreeBytes heap (hi :: post) b) := by
  obtain ⟨chained₁, size₁, frame₁⟩ := given.widened_chained list
  have bound := given.bound
  have room := given.room
  have headApart := given.headApart
  have above : ∀ c ∈ hi :: post, b.addr + 8 ≤ c.addr := by
    intro c mem
    rcases List.mem_cons.mp mem with rfl | inPost
    · omega
    · have := (List.pairwise_cons.mp list.ascending).1 c inPost
      omega
  have behind : Ordered heap ([] ++ hi :: post) := list.ordered
  have ordered : Ordered heap (b :: hi :: post) :=
    behind.insert (by omega) (by omega) (by simp) above
  obtain ⟨chained₂, frame₂⟩ := slistInsertHead_chained chained₁ size₁ given.nonnull ordered
  have first : load32 (widened m b) heap = hi.addr := chained₁.1
  refine ⟨_, ?_, chained₂, ?_⟩
  · have front : b.addr < hi.addr := by omega
    have boundHi := list.bound hi (by simp)
    have reach : u32 (b.addr + b.sz) = b.addr + b.sz := u32_of_lt (by omega)
    have gap : b.addr + b.sz ≠ hi.addr := Nat.ne_of_lt before
    rw [kfree_eq given, first, if_pos front, reach, if_neg gap]
    rfl
  · apply (frame₁.mono Set.subset_union_right).trans (frame₂.mono ?_)
    intro x mem
    simp only [Set.mem_union, Set.mem_Ico] at mem
    rcases mem with inB | inHead
    · exact Or.inr (by simp only [Set.mem_Ico]; omega)
    · exact Or.inl (Or.inl inHead)

/-- In front of the first free block and touching it, the size of `tmp` is added. -/
theorem kfree_front_touching {hi : Block} {post : List Block}
    (given : Allocated heap m (hi :: post) b) (list : HeapListAt heap m (hi :: post))
    (touch : b.addr + b.sz = hi.addr) : kfree heap m (b.addr + 2) = .error .unset := by
  obtain ⟨chained₁, size₁, _⟩ := given.widened_chained list
  have room := given.room
  have first : load32 (widened m b) heap = hi.addr := chained₁.1
  have boundHi := list.bound hi (by simp)
  have sizesHi := list.sizes hi (by simp)
  have front : b.addr < hi.addr := by omega
  have reach : u32 (b.addr + b.sz) = hi.addr := by
    rw [touch]
    exact u32_of_lt (by omega)
  have front₁ : Chained (widened m b) heap ([] ++ hi :: post) := chained₁
  obtain ⟨m₂, removed, _⟩ := slistRemove_chained front₁ list.ordered
  have taken : removeNode (widened m b) heap hi.addr = .ok m₂ := by
    rw [removeNode, removed]
    rfl
  rw [kfree_eq given, first, if_pos front, reach, if_pos rfl, taken]
  rfl

/-- Behind the last free block, or with nothing free, the header at `NULL` is read. -/
theorem kfree_end (given : Allocated heap m F b) (list : HeapListAt heap m F)
    (below : ∀ c ∈ F, c.addr < b.addr) : kfree heap m (b.addr + 2) = .error .null := by
  obtain ⟨chained₁, _, _⟩ := given.widened_chained list
  have notFront : ¬ b.addr < load32 (widened m b) heap := by
    cases F with
    | nil =>
        have first : load32 (widened m b) heap = 0 := chained₁
        omega
    | cons c rest =>
        have first : load32 (widened m b) heap = c.addr := chained₁.1
        have := below c (by simp)
        omega
  obtain ⟨tmp, walk⟩ := aroundLoop_end F heap walkLimit none chained₁ below list.ordered.length_lt
  rw [kfree_eq given, if_neg notFront, walk]
  rfl

theorem kfree_link {lo hi : Block} {pre post : List Block}
    (given : Allocated heap m (pre ++ lo :: hi :: post) b)
    (list : HeapListAt heap m (pre ++ lo :: hi :: post))
    (below : lo.addr + lo.sz ≤ b.addr) (above : b.addr + b.sz ≤ hi.addr) :
    kfree heap m (b.addr + 2) = linkBehind (widened m b) lo.addr b.addr >>= fun r =>
      joinNext heap r.1 r.2 (some hi.addr) := by
  obtain ⟨chained₁, _, _⟩ := given.widened_chained list
  have room := given.room
  have sizesLo := list.sizes lo (by simp)
  have across := (List.pairwise_append.mp list.ascending).2.2
  have belowPre : ∀ c ∈ pre, c.addr < lo.addr := by
    intro c inPre
    have order := across c inPre lo (by simp)
    have sizes := list.sizes c (by simp [inPre])
    omega
  have first : ¬ b.addr < load32 (widened m b) heap := by
    cases pre with
    | nil =>
        have start : load32 (widened m b) heap = lo.addr := chained₁.1
        omega
    | cons c pre =>
        have start : load32 (widened m b) heap = c.addr := chained₁.1
        have := belowPre c (by simp)
        omega
  have length := list.ordered.length_lt
  simp only [List.length_append, List.length_cons] at length
  have small : ∀ c ∈ pre, c.addr < b.addr := by
    intro c inPre
    have := belowPre c inPre
    omega
  have walk : aroundLoop (widened m b) b.addr walkLimit (load32 (widened m b) heap) none =
      .ok (lo.addr, some hi.addr) :=
    aroundLoop_between (by omega) (by omega) pre heap walkLimit none chained₁ small (by omega)
  rw [kfree_eq given, if_neg first, walk, ok_bind]

/-- Between two free blocks the block is joined with the ones it touches. -/
theorem kfree_between {lo hi : Block} {pre post : List Block}
    (given : Allocated heap m (pre ++ lo :: hi :: post) b)
    (list : HeapListAt heap m (pre ++ lo :: hi :: post))
    (below : lo.addr + lo.sz ≤ b.addr) (above : b.addr + b.sz ≤ hi.addr) :
    ∃ m', kfree heap m (b.addr + 2) = .ok m' ∧
      Chained m' heap (pre ++ (if lo.addr + lo.sz = b.addr
        then joinRight ⟨lo.addr, lo.sz + b.sz⟩ (hi :: post)
        else lo :: joinRight b (hi :: post))) ∧
      Frame m m' (kfreeBytes heap (pre ++ lo :: hi :: post) b) := by
  obtain ⟨chained₁, size₁, frame₁⟩ := given.widened_chained list
  have room := given.room
  have bound := given.bound
  have headApart := given.headApart
  have ordered := list.ordered
  have memLo : lo ∈ pre ++ lo :: hi :: post := by simp
  have sizesLo := list.sizes lo memLo
  have boundHi := list.bound hi (by simp)
  have nonnullLo : lo.addr ≠ 0 := (list.chained.after pre heap).2.1
  have sizeLo : load32 (widened m b) lo.addr = lo.sz := chained₁.size_eq _ heap memLo
  have reach : u32 (lo.addr + lo.sz) = lo.addr + lo.sz := u32_of_lt (by omega)
  obtain ⟨_, restAscending, across⟩ := List.pairwise_append.mp ordered.ascending
  obtain ⟨aboveLo, hiAscending⟩ := List.pairwise_cons.mp restAscending
  have belowPre : ∀ c ∈ pre, c.addr + 8 ≤ lo.addr := fun c inPre => across c inPre lo (by simp)
  have inLo : ∀ x, lo.addr ≤ x → x < lo.addr + 8 →
      x ∈ kfreeBytes heap (pre ++ lo :: hi :: post) b := fun x low high =>
    Or.inl (Or.inr ⟨lo, memLo, low, high⟩)
  have inB : ∀ x, b.addr ≤ x → x < b.addr + 8 →
      x ∈ kfreeBytes heap (pre ++ lo :: hi :: post) b := fun x low high => Or.inr ⟨low, high⟩
  rw [kfree_link given list below above]
  by_cases touch : lo.addr + lo.sz = b.addr
  · -- the block below grows over `b`
    have word : u32 (lo.sz + b.sz) = lo.sz + b.sz := u32_of_lt (by omega)
    have chained₂ := resize_chained (n := lo.sz + b.sz) chained₁ ordered (by omega)
    have frame₂ := store32_frame (widened m b) lo.addr (lo.sz + b.sz)
    have ordered₂ : Ordered heap (pre ++ ⟨lo.addr, lo.sz + b.sz⟩ :: hi :: post) :=
      (ordered.sublist (by simp)).insert (ordered.bound lo memLo) (ordered.cellApart lo memLo)
        belowPre aboveLo
    obtain ⟨m', joined, chained', frame'⟩ := joinNext_chained chained₂ ordered₂
      (by simp only; omega) boundHi
    have linked : linkBehind (widened m b) lo.addr b.addr =
        .ok (store32 (widened m b) lo.addr (lo.sz + b.sz), lo.addr) := by
      rw [linkBehind, if_neg nonnullLo, sizeLo, reach, if_pos touch, size₁, word]
    refine ⟨m', ?_, ?_, ?_⟩
    · rw [linked, ok_bind]
      exact joined
    · rw [if_pos touch]
      exact chained'
    · apply (frame₁.mono Set.subset_union_right).trans
        ((frame₂.mono ?_).trans (frame'.mono ?_))
      all_goals
        intro x mem
        simp only [Set.mem_Ico] at mem
        exact inLo x (by omega) (by omega)
  · -- `b` is linked behind the block below
    have between : Ordered heap ((pre ++ [lo]) ++ b :: hi :: post) := by
      rw [List.append_cons] at ordered
      apply ordered.insert (by omega) (by omega)
      · intro c mem
        rcases List.mem_append.mp mem with inPre | isLo
        · have := belowPre c inPre
          omega
        · rw [List.mem_singleton.mp isLo]
          omega
      · intro c mem
        rcases List.mem_cons.mp mem with rfl | inPost
        · omega
        · have := (List.pairwise_cons.mp hiAscending).1 c inPost
          omega
    have ordered₂ : Ordered heap (pre ++ lo :: b :: hi :: post) := by
      rwa [List.append_assoc] at between
    obtain ⟨chained₂, frame₂⟩ := slistInsertAfter_chained chained₁ size₁ given.nonnull ordered₂
    rw [List.append_cons] at chained₂
    obtain ⟨m', joined, chained', frame'⟩ := joinNext_chained chained₂ between above boundHi
    have linked : linkBehind (widened m b) lo.addr b.addr =
        .ok (slistInsertAfter (widened m b) lo.addr b.addr, b.addr) := by
      rw [linkBehind, if_neg nonnullLo, sizeLo, reach, if_neg touch]
    refine ⟨m', ?_, ?_, ?_⟩
    · rw [linked, ok_bind]
      exact joined
    · rw [if_neg touch]
      rwa [List.append_assoc] at chained'
    · apply (frame₁.mono Set.subset_union_right).trans
        ((frame₂.mono ?_).trans (frame'.mono ?_))
      · intro x mem
        simp only [Set.mem_union, Set.mem_Ico] at mem
        rcases mem with ofB | ofLo
        · exact inB x (by omega) (by omega)
        · exact inLo x (by omega) (by omega)
      · intro x mem
        exact inB x mem.1 mem.2

end Kfree

/-! ## What giving a block back is for -/

def FreesWell (heap : Nat) (m : Mem) (F : List Block) (b : Block) : Prop :=
  ∃ m' F', kfree heap m (b.addr + 2) = .ok m' ∧ HeapListAt heap m' F' ∧ Gapped F' ∧
    ∀ x, (∃ c ∈ F', c.Has x) ↔ (∃ c ∈ F, c.Has x) ∨ b.Has x

/-- Some free block lies above `b`, and if none lies below it, `b` does not touch the first. -/
def FreesCleanly (F : List Block) (b : Block) : Prop :=
  (∃ c ∈ F, b.addr < c.addr) ∧
    ((∃ c ∈ F, c.addr < b.addr) ∨ ∀ c ∈ F, b.addr + b.sz ≠ c.addr)

theorem joinRight_sizes {b : Block} {F : List Block} (sizeB : 0 < b.sz ∧ b.sz % 8 = 0)
    (sizes : ∀ c ∈ F, 0 < c.sz ∧ c.sz % 8 = 0) : ∀ c ∈ joinRight b F, 0 < c.sz ∧ c.sz % 8 = 0 := by
  intro d mem
  cases F with
  | nil =>
      rw [List.mem_singleton.mp mem]
      exact sizeB
  | cons c rest =>
      have sizeC := sizes c (by simp)
      by_cases touch : b.addr + b.sz = c.addr
      · rw [joinRight, if_pos touch] at mem
        rcases List.mem_cons.mp mem with rfl | inRest
        · simp only
          omega
        · exact sizes d (by simp [inRest])
      · rw [joinRight, if_neg touch] at mem
        rcases List.mem_cons.mp mem with rfl | inF
        · exact sizeB
        · exact sizes d inF

theorem giveBack_sizes {b : Block} (sizeB : 0 < b.sz ∧ b.sz % 8 = 0) : ∀ {F : List Block},
    (∀ c ∈ F, 0 < c.sz ∧ c.sz % 8 = 0) → ∀ c ∈ giveBack b F, 0 < c.sz ∧ c.sz % 8 = 0 := by
  intro F
  induction F with
  | nil =>
      intro _ d mem
      rw [List.mem_singleton.mp mem]
      exact sizeB
  | cons c rest ih =>
      intro sizes d mem
      have sizeC := sizes c (by simp)
      have sizesRest : ∀ e ∈ rest, 0 < e.sz ∧ e.sz % 8 = 0 := fun e memE => sizes e (by simp [memE])
      by_cases front : b.addr < c.addr
      · rw [giveBack, if_pos front] at mem
        exact joinRight_sizes sizeB sizes d mem
      · by_cases touch : c.addr + c.sz = b.addr
        · rw [giveBack, if_neg front, if_pos touch] at mem
          exact joinRight_sizes (b := ⟨c.addr, c.sz + b.sz⟩) (by simp only; omega) sizesRest d mem
        · rw [giveBack, if_neg front, if_neg touch] at mem
          rcases List.mem_cons.mp mem with rfl | inRest
          · exact sizeC
          · exact ih sizesRest d inRest

section Giving

variable {heap : Nat} {m m' : Mem} {F : List Block} {b : Block}

theorem Allocated.giveBack_list (given : Allocated heap m F b) (list : HeapListAt heap m F)
    (gapped : Gapped F) (chained : Chained m' heap (giveBack b F)) :
    HeapListAt heap m' (giveBack b F) ∧ Gapped (giveBack b F) := by
  have sizeB : 0 < b.sz ∧ b.sz % 8 = 0 := ⟨Nat.lt_of_lt_of_le (by decide) given.room, given.whole⟩
  have gapped' : Gapped (giveBack b F) :=
    giveBack_gapped sizeB.1 gapped (fun c mem => (list.sizes c mem).1) given.apart
  have sizes' := giveBack_sizes sizeB list.sizes
  -- where the bytes of the new list are
  have bytes : ∀ d ∈ giveBack b F, ∀ x, d.Has x →
      x < 0x100000000 ∧ (heap + 4 ≤ x ∨ x < heap) := by
    intro d mem x inside
    rcases (has_giveBack F).mp ⟨d, mem, inside⟩ with ⟨lo, hi⟩ | ⟨c, memC, lo, hi⟩
    · have bound := given.bound
      have apart := given.headApart
      omega
    · have bound := list.bound c memC
      have apart := list.headApart c memC
      omega
  refine ⟨⟨chained, list.headBound, fun d mem => ?_, gapped'.ascending, sizes',
    fun d mem => ?_⟩, gapped'⟩
  · have pos := (sizes' d mem).1
    by_contra meets
    have inside := bytes d mem (max d.addr heap) ⟨Nat.le_max_left _ _, by omega⟩
    omega
  · have pos := (sizes' d mem).1
    have inside := bytes d mem (d.addr + d.sz - 1) ⟨by omega, by omega⟩
    omega

/-- `kfree` returns exactly when the block can be given back cleanly, and then it does what
`giveBack` says. -/
theorem kfree_cases (given : Allocated heap m F b) (list : HeapListAt heap m F)
    (gapped : Gapped F) :
    (FreesCleanly F b ∧ ∃ m', kfree heap m (b.addr + 2) = .ok m' ∧
      Chained m' heap (giveBack b F) ∧ Frame m m' (kfreeBytes heap F b)) ∨
      ¬ FreesCleanly F b ∧ ∃ e, kfree heap m (b.addr + 2) = .error e := by
  have room := given.room
  obtain ⟨pre, post, rfl, below, above⟩ := gapped.around given.apart
    (fun c mem => (list.sizes c mem).1) (by omega)
  have belowPre : ∀ c ∈ pre, c.addr < b.addr := by
    intro c inPre
    have order := below c inPre
    have sizes := list.sizes c (by simp [inPre])
    omega
  cases post with
  | nil =>
      right
      rw [List.append_nil] at given list ⊢
      refine ⟨fun clean => ?_, .null, kfree_end given list belowPre⟩
      obtain ⟨c, mem, high⟩ := clean.1
      exact Nat.lt_asymm high (belowPre c mem)
  | cons hi post =>
      have aboveHi := above hi (by simp)
      have higher : ∃ c ∈ pre ++ hi :: post, b.addr < c.addr := ⟨hi, by simp, by omega⟩
      rcases List.eq_nil_or_concat pre with rfl | ⟨init, lo, rfl⟩
      · by_cases touch : b.addr + b.sz = hi.addr
        · right
          refine ⟨fun clean => ?_, .unset, kfree_front_touching given list touch⟩
          rcases clean.2 with ⟨c, mem, low⟩ | apart
          · have := above c mem
            omega
          · exact apart hi (by simp) touch
        · left
          have before : b.addr + b.sz < hi.addr := by omega
          have front : b.addr < hi.addr := by omega
          obtain ⟨m', done, chained, frame⟩ := kfree_front given list before
          have gap : ∀ c ∈ hi :: post, b.addr + b.sz ≠ c.addr := by
            intro c mem
            rcases List.mem_cons.mp mem with rfl | inPost
            · exact touch
            · have order := (List.pairwise_cons.mp gapped).1 c inPost
              simp only [Block.Before] at order
              omega
          refine ⟨⟨higher, Or.inr gap⟩, m', done, ?_, frame⟩
          rw [List.nil_append, giveBack, if_pos front, joinRight, if_neg touch]
          exact chained
      · left
        have belowLo := below lo (by simp)
        have shape : init.concat lo ++ hi :: post = init ++ lo :: hi :: post := by simp
        rw [shape] at given list gapped higher ⊢
        have lower : ∃ c ∈ init ++ lo :: hi :: post, c.addr < b.addr :=
          ⟨lo, by simp, belowPre lo (by simp)⟩
        obtain ⟨m', done, chained, frame⟩ := kfree_between given list belowLo aboveHi
        refine ⟨⟨higher, Or.inl lower⟩, m', done, ?_, frame⟩
        rw [giveBack_between belowLo (by omega) gapped]
        exact chained

theorem freesWell_iff (given : Allocated heap m F b) (list : HeapListAt heap m F)
    (gapped : Gapped F) : FreesWell heap m F b ↔ FreesCleanly F b := by
  rcases kfree_cases given list gapped with ⟨clean, m', done, chained, _⟩ | ⟨unclean, e, stops⟩
  · obtain ⟨list', gapped'⟩ := given.giveBack_list list gapped chained
    refine iff_of_true ⟨m', _, done, list', gapped', fun x => ?_⟩ clean
    rw [has_giveBack, or_comm]
  · refine iff_of_false (fun well => ?_) unclean
    obtain ⟨m', _, done, _⟩ := well
    rw [stops] at done
    cases done

/-- A block that lies between two free blocks is given back to a list that is again in
address order, disjoint and coalesced, and whose bytes are the old ones and the block's. -/
theorem kfree_between_coalesces (given : Allocated heap m F b) (list : HeapListAt heap m F)
    (gapped : Gapped F) (lower : ∃ c ∈ F, c.addr < b.addr) (upper : ∃ c ∈ F, b.addr < c.addr) :
    FreesWell heap m F b :=
  (freesWell_iff given list gapped).mpr ⟨upper, Or.inl lower⟩

end Giving

def cellBetween : Mem :=
  store16 (store32 (store32 (store32 (store32 (store32 (fun _ => 0)
    0x80480000 0x80010000) 0x80010000 0x10) 0x80010004 0x80010040) 0x80010040 0x10) 0x80010044 0)
    0x80010010 0x10

theorem kfree_between_coalesces_cell :
    FreesWell 0x80480000 cellBetween [⟨0x80010000, 0x10⟩, ⟨0x80010040, 0x10⟩]
      ⟨0x80010010, 0x10⟩ := by
  have chained : Chained cellBetween 0x80480000 [⟨0x80010000, 0x10⟩, ⟨0x80010040, 0x10⟩] :=
    ⟨by decide +kernel, by decide, by decide +kernel, by decide +kernel, by decide,
      by decide +kernel, (by decide +kernel : load32 cellBetween 0x80010044 = 0)⟩
  have gapped : Gapped [⟨0x80010000, 0x10⟩, ⟨0x80010040, 0x10⟩] :=
    List.pairwise_pair.mpr (by simp [Block.Before])
  have list : HeapListAt 0x80480000 cellBetween [⟨0x80010000, 0x10⟩, ⟨0x80010040, 0x10⟩] :=
    ⟨chained, by decide, by decide, gapped.ascending, by decide, by decide⟩
  have apart : ∀ c ∈ [⟨0x80010000, 0x10⟩, ⟨0x80010040, 0x10⟩],
      Block.Apart ⟨0x80010010, 0x10⟩ c := by
    simp [Block.Apart]
  have given : Allocated 0x80480000 cellBetween [⟨0x80010000, 0x10⟩, ⟨0x80010040, 0x10⟩]
      ⟨0x80010010, 0x10⟩ :=
    ⟨by decide, by decide +kernel, by decide, by decide, by decide, apart, by decide⟩
  exact kfree_between_coalesces given list gapped (by decide) (by decide)

end Trunix
