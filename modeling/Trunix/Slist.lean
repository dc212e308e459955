import Trunix.Mem.Pages

/-!
# The `SLIST` macros of `include/sys/queue.h`

A node is a `u32` size at `p` and `sle_next` at `p + 4`, as in `struct sblock` of
`kernel/mem.c`.  `Chained m cell L` says that the list that starts in `cell` has the
nodes of `L`, in order and with the sizes of `L` in their headers.
-/

set_option autoImplicit false

namespace Trunix

open Trunix.Lib

def sleNext (m : Mem) (p : Nat) : Nat := load32 m (p + 4)

def slistInsertAfter (m : Mem) (slistelm elm : Nat) : Mem :=
  let m := store32 m (elm + 4) (sleNext m slistelm)
  store32 m (slistelm + 4) elm

def slistInsertHead (m : Mem) (head elm : Nat) : Mem :=
  let m := store32 m (elm + 4) (load32 m head)
  store32 m head elm

def removeLoop (m : Mem) (elm : Nat) : Nat → Nat → Except Halt Mem
  | 0, _ => .error .loops
  | fuel + 1, curelm =>
      if curelm = 0 then .error .fault
      else if sleNext m curelm = elm then
        .ok (store32 m (curelm + 4) (sleNext m (sleNext m curelm)))
      else removeLoop m elm fuel (sleNext m curelm)

def slistRemove (m : Mem) (head elm : Nat) : Except Halt Mem :=
  if load32 m head = elm then .ok (store32 m head (sleNext m (load32 m head)))
  else removeLoop m elm walkLimit (load32 m head)

/-! ## Lists in memory -/

def Chained (m : Mem) : Nat → List Block → Prop
  | cell, [] => load32 m cell = 0
  | cell, b :: rest =>
      load32 m cell = b.addr ∧ b.addr ≠ 0 ∧ load32 m b.addr = b.sz ∧ Chained m (b.addr + 4) rest

def chainBytes (cell : Nat) (L : List Block) : Set Nat :=
  { x | (cell ≤ x ∧ x < cell + 4) ∨ ∃ b ∈ L, b.addr ≤ x ∧ x < b.addr + 8 }

/-- Nodes in address order whose headers overlap neither each other nor the cell that
starts the list. -/
structure Ordered (cell : Nat) (L : List Block) : Prop where
  cellBound : cell + 4 ≤ 0x100000000
  bound : ∀ b ∈ L, b.addr + 8 ≤ 0x100000000
  ascending : L.Pairwise fun b c => b.addr + 8 ≤ c.addr
  cellApart : ∀ b ∈ L, cell + 4 ≤ b.addr ∨ b.addr + 8 ≤ cell

theorem Ordered.tail {cell : Nat} {b : Block} {rest : List Block} (h : Ordered cell (b :: rest)) :
    Ordered (b.addr + 4) rest := by
  have bound := h.bound b (by simp)
  obtain ⟨above, restAscending⟩ := List.pairwise_cons.mp h.ascending
  exact ⟨by omega, fun c mem => h.bound c (by simp [mem]), restAscending,
    fun c mem => Or.inl (by have := above c mem; omega)⟩

theorem Ordered.length_lt {cell : Nat} {L : List Block} (h : Ordered cell L) :
    L.length < walkLimit := by
  have spans : L.Pairwise (SpansApart Block.addr (fun _ => 1)) :=
    h.ascending.imp (fun below => spansApart_of_order Block.addr (fun _ => 1)
      (Or.inl (Nat.le_trans (Nat.le_add_right _ 7) below)))
  have inside : ∀ b ∈ L, 0 ≤ b.addr ∧ b.addr + 1 ≤ 0xFFFFFFF9 := fun b mem =>
    ⟨Nat.zero_le _, by have := h.bound b mem; omega⟩
  have count := length_le_of_apart Block.addr (fun _ => 1) spans inside (by simp)
  simp only [walkLimit]
  omega

theorem Chained.congr {m m' : Mem} : ∀ (L : List Block) (cell : Nat), Chained m cell L →
    (∀ x ∈ chainBytes cell L, m' x = m x) → Chained m' cell L := by
  intro L
  induction L with
  | nil =>
      intro cell chained same
      exact (loadLE_congr m m' 4 cell (fun x lo hi => same x (Or.inl ⟨lo, hi⟩))).trans chained
  | cons b rest ih =>
      intro cell chained same
      obtain ⟨first, nonnull, size, restChained⟩ := chained
      have header : ∀ x, b.addr ≤ x → x < b.addr + 8 → m' x = m x := fun x lo hi =>
        same x (Or.inr ⟨b, by simp, lo, hi⟩)
      refine ⟨?_, nonnull, ?_, ih (b.addr + 4) restChained ?_⟩
      · exact (loadLE_congr m m' 4 cell (fun x lo hi => same x (Or.inl ⟨lo, hi⟩))).trans first
      · exact (loadLE_congr m m' 4 _ (fun x lo hi => header x lo (by omega))).trans size
      · intro x mem
        rcases mem with ⟨lo, hi⟩ | ⟨c, memC, lo, hi⟩
        · exact header x (by omega) (by omega)
        · exact same x (Or.inr ⟨c, by simp [memC], lo, hi⟩)

theorem Chained.frame {m m' : Mem} {S : Set Nat} {L : List Block} {cell : Nat}
    (chained : Chained m cell L) (h : Frame m m' S) (out : ∀ x ∈ chainBytes cell L, x ∉ S) :
    Chained m' cell L :=
  chained.congr L cell (fun x mem => h x (out x mem))

theorem Chained.size_eq {m : Mem} {b : Block} : ∀ (L : List Block) (cell : Nat),
    Chained m cell L → b ∈ L → load32 m b.addr = b.sz := by
  intro L
  induction L with
  | nil => intro cell _ mem; simp at mem
  | cons c rest ih =>
      intro cell chained mem
      rcases List.mem_cons.mp mem with rfl | inRest
      · exact chained.2.2.1
      · exact ih (c.addr + 4) chained.2.2.2 inRest

/-- Both kinds of list are walked alike. -/
theorem readList_chained {m : Mem} : ∀ (L : List Block) (cell fuel : Nat), Chained m cell L →
    L.length < fuel → readList m fuel (load32 m cell) = .ok L := by
  intro L
  induction L with
  | nil =>
      intro cell fuel chained enough
      cases fuel with
      | zero => simp at enough
      | succ fuel => simp [readList, show load32 m cell = 0 from chained]
  | cons b rest ih =>
      intro cell fuel chained enough
      obtain ⟨first, nonnull, size, restChained⟩ := chained
      cases fuel with
      | zero => simp at enough
      | succ fuel =>
          have tail := ih (b.addr + 4) fuel restChained (by simp at enough; omega)
          simp only [readList, first, if_neg nonnull, leNext, tail, size]
          rfl

theorem findFit_chained {m : Mem} (sz : Nat) : ∀ (L : List Block) (cell fuel : Nat),
    Chained m cell L → L.length < fuel →
      findFit m sz fuel (load32 m cell) =
        .ok (match takeFit sz L with | none => 0 | some found => found.1.addr) := by
  intro L
  induction L with
  | nil =>
      intro cell fuel chained enough
      cases fuel with
      | zero => simp at enough
      | succ fuel => simp [findFit, takeFit, show load32 m cell = 0 from chained]
  | cons b rest ih =>
      intro cell fuel chained enough
      obtain ⟨first, nonnull, size, restChained⟩ := chained
      cases fuel with
      | zero => simp at enough
      | succ fuel =>
          have tail := ih (b.addr + 4) fuel restChained (by simp at enough; omega)
          by_cases fits : sz ≤ b.sz
          · simp [findFit, takeFit, first, nonnull, size, fits]
          · simp only [findFit, takeFit, first, if_neg nonnull, size, if_neg fits, leNext, tail]
            cases takeFit sz rest <;> rfl

/-! ## Edits -/

theorem Chained.cons_of_frame {m m' : Mem} {S : Set Nat} {cell : Nat} {b : Block}
    {rest L : List Block} (chained : Chained m cell (b :: rest)) (h : Frame m m' S)
    (cellOut : ∀ x, cell ≤ x → x < cell + 4 → x ∉ S)
    (sizeOut : ∀ x, b.addr ≤ x → x < b.addr + 4 → x ∉ S)
    (tail : Chained m' (b.addr + 4) L) : Chained m' cell (b :: L) := by
  obtain ⟨first, nonnull, size, _⟩ := chained
  exact ⟨(h.load32_eq cellOut).trans first, nonnull, (h.load32_eq sizeOut).trans size, tail⟩

def cellAfter (cell : Nat) : List Block → Nat
  | [] => cell
  | b :: rest => cellAfter (b.addr + 4) rest

theorem cellAfter_mem (cell : Nat) : ∀ pre : List Block,
    cellAfter cell pre = cell ∨ ∃ b ∈ pre, cellAfter cell pre = b.addr + 4 := by
  intro pre
  induction pre generalizing cell with
  | nil => exact Or.inl rfl
  | cons c pre ih =>
      rcases ih (c.addr + 4) with here | ⟨b, mem, there⟩
      · exact Or.inr ⟨c, by simp, here⟩
      · exact Or.inr ⟨b, by simp [mem], there⟩

theorem cellAfter_concat (cell : Nat) (pre : List Block) (b : Block) :
    cellAfter cell (pre ++ [b]) = b.addr + 4 := by
  induction pre generalizing cell with
  | nil => rfl
  | cons c pre ih => exact ih (c.addr + 4)

theorem Chained.after {m : Mem} {L : List Block} : ∀ (pre : List Block) (cell : Nat),
    Chained m cell (pre ++ L) → Chained m (cellAfter cell pre) L := by
  intro pre
  induction pre with
  | nil => intro cell chained; exact chained
  | cons c pre ih => intro cell chained; exact ih (c.addr + 4) chained.2.2.2

/-- A list is edited behind a prefix by writing only the cell after the prefix and
bytes that belong to no header of the prefix. -/
theorem Chained.edit {m m' : Mem} {S : Set Nat} {L L' : List Block} (h : Frame m m' S) :
    ∀ (pre : List Block) (cell : Nat), Chained m cell (pre ++ L) → Ordered cell (pre ++ L) →
      (∀ x ∈ S, (cellAfter cell pre ≤ x ∧ x < cellAfter cell pre + 4) ∨
        ((x < cell ∨ cell + 4 ≤ x) ∧ ∀ b ∈ pre, x < b.addr ∨ b.addr + 8 ≤ x)) →
      Chained m' (cellAfter cell pre) L' → Chained m' cell (pre ++ L') := by
  intro pre
  induction pre with
  | nil => intro cell _ _ _ chained'; exact chained'
  | cons c pre ih =>
      intro cell chained ordered inS chained'
      have cellC := ordered.cellApart c (by simp)
      -- the cell after a nonempty prefix lies in a header of the prefix
      have after : cellAfter (c.addr + 4) pre = c.addr + 4 ∨
          (cell + 4 ≤ cellAfter (c.addr + 4) pre ∨ cellAfter (c.addr + 4) pre + 4 ≤ cell) ∧
            c.addr + 8 ≤ cellAfter (c.addr + 4) pre := by
        rcases cellAfter_mem (c.addr + 4) pre with here | ⟨b, mem, there⟩
        · exact Or.inl here
        · have cellB := ordered.cellApart b (by simp [mem])
          have above := (List.pairwise_cons.mp ordered.ascending).1 b (by simp [mem])
          exact Or.inr ⟨by omega, by omega⟩
      simp only [cellAfter] at inS chained'
      have tail := ih (c.addr + 4) chained.2.2.2 ordered.tail (by
        intro x mem
        rcases inS x mem with here | ⟨out, outPre⟩
        · exact Or.inl here
        · have outC := outPre c (by simp)
          exact Or.inr ⟨by omega, fun b memB => outPre b (by simp [memB])⟩) chained'
      apply chained.cons_of_frame h ?_ ?_ tail
      · intro x lo hi mem
        rcases inS x mem with here | ⟨out, _⟩ <;> omega
      · intro x lo hi mem
        rcases inS x mem with here | ⟨_, outPre⟩
        · omega
        · have outC := outPre c (by simp)
          omega

theorem removeLoop_chained {m : Mem} {b : Block} {post : List Block} :
    ∀ (pre : List Block) (c : Block) (fuel : Nat), c.addr ≠ 0 →
      Chained m (c.addr + 4) (pre ++ b :: post) → (∀ d ∈ pre, d.addr ≠ b.addr) →
      pre.length < fuel →
      removeLoop m b.addr fuel c.addr =
        .ok (store32 m (cellAfter (c.addr + 4) pre) (sleNext m b.addr)) := by
  intro pre
  induction pre with
  | nil =>
      intro c fuel nonnull chained _ enough
      have next : sleNext m c.addr = b.addr := chained.1
      cases fuel with
      | zero => simp at enough
      | succ fuel => simp [removeLoop, nonnull, next, cellAfter]
  | cons d pre ih =>
      intro c fuel nonnull chained distinct enough
      have next : sleNext m c.addr = d.addr := chained.1
      have other : d.addr ≠ b.addr := distinct d (by simp)
      cases fuel with
      | zero => simp at enough
      | succ fuel =>
          have rest := ih d fuel chained.2.1 chained.2.2.2 (fun e mem => distinct e (by simp [mem]))
            (by simp at enough; omega)
          simp only [removeLoop, if_neg nonnull, next, if_neg other, rest, cellAfter]

theorem slistRemove_eq {m : Mem} {b : Block} {pre post : List Block} {cell : Nat}
    (chained : Chained m cell (pre ++ b :: post)) (ordered : Ordered cell (pre ++ b :: post)) :
    slistRemove m cell b.addr = .ok (store32 m (cellAfter cell pre) (sleNext m b.addr)) := by
  have distinct : ∀ c ∈ pre, c.addr ≠ b.addr := by
    intro c mem same
    have below := (List.pairwise_append.mp ordered.ascending).2.2 c mem b (by simp)
    omega
  cases pre with
  | nil =>
      have first : load32 m cell = b.addr := chained.1
      simp [slistRemove, first, cellAfter]
  | cons c pre =>
      have first : load32 m cell = c.addr := chained.1
      have other : c.addr ≠ b.addr := distinct c (by simp)
      have count := ordered.length_lt
      simp only [List.cons_append, List.length_cons, List.length_append] at count
      simp only [slistRemove, first, if_neg other, cellAfter]
      exact removeLoop_chained pre c walkLimit chained.2.1 chained.2.2.2
        (fun d mem => distinct d (by simp [mem])) (by omega)

/-- A list may be entered through any cell that points to its first node. -/
theorem Chained.recell {m m' : Mem} {L : List Block} {cell cell' : Nat} (chained : Chained m cell L)
    (same : load32 m' cell' = load32 m cell)
    (headers : ∀ b ∈ L, ∀ x, b.addr ≤ x → x < b.addr + 8 → m' x = m x) : Chained m' cell' L := by
  cases L with
  | nil => exact same.trans chained
  | cons b rest =>
      obtain ⟨first, nonnull, size, restChained⟩ := chained
      have header := headers b (by simp)
      refine ⟨same.trans first, nonnull, ?_, restChained.congr rest _ ?_⟩
      · exact (loadLE_congr m m' 4 _ (fun x lo hi => header x lo (by omega))).trans size
      · intro x mem
        rcases mem with ⟨lo, hi⟩ | ⟨c, memC, lo, hi⟩
        · exact header x (by omega) (by omega)
        · exact headers c (by simp [memC]) x lo hi

theorem Ordered.cellAfter_bound {pre L : List Block} : ∀ {cell : Nat}, Ordered cell (pre ++ L) →
    cellAfter cell pre + 4 ≤ 0x100000000 ∧
      ∀ b ∈ L, cellAfter cell pre + 4 ≤ b.addr ∨ b.addr + 8 ≤ cellAfter cell pre := by
  intro cell ordered
  rcases cellAfter_mem cell pre with here | ⟨c, mem, there⟩
  · rw [here]
    exact ⟨ordered.cellBound, fun b memB => ordered.cellApart b (by simp [memB])⟩
  · rw [there]
    have bound := ordered.bound c (by simp [mem])
    refine ⟨by omega, fun b memB => ?_⟩
    have below := (List.pairwise_append.mp ordered.ascending).2.2 c mem b memB
    omega

theorem slistRemove_chained {m : Mem} {b : Block} {pre post : List Block} {cell : Nat}
    (chained : Chained m cell (pre ++ b :: post)) (ordered : Ordered cell (pre ++ b :: post)) :
    ∃ m', slistRemove m cell b.addr = .ok m' ∧ Chained m' cell (pre ++ post) ∧
      Frame m m' (Set.Ico (cellAfter cell pre) (cellAfter cell pre + 4)) := by
  have frame := store32_frame m (cellAfter cell pre) (sleNext m b.addr)
  obtain ⟨_, apart⟩ := ordered.cellAfter_bound
  refine ⟨_, slistRemove_eq chained ordered, ?_, frame⟩
  apply Chained.edit frame pre cell chained ordered (fun x mem => Or.inl mem)
  apply (chained.after pre cell).2.2.2.recell
  · rw [load32_store32_same]
    exact Nat.mod_eq_of_lt (load32_lt _ _)
  · intro c mem x lo hi
    apply frame
    intro inside
    simp only [Set.mem_Ico] at inside
    have := apart c (by simp [mem])
    omega

/-! ## Edits of the list -/

theorem resize_chained {heap n : Nat} {m : Mem} {b : Block} {pre post : List Block}
    (chained : Chained m heap (pre ++ b :: post)) (ordered : Ordered heap (pre ++ b :: post))
    (word : n < 0x100000000) :
    Chained (store32 m b.addr n) heap (pre ++ ⟨b.addr, n⟩ :: post) := by
  have frame := store32_frame m b.addr n
  obtain ⟨_, restAscending, across⟩ := List.pairwise_append.mp ordered.ascending
  have above := (List.pairwise_cons.mp restAscending).1
  obtain ⟨cellBound, cellApart⟩ := ordered.cellAfter_bound
  have cellB := cellApart b (by simp)
  have headB := ordered.cellApart b (by simp)
  have boundB := ordered.bound b (by simp)
  obtain ⟨toB, nonnull, _, restB⟩ := chained.after pre heap
  apply Chained.edit frame pre heap chained ordered
  · intro x mem
    simp only [Set.mem_Ico] at mem
    refine Or.inr ⟨by omega, fun c inPre => ?_⟩
    have := across c inPre b (by simp)
    omega
  · refine ⟨?_, nonnull, ?_, ?_⟩
    · rw [load32_store32_of_apart _ (by omega)]
      exact toB
    · rw [load32_store32_same]
      exact Nat.mod_eq_of_lt word
    · apply restB.frame frame
      intro x mem inside
      simp only [Set.mem_Ico] at inside
      rcases mem with ⟨lo, hi⟩ | ⟨c, memC, lo, hi⟩
      · omega
      · have := above c memC
        omega

theorem slistInsertAfter_chained {heap : Nat} {m : Mem} {b n : Block} {pre post : List Block}
    (chained : Chained m heap (pre ++ b :: post)) (size : load32 m n.addr = n.sz)
    (nonnull : n.addr ≠ 0) (ordered : Ordered heap (pre ++ b :: n :: post)) :
    Chained (slistInsertAfter m b.addr n.addr) heap (pre ++ b :: n :: post) ∧
      Frame m (slistInsertAfter m b.addr n.addr)
        (Set.Ico (n.addr + 4) (n.addr + 8) ∪ Set.Ico (b.addr + 4) (b.addr + 8)) := by
  have old : Ordered heap (pre ++ b :: post) := by
    have sub : (pre ++ b :: post).Sublist (pre ++ b :: n :: post) := by simp
    exact ⟨ordered.cellBound, fun c mem => ordered.bound c (sub.subset mem),
      ordered.ascending.sublist sub, fun c mem => ordered.cellApart c (sub.subset mem)⟩
  obtain ⟨_, restAscending, across⟩ := List.pairwise_append.mp ordered.ascending
  obtain ⟨aboveB, nAscending⟩ := List.pairwise_cons.mp restAscending
  have aboveN := (List.pairwise_cons.mp nAscending).1
  have orderBN := aboveB n (by simp)
  obtain ⟨cellBound, cellApart⟩ := ordered.cellAfter_bound
  have cellB := cellApart b (by simp)
  have cellN := cellApart n (by simp)
  have headB := ordered.cellApart b (by simp)
  have headN := ordered.cellApart n (by simp)
  have boundB := ordered.bound b (by simp)
  have boundN := ordered.bound n (by simp)
  obtain ⟨toB, nonnullB, sizeB, restB⟩ := chained.after pre heap
  have written : slistInsertAfter m b.addr n.addr =
      store32 (store32 m (n.addr + 4) (sleNext m b.addr)) (b.addr + 4) n.addr := rfl
  have frame : Frame m (slistInsertAfter m b.addr n.addr)
      (Set.Ico (n.addr + 4) (n.addr + 8) ∪ Set.Ico (b.addr + 4) (b.addr + 8)) := by
    rw [written]
    exact ((store32_frame _ _ _).mono Set.subset_union_left).trans
      ((store32_frame _ _ _).mono Set.subset_union_right)
  have outside : ∀ x, (x < n.addr + 4 ∨ n.addr + 8 ≤ x) → (x < b.addr + 4 ∨ b.addr + 8 ≤ x) →
      x ∉ Set.Ico (n.addr + 4) (n.addr + 8) ∪ Set.Ico (b.addr + 4) (b.addr + 8) := by
    intro x outN outB mem
    simp only [Set.mem_union, Set.mem_Ico] at mem
    omega
  refine ⟨Chained.edit frame pre heap chained old ?_ ?_, frame⟩
  · intro x mem
    simp only [Set.mem_union, Set.mem_Ico] at mem
    refine Or.inr ⟨by omega, fun c inPre => ?_⟩
    have toB := across c inPre b (by simp)
    have toN := across c inPre n (by simp)
    omega
  · refine ⟨?_, nonnullB, ?_, ?_, nonnull, ?_, ?_⟩
    · rw [frame.load32_eq fun x lo hi => outside x (by omega) (by omega)]
      exact toB
    · rw [frame.load32_eq fun x lo hi => outside x (by omega) (by omega)]
      exact sizeB
    · rw [written, load32_store32_same]
      exact Nat.mod_eq_of_lt (by omega)
    · rw [frame.load32_eq fun x lo hi => outside x (by omega) (by omega)]
      exact size
    · apply restB.recell
      · rw [written, load32_store32_of_apart _ (by omega), load32_store32_same]
        exact Nat.mod_eq_of_lt (load32_lt _ _)
      · intro c memC x lo hi
        have toB := aboveB c (by simp [memC])
        have toN := aboveN c memC
        exact frame x (outside x (by omega) (by omega))

theorem slistInsertHead_chained {heap : Nat} {m : Mem} {n : Block} {F : List Block}
    (chained : Chained m heap F) (size : load32 m n.addr = n.sz) (nonnull : n.addr ≠ 0)
    (ordered : Ordered heap (n :: F)) :
    Chained (slistInsertHead m heap n.addr) heap (n :: F) ∧
      Frame m (slistInsertHead m heap n.addr)
        (Set.Ico (n.addr + 4) (n.addr + 8) ∪ Set.Ico heap (heap + 4)) := by
  have above := (List.pairwise_cons.mp ordered.ascending).1
  have headN := ordered.cellApart n (by simp)
  have boundN := ordered.bound n (by simp)
  have headBound := ordered.cellBound
  have written : slistInsertHead m heap n.addr =
      store32 (store32 m (n.addr + 4) (load32 m heap)) heap n.addr := rfl
  have frame : Frame m (slistInsertHead m heap n.addr)
      (Set.Ico (n.addr + 4) (n.addr + 8) ∪ Set.Ico heap (heap + 4)) := by
    rw [written]
    exact ((store32_frame _ _ _).mono Set.subset_union_left).trans
      ((store32_frame _ _ _).mono Set.subset_union_right)
  refine ⟨⟨?_, nonnull, ?_, ?_⟩, frame⟩
  · rw [written, load32_store32_same]
    exact Nat.mod_eq_of_lt (by omega)
  · rw [written, load32_store32_of_apart _ (by omega), load32_store32_of_apart _ (by omega)]
    exact size
  · apply chained.recell
    · rw [written, load32_store32_of_apart _ (by omega), load32_store32_same]
      exact Nat.mod_eq_of_lt (load32_lt _ _)
    · intro c memC x lo hi
      have toN := above c memC
      have headC := ordered.cellApart c (by simp [memC])
      apply frame
      intro mem
      simp only [Set.mem_union, Set.mem_Ico] at mem
      omega

theorem Ordered.sublist {cell : Nat} {L L' : List Block} (h : Ordered cell L)
    (sub : L'.Sublist L) : Ordered cell L' :=
  ⟨h.cellBound, fun b mem => h.bound b (sub.subset mem), h.ascending.sublist sub,
    fun b mem => h.cellApart b (sub.subset mem)⟩

theorem Ordered.insert {cell : Nat} {b : Block} {pre post : List Block}
    (h : Ordered cell (pre ++ post)) (bound : b.addr + 8 ≤ 0x100000000)
    (apart : cell + 4 ≤ b.addr ∨ b.addr + 8 ≤ cell) (below : ∀ c ∈ pre, c.addr + 8 ≤ b.addr)
    (above : ∀ c ∈ post, b.addr + 8 ≤ c.addr) : Ordered cell (pre ++ b :: post) := by
  obtain ⟨preAscending, postAscending, across⟩ := List.pairwise_append.mp h.ascending
  have mem_old : ∀ {c}, c ∈ pre ++ b :: post → c = b ∨ c ∈ pre ++ post := by
    intro c mem
    simp only [List.mem_append, List.mem_cons] at mem ⊢
    rcases mem with inPre | rfl | inPost
    · exact Or.inr (Or.inl inPre)
    · exact Or.inl rfl
    · exact Or.inr (Or.inr inPost)
  refine ⟨h.cellBound, fun c mem => ?_, ?_, fun c mem => ?_⟩
  · rcases mem_old mem with rfl | old
    · exact bound
    · exact h.bound c old
  · refine List.pairwise_append.mpr
      ⟨preAscending, List.pairwise_cons.mpr ⟨above, postAscending⟩, fun c inPre d mem => ?_⟩
    rcases List.mem_cons.mp mem with rfl | inPost
    · exact below c inPre
    · exact across c inPre d inPost
  · rcases mem_old mem with rfl | old
    · exact apart
    · exact h.cellApart c old

end Trunix
