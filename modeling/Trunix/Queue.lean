import Trunix.Vm

/-!
# The `LIST` macros of `include/sys/queue.h`

A node is a `u32` size followed by its list entry, as in `struct block` of
`kernel/mem.c`: the size at `p`, `le_next` at `p + 4` and `le_prev` at `p + 8`.
`le_prev` holds the address of the cell that points to the node, which is either
the list head or the `le_next` of the node before.  `Linked m cell L` says that the
list that starts in `cell` has the blocks of `L`, in order and with both links right.
-/

set_option autoImplicit false

namespace Trunix

open Trunix.Lib

structure Block where
  addr : Nat
  sz : Nat
  deriving DecidableEq, Repr

def Block.Apart (b c : Block) : Prop := b.addr + b.sz ≤ c.addr ∨ c.addr + c.sz ≤ b.addr

theorem Block.Apart.symm {b c : Block} (h : b.Apart c) : c.Apart b := Or.symm h

/-- The headers of two blocks, whatever their sizes say, do not overlap. -/
def Block.HeadsApart (b c : Block) : Prop := b.addr + 12 ≤ c.addr ∨ c.addr + 12 ≤ b.addr

theorem Block.HeadsApart.symm {b c : Block} (h : b.HeadsApart c) : c.HeadsApart b := Or.symm h

def leNext (m : Mem) (p : Nat) : Nat := load32 m (p + 4)

def lePrev (m : Mem) (p : Nat) : Nat := load32 m (p + 8)

def listRemove (m : Mem) (elm : Nat) : Mem :=
  let m := if leNext m elm ≠ 0 then store32 m (leNext m elm + 8) (lePrev m elm) else m
  store32 m (lePrev m elm) (leNext m elm)

def listInsertBefore (m : Mem) (listelm elm : Nat) : Mem :=
  let m := store32 m (elm + 8) (lePrev m listelm)
  let m := store32 m (elm + 4) listelm
  let m := store32 m (lePrev m listelm) elm
  store32 m (listelm + 8) (elm + 4)

def listInsertAfter (m : Mem) (listelm elm : Nat) : Mem :=
  let m := store32 m (elm + 4) (leNext m listelm)
  let m := if leNext m elm ≠ 0 then store32 m (leNext m listelm + 8) (elm + 4) else m
  let m := store32 m (listelm + 4) elm
  store32 m (elm + 8) (listelm + 4)

/-! ## Lists in memory -/

def Linked (m : Mem) : Nat → List Block → Prop
  | cell, [] => load32 m cell = 0
  | cell, b :: rest =>
      load32 m cell = b.addr ∧ b.addr ≠ 0 ∧ load32 m b.addr = b.sz ∧
        lePrev m b.addr = cell ∧ Linked m (b.addr + 4) rest

instance linkedDecidable (m : Mem) : ∀ (cell : Nat) (L : List Block), Decidable (Linked m cell L)
  | cell, [] => inferInstanceAs (Decidable (load32 m cell = 0))
  | cell, b :: rest =>
      have := linkedDecidable m (b.addr + 4) rest
      inferInstanceAs (Decidable (load32 m cell = b.addr ∧ b.addr ≠ 0 ∧ load32 m b.addr = b.sz ∧
        lePrev m b.addr = cell ∧ Linked m (b.addr + 4) rest))

/-- The bytes a list occupies: its first cell and the header of every node. -/
def linkBytes (cell : Nat) (L : List Block) : Set Nat :=
  { x | (cell ≤ x ∧ x < cell + 4) ∨ ∃ b ∈ L, b.addr ≤ x ∧ x < b.addr + 12 }

/-- No header overlaps another one or the cell that starts the list. -/
structure Headed (cell : Nat) (L : List Block) : Prop where
  cellBound : cell + 4 ≤ 0x100000000
  bound : ∀ b ∈ L, b.addr + 12 ≤ 0x100000000
  apart : L.Pairwise Block.HeadsApart
  cellApart : ∀ b ∈ L, cell + 4 ≤ b.addr ∨ b.addr + 12 ≤ cell

theorem Headed.tail {cell : Nat} {b : Block} {rest : List Block} (h : Headed cell (b :: rest)) :
    Headed (b.addr + 4) rest := by
  have bound := h.bound b (by simp)
  obtain ⟨apart, restApart⟩ := List.pairwise_cons.mp h.apart
  refine ⟨by omega, fun c mem => h.bound c (by simp [mem]), restApart, fun c mem => ?_⟩
  rcases apart c mem with before | after <;> omega

theorem Headed.sublist {cell : Nat} {L L' : List Block} (h : Headed cell L)
    (sub : L'.Sublist L) : Headed cell L' :=
  ⟨h.cellBound, fun b mem => h.bound b (sub.subset mem), h.apart.sublist sub,
    fun b mem => h.cellApart b (sub.subset mem)⟩

theorem Linked.congr {m m' : Mem} : ∀ {L : List Block} {cell : Nat}, Linked m cell L →
    (∀ x ∈ linkBytes cell L, m' x = m x) → Linked m' cell L := by
  intro L
  induction L with
  | nil =>
      intro cell linked same
      exact (loadLE_congr m m' 4 cell (fun x lo hi => same x (Or.inl ⟨lo, hi⟩))).trans linked
  | cons b rest ih =>
      intro cell linked same
      obtain ⟨first, nonnull, size, prev, restLinked⟩ := linked
      have header : ∀ x, b.addr ≤ x → x < b.addr + 12 → m' x = m x := fun x lo hi =>
        same x (Or.inr ⟨b, by simp, lo, hi⟩)
      refine ⟨?_, nonnull, ?_, ?_, ih restLinked ?_⟩
      · exact (loadLE_congr m m' 4 cell (fun x lo hi => same x (Or.inl ⟨lo, hi⟩))).trans first
      · exact (loadLE_congr m m' 4 _ (fun x lo hi => header x lo (by omega))).trans size
      · exact (loadLE_congr m m' 4 _ (fun x lo hi => header x (by omega) (by omega))).trans prev
      · intro x mem
        rcases mem with ⟨lo, hi⟩ | ⟨c, memC, lo, hi⟩
        · exact header x (by omega) (by omega)
        · exact same x (Or.inr ⟨c, by simp [memC], lo, hi⟩)

theorem Linked.frame {m m' : Mem} {S : Set Nat} {L : List Block} {cell : Nat}
    (linked : Linked m cell L) (h : Frame m m' S) (out : ∀ x ∈ linkBytes cell L, x ∉ S) :
    Linked m' cell L :=
  linked.congr (fun x mem => h x (out x mem))

theorem Linked.size_eq {m : Mem} {b : Block} : ∀ {L : List Block} {cell : Nat},
    Linked m cell L → b ∈ L → load32 m b.addr = b.sz := by
  intro L
  induction L with
  | nil => intro cell _ mem; simp at mem
  | cons c rest ih =>
      intro cell linked mem
      rcases List.mem_cons.mp mem with rfl | inRest
      · exact linked.2.2.1
      · exact ih linked.2.2.2.2 inRest

/-- The step of every induction along a list: what changes only the list that
starts in `b`'s `le_next` leaves `b` itself linked. -/
theorem Linked.cons_of_frame {m m' : Mem} {S : Set Nat} {cell : Nat} {b : Block}
    {rest L : List Block} (linked : Linked m cell (b :: rest)) (h : Frame m m' S)
    (cellOut : ∀ x, cell ≤ x → x < cell + 4 → x ∉ S)
    (sizeOut : ∀ x, b.addr ≤ x → x < b.addr + 4 → x ∉ S)
    (prevOut : ∀ x, b.addr + 8 ≤ x → x < b.addr + 12 → x ∉ S)
    (tail : Linked m' (b.addr + 4) L) : Linked m' cell (b :: L) := by
  obtain ⟨first, nonnull, size, prev, _⟩ := linked
  refine ⟨(h.load32_eq cellOut).trans first, nonnull, (h.load32_eq sizeOut).trans size,
    (h.load32_eq ?_).trans prev, tail⟩
  intro x lo hi
  exact prevOut x lo (by omega)

/-! ## `LIST_REMOVE` -/

theorem listRemove_first {m : Mem} {cell : Nat} {b : Block} {post : List Block}
    (linked : Linked m cell (b :: post)) (headed : Headed cell (b :: post)) :
    Linked (listRemove m b.addr) cell post ∧
      Frame m (listRemove m b.addr) (linkBytes cell post) := by
  obtain ⟨first, nonnull, size, prev, rest⟩ := linked
  have cellBound := headed.cellBound
  have cellB := headed.cellApart b (by simp)
  cases post with
  | nil =>
      have next : leNext m b.addr = 0 := rest
      have written : listRemove m b.addr = store32 m cell 0 := by
        simp [listRemove, next, prev]
      rw [written]
      refine ⟨by simp [Linked], (store32_frame m cell 0).mono ?_⟩
      intro x mem
      exact Or.inl mem
  | cons c post =>
      obtain ⟨next, nonnullC, sizeC, prevC, restC⟩ := rest
      have apartBC := (List.pairwise_cons.mp headed.apart).1 c (by simp)
      have boundC := headed.bound c (by simp)
      have cellC := headed.cellApart c (by simp)
      have nextB : leNext m b.addr = c.addr := next
      simp only [Block.HeadsApart] at apartBC
      -- after the back link of `c` is set, `b`'s own links are still readable
      have prevKept : lePrev (store32 m (c.addr + 8) cell) b.addr = cell := by
        rw [lePrev, load32_store32_of_apart _ (by omega)]
        exact prev
      have nextKept : leNext (store32 m (c.addr + 8) cell) b.addr = c.addr := by
        rw [leNext, load32_store32_of_apart _ (by omega)]
        exact next
      have written : listRemove m b.addr =
          store32 (store32 m (c.addr + 8) cell) cell c.addr := by
        simp [listRemove, nextB, nonnullC, prev, prevKept, nextKept]
      rw [written]
      constructor
      · refine ⟨?_, nonnullC, ?_, ?_, ?_⟩
        · rw [load32_store32_same]
          omega
        · rw [load32_store32_of_apart _ (by omega), load32_store32_of_apart _ (by omega)]
          exact sizeC
        · rw [lePrev, load32_store32_of_apart _ (by omega), load32_store32_same]
          omega
        · have frame := (store32_frame m (c.addr + 8) cell).mono
            (Set.subset_union_left (t := Set.Ico cell (cell + 4)))
          have frame' := (store32_frame (store32 m (c.addr + 8) cell) cell c.addr).mono
            (Set.subset_union_right (s := Set.Ico (c.addr + 8) (c.addr + 8 + 4)))
          apply restC.frame (frame.trans frame')
          rintro x (⟨lo, hi⟩ | ⟨d, memD, lo, hi⟩) (mem | mem) <;> simp only [Set.mem_Ico] at mem
          · omega
          · omega
          · have apartCD := (List.pairwise_cons.mp headed.tail.apart).1 d memD
            simp only [Block.HeadsApart] at apartCD
            omega
          · have cellD := headed.cellApart d (by simp [memD])
            omega
      · apply Frame.trans ((store32_frame _ _ _).mono ?_) ((store32_frame _ _ _).mono ?_)
        · intro x mem
          simp only [Set.mem_Ico] at mem
          exact Or.inr ⟨c, by simp, by omega, by omega⟩
        · intro x mem
          exact Or.inl mem

theorem listRemove_linked {m : Mem} {b : Block} {post : List Block} :
    ∀ {pre : List Block} {cell : Nat}, Linked m cell (pre ++ b :: post) →
      Headed cell (pre ++ b :: post) →
      Linked (listRemove m b.addr) cell (pre ++ post) ∧
        Frame m (listRemove m b.addr) (linkBytes cell (pre ++ post)) := by
  intro pre
  induction pre with
  | nil =>
      intro cell linked headed
      exact listRemove_first linked headed
  | cons c pre ih =>
      intro cell linked headed
      obtain ⟨tail, frame⟩ := ih linked.2.2.2.2 headed.tail
      have cellC := headed.cellApart c (by simp)
      have apart : ∀ d ∈ pre ++ post, c.HeadsApart d ∧ (cell + 4 ≤ d.addr ∨ d.addr + 12 ≤ cell) := by
        intro d mem
        have memAll : d ∈ pre ++ b :: post := by
          rcases List.mem_append.mp mem with inPre | inPost
          · exact List.mem_append_left _ inPre
          · exact List.mem_append_right _ (List.mem_cons_of_mem _ inPost)
        exact ⟨(List.pairwise_cons.mp headed.apart).1 d memAll,
          headed.cellApart d (List.mem_cons_of_mem _ memAll)⟩
      constructor
      · apply linked.cons_of_frame frame ?_ ?_ ?_ tail
        all_goals
          rintro x lo hi (⟨lo', hi'⟩ | ⟨d, memD, lo', hi'⟩)
          · omega
          · have := apart d memD
            simp only [Block.HeadsApart] at this
            omega
      · apply frame.mono
        rintro x (⟨lo, hi⟩ | ⟨d, memD, lo, hi⟩)
        · exact Or.inr ⟨c, by simp, by omega, by omega⟩
        · exact Or.inr ⟨d, by simp only [List.cons_append, List.mem_cons]; exact Or.inr memD, lo, hi⟩

/-! ## `LIST_INSERT_BEFORE` and `LIST_INSERT_AFTER` -/

/-- A header that can be linked into the list: it overlaps neither the headers on it
nor the cell that starts it. -/
structure HeadFits (n : Block) (cell : Nat) (L : List Block) : Prop where
  nonnull : n.addr ≠ 0
  bound : n.addr + 12 ≤ 0x100000000
  apart : ∀ b ∈ L, n.HeadsApart b
  cellApart : cell + 4 ≤ n.addr ∨ n.addr + 12 ≤ cell

theorem HeadFits.tail {n b : Block} {cell : Nat} {rest : List Block}
    (h : HeadFits n cell (b :: rest)) : HeadFits n (b.addr + 4) rest := by
  have apart := h.apart b (by simp)
  simp only [Block.HeadsApart] at apart
  exact ⟨h.nonnull, h.bound, fun c mem => h.apart c (by simp [mem]), by omega⟩

/-- The bytes an insertion may write: the list's own and the new header. -/
def insertBytes (n cell : Nat) (L : List Block) : Set Nat :=
  linkBytes cell L ∪ Set.Ico n (n + 12)

/-- An insertion into the list behind `b` leaves `b` linked and writes nothing that an
insertion into the whole list may not. -/
theorem insert_behind {m m' : Mem} {cell : Nat} {n b : Block} {rest : List Block}
    (linked : Linked m cell (b :: rest)) (headed : Headed cell (b :: rest))
    (fits : HeadFits n cell (b :: rest)) (frame : Frame m m' (insertBytes n.addr (b.addr + 4) rest)) :
    (∀ L, Linked m' (b.addr + 4) L → Linked m' cell (b :: L)) ∧
      Frame m m' (insertBytes n.addr cell (b :: rest)) := by
  have cellB := headed.cellApart b (by simp)
  have apartNB := fits.apart b (by simp)
  have cellN := fits.cellApart
  simp only [Block.HeadsApart] at apartNB
  constructor
  · intro L tail
    apply linked.cons_of_frame frame ?_ ?_ ?_ tail
    all_goals
      intro x lo hi mem
      rcases mem with (⟨lo', hi'⟩ | ⟨d, memD, lo', hi'⟩) | mem
      · omega
      · have apartBD := (List.pairwise_cons.mp headed.apart).1 d memD
        have cellD := headed.cellApart d (List.mem_cons_of_mem _ memD)
        simp only [Block.HeadsApart] at apartBD
        omega
      · simp only [Set.mem_Ico] at mem
        omega
  · apply frame.mono
    intro x mem
    rcases mem with (⟨lo, hi⟩ | ⟨d, memD, lo, hi⟩) | mem
    · exact Or.inl (Or.inr ⟨b, by simp, by omega, by omega⟩)
    · exact Or.inl (Or.inr ⟨d, List.mem_cons_of_mem _ memD, lo, hi⟩)
    · exact Or.inr mem

theorem listInsertBefore_linked {m : Mem} {cell : Nat} {n b : Block} {post : List Block}
    (linked : Linked m cell (b :: post)) (headed : Headed cell (b :: post))
    (fits : HeadFits n cell (b :: post)) (size : load32 m n.addr = n.sz) :
    Linked (listInsertBefore m b.addr n.addr) cell (n :: b :: post) ∧
      Frame m (listInsertBefore m b.addr n.addr) (insertBytes n.addr cell (b :: post)) := by
  obtain ⟨first, nonnull, sizeB, prev, rest⟩ := linked
  have cellBound := headed.cellBound
  have cellB := headed.cellApart b (by simp)
  have boundB := headed.bound b (by simp)
  have apartNB := fits.apart b (by simp)
  have cellN := fits.cellApart
  have boundN := fits.bound
  simp only [Block.HeadsApart] at apartNB
  -- the second read of `listelm->le_prev` still finds the cell
  have prevKept : lePrev (store32 (store32 m (n.addr + 8) cell) (n.addr + 4) b.addr) b.addr =
      cell := by
    rw [lePrev, load32_store32_of_apart _ (by omega), load32_store32_of_apart _ (by omega)]
    exact prev
  have written : listInsertBefore m b.addr n.addr =
      store32 (store32 (store32 (store32 m (n.addr + 8) cell) (n.addr + 4) b.addr) cell n.addr)
        (b.addr + 8) (n.addr + 4) := by
    simp [listInsertBefore, prev, prevKept]
  have frame : Frame m (listInsertBefore m b.addr n.addr)
      (Set.Ico (n.addr + 4) (n.addr + 12) ∪ Set.Ico cell (cell + 4) ∪
        Set.Ico (b.addr + 8) (b.addr + 12)) := by
    rw [written]
    apply Frame.trans ((store32_frame _ _ _).mono ?_)
      (Frame.trans ((store32_frame _ _ _).mono ?_)
        (Frame.trans ((store32_frame _ _ _).mono ?_) ((store32_frame _ _ _).mono ?_)))
    all_goals
      intro x mem
      simp only [Set.mem_Ico, Set.mem_union] at mem ⊢
      omega
  constructor
  · rw [written] at frame ⊢
    refine ⟨?_, fits.nonnull, ?_, ?_, ?_, nonnull, ?_, ?_, ?_⟩
    · rw [load32_store32_of_apart _ (by omega), load32_store32_same]
      omega
    · rw [frame.load32_eq, size]
      intro x lo hi mem
      simp only [Set.mem_Ico, Set.mem_union] at mem
      omega
    · rw [lePrev, load32_store32_of_apart _ (by omega), load32_store32_of_apart _ (by omega),
        load32_store32_of_apart _ (by omega), load32_store32_same]
      omega
    · rw [load32_store32_of_apart _ (by omega), load32_store32_of_apart _ (by omega),
        load32_store32_same]
      omega
    · rw [frame.load32_eq, sizeB]
      intro x lo hi mem
      simp only [Set.mem_Ico, Set.mem_union] at mem
      omega
    · rw [lePrev, load32_store32_same]
      omega
    · apply rest.frame frame
      rintro x (⟨lo, hi⟩ | ⟨d, memD, lo, hi⟩) mem <;> simp only [Set.mem_Ico, Set.mem_union] at mem
      · omega
      · have apartBD := (List.pairwise_cons.mp headed.apart).1 d memD
        have apartND := fits.apart d (by simp [memD])
        have cellD := headed.cellApart d (by simp [memD])
        simp only [Block.HeadsApart] at apartBD apartND
        omega
  · apply frame.mono
    rintro x ((mem | mem) | mem) <;> simp only [Set.mem_Ico] at mem
    · exact Or.inr (by simp only [Set.mem_Ico]; omega)
    · exact Or.inl (Or.inl mem)
    · exact Or.inl (Or.inr ⟨b, by simp, by omega, by omega⟩)

theorem listInsertAfter_linked {m : Mem} {cell : Nat} {n b : Block} {post : List Block}
    (linked : Linked m cell (b :: post)) (headed : Headed cell (b :: post))
    (fits : HeadFits n cell (b :: post)) (size : load32 m n.addr = n.sz) :
    Linked (listInsertAfter m b.addr n.addr) cell (b :: n :: post) ∧
      Frame m (listInsertAfter m b.addr n.addr) (insertBytes n.addr cell (b :: post)) := by
  have rest := linked.2.2.2.2
  have cellBound := headed.cellBound
  have cellB := headed.cellApart b (by simp)
  have boundB := headed.bound b (by simp)
  have apartNB := fits.apart b (by simp)
  have cellN := fits.cellApart
  have boundN := fits.bound
  simp only [Block.HeadsApart] at apartNB
  cases post with
  | nil =>
      have next : leNext m b.addr = 0 := rest
      have nextN : leNext (store32 m (n.addr + 4) 0) n.addr = 0 := load32_store32_same _ _ _
      have written : listInsertAfter m b.addr n.addr =
          store32 (store32 (store32 m (n.addr + 4) 0) (b.addr + 4) n.addr) (n.addr + 8)
            (b.addr + 4) := by
        simp [listInsertAfter, next, nextN]
      have frame : Frame m (listInsertAfter m b.addr n.addr)
          (Set.Ico (n.addr + 4) (n.addr + 12) ∪ Set.Ico (b.addr + 4) (b.addr + 8)) := by
        rw [written]
        apply Frame.trans ((store32_frame _ _ _).mono ?_)
          (Frame.trans ((store32_frame _ _ _).mono ?_) ((store32_frame _ _ _).mono ?_))
        all_goals
          intro x mem
          simp only [Set.mem_Ico, Set.mem_union] at mem ⊢
          omega
      constructor
      · rw [written] at frame ⊢
        refine linked.cons_of_frame frame ?_ ?_ ?_ ⟨?_, fits.nonnull, ?_, ?_, ?_⟩
        iterate 3
          · intro x lo hi mem
            simp only [Set.mem_Ico, Set.mem_union] at mem
            omega
        · rw [load32_store32_of_apart _ (by omega), load32_store32_same]
          omega
        · rw [frame.load32_eq, size]
          intro x lo hi mem
          simp only [Set.mem_Ico, Set.mem_union] at mem
          omega
        · rw [lePrev, load32_store32_same]
          omega
        · rw [Linked, load32_store32_of_apart _ (by omega), load32_store32_of_apart _ (by omega),
            load32_store32_same]
      · apply frame.mono
        rintro x (mem | mem) <;> simp only [Set.mem_Ico] at mem
        · exact Or.inr (by simp only [Set.mem_Ico]; omega)
        · exact Or.inl (Or.inr ⟨b, by simp, by omega, by omega⟩)
  | cons c post =>
      obtain ⟨next, nonnullC, sizeC, prevC, restC⟩ := rest
      have nextB : leNext m b.addr = c.addr := next
      have apartBC := (List.pairwise_cons.mp headed.apart).1 c (by simp)
      have apartNC := fits.apart c (by simp)
      have boundC := headed.bound c (by simp)
      have cellC := headed.cellApart c (by simp)
      simp only [Block.HeadsApart] at apartBC apartNC
      have nextN : leNext (store32 m (n.addr + 4) c.addr) n.addr = c.addr := by
        rw [leNext, load32_store32_same]
        omega
      have nextKept : leNext (store32 m (n.addr + 4) c.addr) b.addr = c.addr := by
        rw [leNext, load32_store32_of_apart _ (by omega)]
        exact next
      have written : listInsertAfter m b.addr n.addr =
          store32 (store32 (store32 (store32 m (n.addr + 4) c.addr) (c.addr + 8) (n.addr + 4))
            (b.addr + 4) n.addr) (n.addr + 8) (b.addr + 4) := by
        simp [listInsertAfter, nextB, nextN, nextKept, nonnullC]
      have frame : Frame m (listInsertAfter m b.addr n.addr)
          (Set.Ico (n.addr + 4) (n.addr + 12) ∪ Set.Ico (b.addr + 4) (b.addr + 8) ∪
            Set.Ico (c.addr + 8) (c.addr + 12)) := by
        rw [written]
        apply Frame.trans ((store32_frame _ _ _).mono ?_)
          (Frame.trans ((store32_frame _ _ _).mono ?_)
            (Frame.trans ((store32_frame _ _ _).mono ?_) ((store32_frame _ _ _).mono ?_)))
        all_goals
          intro x mem
          simp only [Set.mem_Ico, Set.mem_union] at mem ⊢
          omega
      constructor
      · rw [written] at frame ⊢
        refine linked.cons_of_frame frame ?_ ?_ ?_ ⟨?_, fits.nonnull, ?_, ?_, ?_, nonnullC, ?_, ?_, ?_⟩
        iterate 3
          · intro x lo hi mem
            simp only [Set.mem_Ico, Set.mem_union] at mem
            omega
        · rw [load32_store32_of_apart _ (by omega), load32_store32_same]
          omega
        · rw [frame.load32_eq, size]
          intro x lo hi mem
          simp only [Set.mem_Ico, Set.mem_union] at mem
          omega
        · rw [lePrev, load32_store32_same]
          omega
        · rw [load32_store32_of_apart _ (by omega), load32_store32_of_apart _ (by omega),
            load32_store32_of_apart _ (by omega), load32_store32_same]
          omega
        · rw [frame.load32_eq, sizeC]
          intro x lo hi mem
          simp only [Set.mem_Ico, Set.mem_union] at mem
          omega
        · rw [lePrev, load32_store32_of_apart _ (by omega), load32_store32_of_apart _ (by omega),
            load32_store32_same]
          omega
        · apply restC.frame frame
          rintro x (⟨lo, hi⟩ | ⟨d, memD, lo, hi⟩) mem <;>
            simp only [Set.mem_Ico, Set.mem_union] at mem
          · omega
          · have apartBD := (List.pairwise_cons.mp headed.apart).1 d (by simp [memD])
            have apartCD := (List.pairwise_cons.mp headed.tail.apart).1 d memD
            have apartND := fits.apart d (by simp [memD])
            simp only [Block.HeadsApart] at apartBD apartCD apartND
            omega
      · apply frame.mono
        rintro x ((mem | mem) | mem) <;> simp only [Set.mem_Ico] at mem
        · exact Or.inr (by simp only [Set.mem_Ico]; omega)
        · exact Or.inl (Or.inr ⟨b, by simp, by omega, by omega⟩)
        · exact Or.inl (Or.inr ⟨c, by simp, by omega, by omega⟩)

/-! ## Blocks that fill their extents -/

/-- No header overlaps another block or the cell that starts the list. -/
structure Spaced (cell : Nat) (L : List Block) : Prop where
  cellBound : cell + 4 ≤ 0x100000000
  size : ∀ b ∈ L, 12 ≤ b.sz
  bound : ∀ b ∈ L, b.addr + b.sz ≤ 0x100000000
  apart : L.Pairwise Block.Apart
  cellApart : ∀ b ∈ L, cell + 4 ≤ b.addr ∨ b.addr + b.sz ≤ cell

/-- A block that can be linked into the list: it overlaps neither the blocks on it
nor the cell that starts it. -/
structure Fits (n : Block) (cell : Nat) (L : List Block) : Prop where
  nonnull : n.addr ≠ 0
  size : 12 ≤ n.sz
  bound : n.addr + n.sz ≤ 0x100000000
  apart : ∀ b ∈ L, n.Apart b
  cellApart : cell + 4 ≤ n.addr ∨ n.addr + n.sz ≤ cell

theorem Block.Apart.heads {b c : Block} (h : b.Apart c) (sizeB : 12 ≤ b.sz) (sizeC : 12 ≤ c.sz) :
    b.HeadsApart c := by
  simp only [Block.Apart] at h
  simp only [Block.HeadsApart]
  omega

theorem Spaced.headed {cell : Nat} {L : List Block} (h : Spaced cell L) : Headed cell L := by
  refine ⟨h.cellBound, fun b mem => ?_, ?_, fun b mem => ?_⟩
  · have size := h.size b mem
    have bound := h.bound b mem
    omega
  · exact h.apart.imp_of_mem fun memB memC apart => apart.heads (h.size _ memB) (h.size _ memC)
  · have size := h.size b mem
    have apart := h.cellApart b mem
    omega

theorem Fits.head {n : Block} {cell : Nat} {L : List Block} (fits : Fits n cell L)
    (spaced : Spaced cell L) : HeadFits n cell L := by
  have size := fits.size
  have bound := fits.bound
  have cellApart := fits.cellApart
  exact ⟨fits.nonnull, by omega,
    fun b mem => (fits.apart b mem).heads size (spaced.size b mem), by omega⟩

end Trunix
