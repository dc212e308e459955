import Trunix.Queue
import Mathlib

/-!
# Lists of memory blocks

The allocators of `kernel/mem.c` as edits of lists of blocks.  `takeFit` is their
first fit; `putBack` is how `free_pages` links a block in, which it only does while
it walks over another block, so that on an empty list it changes nothing.  `Tidy`
collects what both allocators keep of their blocks, for pages as for heap cells.
-/

set_option autoImplicit false

namespace Trunix

/-! ## The edits on lists of blocks -/

/-- First fit: the block that is taken and what stays on the list. -/
def takeFit (sz : Nat) : List Block → Option (Block × List Block)
  | [] => none
  | b :: rest =>
      if sz ≤ b.sz then some (b, rest)
      else (takeFit sz rest).map fun found => (found.1, b :: found.2)

def putBack (n : Block) : List Block → List Block
  | [] => []
  | [b] => if n.sz ≤ b.sz then [n, b] else [b, n]
  | b :: c :: rest =>
      if n.sz ≤ b.sz then n :: b :: c :: rest else b :: putBack n (c :: rest)

def Block.rest (b : Block) (r : Nat) : Block := ⟨b.addr + r, b.sz - r⟩

def splitRest (r : Nat) (b : Block) (rest : List Block) : List Block :=
  if r < b.sz then putBack (b.rest r) rest else rest

theorem takeFit_eq_none {sz : Nat} : ∀ {L : List Block},
    takeFit sz L = none ↔ ∀ b ∈ L, b.sz < sz := by
  intro L
  induction L with
  | nil => simp [takeFit]
  | cons b rest ih =>
      by_cases fits : sz ≤ b.sz
      · simp [takeFit, fits]
      · simp [takeFit, fits, ih, Nat.lt_of_not_le fits]

theorem takeFit_split {sz : Nat} {b : Block} : ∀ {L rest : List Block},
    takeFit sz L = some (b, rest) →
      ∃ pre post, L = pre ++ b :: post ∧ rest = pre ++ post ∧ sz ≤ b.sz ∧
        ∀ c ∈ pre, c.sz < sz := by
  intro L
  induction L with
  | nil => intro rest taken; simp [takeFit] at taken
  | cons c tail ih =>
      intro rest taken
      by_cases fits : sz ≤ c.sz
      · simp only [takeFit, if_pos fits, Option.some.injEq, Prod.mk.injEq] at taken
        obtain ⟨rfl, rfl⟩ := taken
        exact ⟨[], tail, rfl, rfl, fits, by simp⟩
      · simp only [takeFit, if_neg fits] at taken
        obtain ⟨⟨d, left⟩, found, pair⟩ := Option.map_eq_some_iff.mp taken
        simp only [Prod.mk.injEq] at pair
        obtain ⟨rfl, rfl⟩ := pair
        obtain ⟨pre, post, rfl, rfl, fit, small⟩ := ih found
        refine ⟨c :: pre, post, rfl, rfl, fit, ?_⟩
        intro e mem
        rcases List.mem_cons.mp mem with rfl | inPre
        · exact Nat.lt_of_not_le fits
        · exact small e inPre

theorem takeFit_append {sz : Nat} {b : Block} {post : List Block} (fit : sz ≤ b.sz) :
    ∀ {pre : List Block}, (∀ c ∈ pre, c.sz < sz) →
      takeFit sz (pre ++ b :: post) = some (b, pre ++ post) := by
  intro pre
  induction pre with
  | nil => intro _; simp [takeFit, fit]
  | cons c pre ih =>
      intro small
      have tooSmall : ¬ sz ≤ c.sz := Nat.not_le_of_lt (small c (by simp))
      have rest := ih (fun d mem => small d (by simp [mem]))
      simp [takeFit, tooSmall, rest]

theorem takeFit_perm {sz : Nat} {b : Block} {L rest : List Block}
    (taken : takeFit sz L = some (b, rest)) : L.Perm (b :: rest) := by
  obtain ⟨pre, post, rfl, rfl, _⟩ := takeFit_split taken
  exact List.perm_middle

theorem putBack_perm (n : Block) : ∀ {L : List Block}, L ≠ [] → (putBack n L).Perm (n :: L) := by
  intro L
  induction L with
  | nil => intro h; exact absurd rfl h
  | cons b rest ih =>
      intro _
      cases rest with
      | nil =>
          by_cases before : n.sz ≤ b.sz
          · simp [putBack, before]
          · simpa [putBack, before] using List.Perm.swap n b []
      | cons c rest =>
          by_cases before : n.sz ≤ b.sz
          · simp [putBack, before]
          · simp only [putBack, if_neg before]
            exact ((ih (by simp)).cons b).trans (List.Perm.swap n b _)

theorem mem_putBack {n b : Block} {L : List Block} (mem : b ∈ putBack n L) : b = n ∨ b ∈ L := by
  cases L with
  | nil => simp [putBack] at mem
  | cons c rest => exact List.mem_cons.mp ((putBack_perm n (by simp)).mem_iff.mp mem)

/-! ## Well-formed blocks -/

/-- A block made of whole granules of `g` bytes, not past the end of the address space. -/
structure Block.Grained (g : Nat) (b : Block) : Prop where
  nonnull : b.addr ≠ 0
  aligned : g ∣ b.addr
  whole : g ∣ b.sz
  nonempty : 0 < b.sz
  bound : b.addr + b.sz ≤ 0x100000000

abbrev Block.Paged (b : Block) : Prop := b.Grained 0x1000

theorem Block.Grained.front {g r : Nat} {b : Block} (h : b.Grained g) (whole : g ∣ r)
    (pos : 0 < r) (le : r ≤ b.sz) : Block.Grained g ⟨b.addr, r⟩ :=
  ⟨h.nonnull, h.aligned, whole, pos, Nat.le_trans (Nat.add_le_add_left le _) h.bound⟩

theorem Block.Grained.rest {g r : Nat} {b : Block} (h : b.Grained g) (whole : g ∣ r)
    (lt : r < b.sz) : (b.rest r).Grained g := by
  have bound := h.bound
  have nonnull := h.nonnull
  refine ⟨?_, Nat.dvd_add h.aligned whole, Nat.dvd_sub h.whole whole, ?_, ?_⟩ <;>
    simp only [Block.rest] <;> omega

/-- Rounding the request up keeps it inside every block that was large enough. -/
theorem Block.Grained.pgRoundup_le {b : Block} (h : b.Paged) {sz : Nat} (fits : sz ≤ b.sz) :
    pgRoundup sz ≤ b.sz := by
  have nonnull := h.nonnull
  have bound := h.bound
  have whole := h.whole
  exact Trunix.pgRoundup_le fits (by omega) (by omega)

def Block.Inside (b c : Block) : Prop := c.addr ≤ b.addr ∧ b.addr + b.sz ≤ c.addr + c.sz

/-- Disjoint blocks of whole granules, each inside one block of `init`. -/
structure Tidy (g : Nat) (init blocks : List Block) : Prop where
  grained : ∀ b ∈ blocks, b.Grained g
  inside : ∀ b ∈ blocks, ∃ c ∈ init, b.Inside c
  apart : blocks.Pairwise Block.Apart

theorem Tidy.subperm {g : Nat} {init bs cs : List Block} (h : Tidy g init bs) (sub : cs.Subperm bs) :
    Tidy g init cs := by
  obtain ⟨ds, perm, sublist⟩ := sub
  have mem : ∀ b ∈ cs, b ∈ bs := fun b inside => sublist.subset (perm.mem_iff.mpr inside)
  exact ⟨fun b inside => h.grained b (mem b inside), fun b inside => h.inside b (mem b inside),
    (perm.pairwise_iff Block.Apart.symm).mp (h.apart.sublist sublist)⟩

instance apartSymm : Std.Symm Block.Apart := ⟨fun _ _ => Block.Apart.symm⟩

theorem Tidy.apart_of_ne {g : Nat} {init bs : List Block} {b c : Block} (h : Tidy g init bs)
    (memB : b ∈ bs) (memC : c ∈ bs) (ne : b ≠ c) : b.Apart c :=
  h.apart.forall memB memC ne

def pieces (r : Nat) (b : Block) : List Block :=
  if r < b.sz then [⟨b.addr, r⟩, b.rest r] else [⟨b.addr, r⟩]

theorem Tidy.pieces {g r : Nat} {init rest : List Block} {b : Block} (h : Tidy g init (b :: rest))
    (pos : 0 < r) (whole : g ∣ r) (le : r ≤ b.sz) : Tidy g init (pieces r b ++ rest) := by
  have grainedB := h.grained b (by simp)
  obtain ⟨c, memC, insideB⟩ := h.inside b (by simp)
  obtain ⟨apart, restApart⟩ := List.pairwise_cons.mp h.apart
  have firstGrained := grainedB.front whole pos le
  have restGrained : ∀ d ∈ rest, d.Grained g := fun d mem => h.grained d (List.mem_cons_of_mem _ mem)
  have restInside : ∀ d ∈ rest, ∃ c ∈ init, d.Inside c := fun d mem =>
    h.inside d (List.mem_cons_of_mem _ mem)
  have firstInside : Block.Inside ⟨b.addr, r⟩ c := by
    simp only [Block.Inside] at insideB ⊢
    omega
  have firstApart : ∀ d ∈ rest, Block.Apart ⟨b.addr, r⟩ d := by
    intro d mem
    have := apart d mem
    simp only [Block.Apart] at this ⊢
    omega
  by_cases split : r < b.sz
  · have secondGrained := grainedB.rest whole split
    have secondInside : (b.rest r).Inside c := by
      simp only [Block.Inside, Block.rest] at insideB ⊢
      omega
    have secondApart : ∀ d ∈ rest, (b.rest r).Apart d := by
      intro d mem
      have := apart d mem
      simp only [Block.Apart, Block.rest] at this ⊢
      omega
    have between : Block.Apart ⟨b.addr, r⟩ (b.rest r) := Or.inl (Nat.le_refl _)
    rw [Trunix.pieces, if_pos split]
    refine ⟨?_, ?_, ?_⟩
    · simpa [firstGrained, secondGrained] using restGrained
    · intro d mem
      simp only [List.cons_append, List.nil_append, List.mem_cons] at mem
      rcases mem with rfl | rfl | mem
      · exact ⟨c, memC, firstInside⟩
      · exact ⟨c, memC, secondInside⟩
      · exact restInside d mem
    · simp only [List.cons_append, List.nil_append, List.pairwise_cons, List.mem_cons]
      refine ⟨?_, secondApart, restApart⟩
      intro d mem
      rcases mem with rfl | mem
      · exact between
      · exact firstApart d mem
  · rw [Trunix.pieces, if_neg split]
    refine ⟨?_, ?_, ?_⟩
    · simpa [firstGrained] using restGrained
    · intro d mem
      simp only [List.cons_append, List.nil_append, List.mem_cons] at mem
      rcases mem with rfl | mem
      · exact ⟨c, memC, firstInside⟩
      · exact restInside d mem
    · exact List.pairwise_cons.mpr ⟨firstApart, restApart⟩

/-! ## How much memory there is -/

def total (blocks : List Block) : Nat := (blocks.map Block.sz).sum

theorem total_perm {bs cs : List Block} (perm : bs.Perm cs) : total bs = total cs :=
  (perm.map Block.sz).sum_nat

theorem total_append (bs cs : List Block) : total (bs ++ cs) = total bs + total cs := by
  simp [total]

theorem total_cons (b : Block) (bs : List Block) : total (b :: bs) = b.sz + total bs := by
  simp [total]

theorem total_nil : total [] = 0 := rfl

theorem total_pieces {r : Nat} {b : Block} (le : r ≤ b.sz) : total (pieces r b) = b.sz := by
  by_cases split : r < b.sz
  · rw [pieces, if_pos split, total_cons, total_cons, total_nil]
    simp only [Block.rest]
    omega
  · rw [pieces, if_neg split, total_cons, total_nil]
    simp only
    omega

/-- Handing out the front of `b` keeps all memory, unless there is a rest and no
block to link it to. -/
theorem split_perm {r : Nat} {b : Block} {rest : List Block} (kept : rest ≠ [] ∨ ¬ r < b.sz) :
    (⟨b.addr, r⟩ :: splitRest r b rest : List Block).Perm (pieces r b ++ rest) := by
  by_cases split : r < b.sz
  · have nonempty := kept.resolve_right (fun h => h split)
    rw [splitRest, if_pos split, pieces, if_pos split]
    exact (putBack_perm _ nonempty).cons _
  · rw [splitRest, if_neg split, pieces, if_neg split]
    exact List.Perm.refl _

theorem split_subperm (r : Nat) (b : Block) (rest : List Block) :
    (⟨b.addr, r⟩ :: splitRest r b rest : List Block).Subperm (pieces r b ++ rest) := by
  by_cases kept : rest ≠ [] ∨ ¬ r < b.sz
  · exact (split_perm kept).subperm
  · obtain ⟨empty, split⟩ := not_or.mp kept
    rw [not_not] at empty split
    subst empty
    rw [splitRest, if_pos split, pieces, if_pos split]
    exact (List.sublist_append_left [_] [_]).subperm

theorem putBack_subperm (n : Block) (L : List Block) : (putBack n L).Subperm (n :: L) := by
  cases L with
  | nil => exact List.nil_subperm
  | cons b rest => exact (putBack_perm n (by simp)).subperm

theorem split_total {r : Nat} {b : Block} (rest : List Block) (le : r ≤ b.sz) :
    total (⟨b.addr, r⟩ :: splitRest r b rest) ≤ b.sz + total rest ∧
      (total (⟨b.addr, r⟩ :: splitRest r b rest) = b.sz + total rest ↔
        (rest ≠ [] ∨ ¬ r < b.sz)) := by
  by_cases kept : rest ≠ [] ∨ ¬ r < b.sz
  · have same : total (⟨b.addr, r⟩ :: splitRest r b rest) = b.sz + total rest := by
      rw [total_perm (split_perm kept), total_append, total_pieces le]
    exact ⟨Nat.le_of_eq same, iff_of_true same kept⟩
  · obtain ⟨empty, split⟩ := not_or.mp kept
    rw [not_not] at empty split
    subst empty
    have lost : total (⟨b.addr, r⟩ :: splitRest r b []) = r := by
      rw [splitRest, if_pos split, putBack, total_cons, total_nil, Nat.add_zero]
    rw [lost, total_nil]
    exact ⟨by omega, iff_of_false (by omega) kept⟩

theorem putBack_total {n : Block} (L : List Block) (nonempty : 0 < n.sz) :
    total (putBack n L) ≤ n.sz + total L ∧
      (total (putBack n L) = n.sz + total L ↔ L ≠ []) := by
  cases L with
  | nil =>
      rw [putBack, total_nil]
      exact ⟨by omega, iff_of_false (by omega) (by simp)⟩
  | cons b rest =>
      have same := total_perm (putBack_perm n (L := b :: rest) (by simp))
      rw [total_cons n] at same
      exact ⟨Nat.le_of_eq same, iff_of_true same (by simp)⟩

end Trunix
