import Trunix.Mem.Pages

/-!
# First fit on a sorted list

While the free list of `kernel/mem.c` is sorted by ascending block size, the first block
that `alloc_pages` finds is a smallest one that is large enough.  Both `alloc_pages` and
`free_pages` keep the order: `putBack` is an ordered insertion.
-/

set_option autoImplicit false

namespace Trunix

open Trunix.Lib

def Ascending (L : List Block) : Prop := L.Pairwise fun b c => b.sz ≤ c.sz

theorem putBack_ascending (n : Block) : ∀ {L : List Block}, Ascending L → Ascending (putBack n L) := by
  intro L
  induction L with
  | nil => intro sorted; exact sorted
  | cons b rest ih =>
      intro sorted
      obtain ⟨above, restSorted⟩ := List.pairwise_cons.mp sorted
      cases rest with
      | nil =>
          by_cases before : n.sz ≤ b.sz
          · simp [putBack, before, Ascending]
          · simpa [putBack, before, Ascending] using Nat.le_of_not_le before
      | cons c rest =>
          by_cases before : n.sz ≤ b.sz
          · simp only [putBack, if_pos before]
            apply List.pairwise_cons.mpr ⟨fun d mem => ?_, sorted⟩
            rcases List.mem_cons.mp mem with rfl | inRest
            · exact before
            · exact Nat.le_trans before (above d inRest)
          · simp only [putBack, if_neg before]
            apply List.pairwise_cons.mpr ⟨fun d mem => ?_, ih restSorted⟩
            rcases mem_putBack mem with rfl | inRest
            · exact Nat.le_of_not_le before
            · exact above d inRest

theorem splitRest_ascending {r : Nat} {b : Block} {rest : List Block} (sorted : Ascending rest) :
    Ascending (splitRest r b rest) := by
  by_cases split : r < b.sz
  · rw [splitRest, if_pos split]
    exact putBack_ascending _ sorted
  · rw [splitRest, if_neg split]
    exact sorted

/-- What is left of the list when `b` is taken, and why no smaller block would do. -/
theorem takeFit_ascending {sz : Nat} {L rest : List Block} {b : Block} (sorted : Ascending L)
    (taken : takeFit sz L = some (b, rest)) :
    rest = L.erase b ∧ Ascending rest ∧ ∀ c ∈ L, sz ≤ c.sz → b.sz ≤ c.sz := by
  obtain ⟨pre, post, rfl, rfl, fit, small⟩ := takeFit_split taken
  have notBefore : b ∉ pre := fun mem => Nat.not_le_of_lt (small b mem) fit
  have after := (List.pairwise_cons.mp (List.pairwise_append.mp sorted).2.1).1
  refine ⟨?_, sorted.sublist (by simp), fun c mem large => ?_⟩
  · rw [List.erase_append_right _ notBefore, List.erase_cons_head]
  · rcases List.mem_append.mp mem with inPre | inPost
    · exact absurd large (Nat.not_le_of_lt (small c inPre))
    · rcases List.mem_cons.mp inPost with rfl | inPost
      · exact Nat.le_refl _
      · exact after c inPost

/-! ## Blocks that may be linked -/

section PageBlocks

variable {freelist : Nat} {L L' : List Block} {b n : Block}

theorem PageBlocks.subperm (h : PageBlocks freelist L) (sub : L'.Subperm L) :
    PageBlocks freelist L' := by
  have mem : ∀ b ∈ L', b ∈ L := fun b inside => sub.subset inside
  have apart : L.Pairwise fun b c => b.footprint.Apart c.footprint :=
    List.pairwise_map.mp h.spaced.apart
  obtain ⟨M, perm, sublist⟩ := sub
  refine ⟨fun b inside => h.aligned b (mem b inside), fun b inside => h.whole b (mem b inside),
    h.spaced.cellBound, fun b inside => ?_, fun b inside => ?_, List.pairwise_map.mpr ?_,
    fun b inside => ?_⟩
  · obtain ⟨c, _, rfl⟩ := List.mem_map.mp inside
    exact Nat.le_max_left 12 c.sz
  · obtain ⟨c, memC, rfl⟩ := List.mem_map.mp inside
    exact h.bound (mem c memC)
  · exact (perm.pairwise_iff Block.Apart.symm).mp (apart.sublist sublist)
  · obtain ⟨c, memC, rfl⟩ := List.mem_map.mp inside
    exact h.headApart (mem c memC)

theorem PageBlocks.rest (h : PageBlocks freelist (b :: L)) {r : Nat} (whole : r % 0x1000 = 0)
    (split : r < b.sz) : PageBlocks freelist (b.rest r :: L) := by
  have restL : PageBlocks freelist L := h.subperm (List.sublist_cons_self b L).subperm
  have wholeB := h.whole b (by simp)
  have alignedB := h.aligned b (by simp)
  have boundB := h.bound (b := b) (by simp)
  have headB := h.headApart (b := b) (by simp)
  have apartB := (List.pairwise_cons.mp h.spaced.apart).1
  refine ⟨fun c mem => ?_, fun c mem => ?_, h.spaced.cellBound, fun c mem => ?_, fun c mem => ?_,
    List.pairwise_cons.mpr ⟨fun c mem => ?_, restL.spaced.apart⟩, fun c mem => ?_⟩
  · rcases List.mem_cons.mp mem with rfl | mem
    · simp only [Block.rest]
      omega
    · exact restL.aligned c mem
  · rcases List.mem_cons.mp mem with rfl | mem
    · simp only [Block.rest]
      omega
    · exact restL.whole c mem
  · rcases List.mem_cons.mp mem with rfl | mem
    · exact Nat.le_max_left 12 _
    · exact restL.spaced.size c mem
  · rcases List.mem_cons.mp mem with rfl | mem
    · simp only [Block.footprint, Block.rest]
      omega
    · exact restL.spaced.bound c mem
  · have apart := apartB c mem
    simp only [Block.Apart, Block.footprint, Block.rest] at apart ⊢
    omega
  · rcases List.mem_cons.mp mem with rfl | mem
    · simp only [Block.footprint, Block.rest]
      omega
    · exact restL.spaced.cellApart c mem

theorem PageBlocks.splitRest (h : PageBlocks freelist (b :: L)) {r : Nat} (whole : r % 0x1000 = 0) :
    PageBlocks freelist (splitRest r b L) := by
  by_cases split : r < b.sz
  · rw [Trunix.splitRest, if_pos split]
    exact (h.rest whole split).subperm (putBack_subperm _ L)
  · rw [Trunix.splitRest, if_neg split]
    exact h.subperm (List.sublist_cons_self b L).subperm

/-- A block that may stand on the list next to the others may be given back. -/
theorem PageBlocks.fits (h : PageBlocks freelist (n :: L)) (nonnull : n.addr ≠ 0) :
    HeadFits n freelist L := by
  have headed := h.headed
  exact ⟨nonnull, headed.bound n (by simp), (List.pairwise_cons.mp headed.apart).1,
    headed.cellApart n (by simp)⟩

theorem PageBlocks.outside (h : PageBlocks freelist (n :: L)) :
    ∀ x ∈ linkBytes freelist L, x < n.addr ∨ n.addr + n.sz ≤ x := by
  have headN := h.headApart (b := n) (by simp)
  intro x mem
  rcases mem with ⟨lo, hi⟩ | ⟨c, memC, lo, hi⟩
  · omega
  · have apart := (List.pairwise_cons.mp h.spaced.apart).1 c.footprint (List.mem_map_of_mem memC)
    simp only [Block.Apart, Block.footprint] at apart
    omega

end PageBlocks

/-! ## The two calls -/

theorem freePages_rounddown (freelist : Nat) (m : Mem) {addr : Nat} (sz : Nat)
    (nonnull : pgRounddown addr ≠ 0) :
    freePages freelist m addr sz = freePages freelist m (pgRounddown addr) sz := by
  have given : addr ≠ 0 := by
    intro null
    rw [null] at nonnull
    exact nonnull rfl
  simp only [freePages, if_neg given, if_neg nonnull,
    pgRounddown_of_aligned (pgRounddown_mod addr)]

/-- On a sorted free list `alloc_pages` fails exactly when no block is as large as the
request, and otherwise takes a smallest block that holds the rounded request and puts
back the rest of it, if there is a block left to link it to.  `free_pages` of pages that
are not on the list keeps the list sorted as well. -/
theorem pages_best_fit {freelist : Nat} {m : Mem} {L : List Block} (list : MemListAt freelist m L)
    (sorted : Ascending L) :
    (∀ sz, ∃ p m', allocPages freelist m sz = .ok (p, m') ∧ (p = 0 ↔ ∀ b ∈ L, b.sz < sz) ∧
      (p = 0 → m' = m) ∧
      (p ≠ 0 → ∃ b ∈ L, p = b.addr ∧ pgRoundup sz ≤ b.sz ∧
        (∀ c ∈ L, pgRoundup sz ≤ c.sz → b.sz ≤ c.sz) ∧
        ∃ L', MemListAt freelist m' L' ∧ Ascending L' ∧
          (L.erase b ≠ [] → L'.Perm ((if pgRoundup sz < b.sz then [b.rest (pgRoundup sz)] else []) ++
            L.erase b)))) ∧
    ∀ addr sz, pgRounddown addr ≠ 0 →
      PageBlocks freelist (⟨pgRounddown addr, pgRoundup sz⟩ :: L) →
      ∃ m' L', freePages freelist m addr sz = .ok m' ∧ MemListAt freelist m' L' ∧ Ascending L' ∧
        (L ≠ [] → L'.Perm (⟨pgRounddown addr, pgRoundup sz⟩ :: L)) := by
  constructor
  · intro sz
    cases taken : takeFit sz L with
    | none =>
        have tooSmall := takeFit_eq_none.mp taken
        exact ⟨0, m, allocPages_none list taken, iff_of_true rfl tooSmall, fun _ => rfl,
          fun nonnull => absurd rfl nonnull⟩
    | some found =>
        obtain ⟨b, rest⟩ := found
        obtain ⟨same, restSorted, smallest⟩ := takeFit_ascending sorted taken
        have perm := takeFit_perm taken
        have memB : b ∈ L := perm.mem_iff.mpr (by simp)
        have nonnull := list.linked.nonnull memB
        obtain ⟨_, _, _, _, fit, _⟩ := takeFit_split taken
        obtain ⟨m', done, linked, _⟩ := allocPages_linked list taken
        have blocks := (list.toPageBlocks.subperm perm.symm.subperm).splitRest (pgRoundup_mod sz)
        have wholeB := list.whole b memB
        have boundB := list.bound memB
        have up : sz ≤ pgRoundup sz := le_pgRoundup (by omega)
        refine ⟨b.addr, m', done, iff_of_false nonnull ?_, fun null => absurd null nonnull,
          fun _ => ⟨b, memB, rfl, list.pgRoundup_le memB fit,
            fun c memC large => smallest c memC (Nat.le_trans up large), _, ⟨blocks, linked⟩,
            splitRest_ascending restSorted, fun nonempty => ?_⟩⟩
        · intro tooSmall
          exact Nat.not_le_of_lt (tooSmall b memB) fit
        · rw [← same] at nonempty ⊢
          by_cases split : pgRoundup sz < b.sz
          · rw [splitRest, if_pos split, if_pos split]
            exact putBack_perm _ nonempty
          · rw [splitRest, if_neg split, if_neg split]
            exact List.Perm.refl rest
  · intro addr sz nonnull blocks
    have bound := blocks.bound (b := ⟨pgRounddown addr, pgRoundup sz⟩) (by simp)
    obtain ⟨m', done, linked, _⟩ := freePages_placed sz list.linked list.headed
      (blocks.fits nonnull) (by simp only at bound ⊢; omega) blocks.outside (pgRounddown_mod addr) rfl
    rw [freePages_rounddown freelist m sz nonnull]
    exact ⟨m', _, done, ⟨blocks.subperm (putBack_subperm _ L), linked⟩, putBack_ascending _ sorted,
      putBack_perm _⟩

/-- A request that only the larger block holds. -/
theorem pages_best_fit_two_blocks :
    ∃ m' L', allocPages 0x80480000 twoBlocks 0x1800 = .ok (0x80005000, m') ∧
      MemListAt 0x80480000 m' L' ∧ Ascending L' ∧
      L'.Perm [⟨0x80007000, 0x1000⟩, ⟨0x80003000, 0x1000⟩] := by
  have sorted : Ascending [⟨0x80003000, 0x1000⟩, ⟨0x80005000, 0x3000⟩] :=
    List.pairwise_pair.mpr (Nat.le_of_ble_eq_true rfl)
  obtain ⟨p, m', done, _, _, taken⟩ := (pages_best_fit twoBlocks_list.memList sorted).1 0x1800
  have start : (allocPages 0x80480000 twoBlocks 0x1800).toOption.map Prod.fst =
      some 0x80005000 := by
    decide +kernel
  rw [done] at start
  obtain rfl : p = 0x80005000 := Option.some.inj start
  obtain ⟨b, memB, atB, _, _, L', list, sorted', rest⟩ := taken (by decide)
  obtain rfl : b = ⟨0x80005000, 0x3000⟩ := by
    rcases List.mem_cons.mp memB with rfl | memB
    · exact absurd atB (by decide)
    · exact List.mem_singleton.mp memB
  exact ⟨m', L', done, list, sorted', rest (by decide)⟩

end Trunix
