import Trunix.Kernel.Contained

/-!
# Regions that fill a block

Which pages of a block a list of regions leads to.  The copies that `sys_fork` makes lie
one behind the other, and so do the regions of a program whose segments start on a page
and leave no gap between them.
-/

set_option autoImplicit false

namespace Trunix

open Trunix.Lib

structure Fills (a sz : Nat) (regions : List VmRegion) : Prop where
  inside : ∀ m ∈ regions, m.bytes ⊆ Set.Ico a (a + sz)
  cover : ∀ x, x % 0x1000 = 0 → a ≤ x → x < a + sz →
    ∃ m ∈ regions, m.pa ≤ v2p x ∧ v2p x + 0x1000 ≤ m.pa + m.len

theorem Fills.nil (a : Nat) : Fills a 0 [] :=
  ⟨fun _ mem => absurd mem List.not_mem_nil, fun x _ lo hi => absurd hi (by omega)⟩

theorem Fills.append {a n n' : Nat} {L L' : List VmRegion} (h : Fills a n L) (h' : Fills (a + n) n' L') :
    Fills a (n + n') (L ++ L') := by
  refine ⟨fun m mem x inRegion => ?_, fun x aligned lo hi => ?_⟩
  · simp only [Set.mem_Ico]
    rcases List.mem_append.mp mem with first | second
    · have := h.inside m first inRegion
      simp only [Set.mem_Ico] at this
      omega
    · have := h'.inside m second inRegion
      simp only [Set.mem_Ico] at this
      omega
  · by_cases early : x < a + n
    · obtain ⟨m, mem, found⟩ := h.cover x aligned lo early
      exact ⟨m, List.mem_append_left _ mem, found⟩
    · obtain ⟨m, mem, found⟩ := h'.cover x aligned (by omega) (by omega)
      exact ⟨m, List.mem_append_right _ mem, found⟩

theorem Fills.of_mem {a n : Nat} {L L' : List VmRegion} (h : Fills a n L) (same : ∀ m, m ∈ L' ↔ m ∈ L) :
    Fills a n L' := by
  refine ⟨fun m mem => h.inside m ((same m).mp mem), fun x aligned lo hi => ?_⟩
  obtain ⟨m, mem, found⟩ := h.cover x aligned lo hi
  exact ⟨m, (same m).mpr mem, found⟩

theorem Fills.single {a len : Nat} (va : Nat) (high : 0x80000000 ≤ a) (aligned : a % 0x1000 = 0)
    (whole : len % 0x1000 = 0) (bound : a + len ≤ 0x100000000) : Fills a len [⟨va, v2p (u32 a), len⟩] := by
  refine ⟨fun m mem x inRegion => ?_, fun x alignedX lo hi => ⟨_, List.mem_singleton_self _, ?_⟩⟩
  · rw [List.mem_singleton.mp mem] at inRegion
    obtain ⟨j, lt, low, rfl⟩ := inRegion
    simp only at lt low ⊢
    have place : pgRounddown (v2p (u32 a)) = a - 0x80000000 := by
      rw [u32_of_lt (by omega), v2p_eq, pgRounddown_of_aligned (by omega)]
      omega
    rw [place] at low ⊢
    have inWord : u32 (a - 0x80000000 + j) = a - 0x80000000 + j := u32_of_lt (by omega)
    rw [inWord] at low ⊢
    rw [p2v_of_lt low, Set.mem_Ico]
    omega
  · simp only
    rw [u32_of_lt (by omega), v2p_eq, v2p_eq]
    omega

/-! ## The copies of a fork -/

theorem copies_fills : ∀ (old : List VmRegion) (a : Nat), (∀ m ∈ old, m.Light) → 0x80000000 ≤ a →
    a % 0x1000 = 0 → a + span old ≤ 0x100000000 → Fills a (span old) (copies old (u32 a)) := by
  intro old
  induction old with
  | nil => intro a _ _ _ _; exact .nil a
  | cons m rest ih =>
      intro a lights high aligned bound
      have light := lights m List.mem_cons_self
      have whole := light.whole
      have spanEq : span (m :: rest) = m.len + span rest := by
        simp only [span, List.map_cons, List.sum_cons, light.rounded]
      rw [spanEq] at bound ⊢
      have later := ih (a + m.len) (fun other mem => lights other (List.mem_cons_of_mem _ mem)) (by omega)
        (by omega) (by omega)
      have next : u32 (u32 a + pgRoundup m.len) = u32 (a + m.len) := by rw [u32_add, light.rounded]
      rw [copies, next]
      exact (Fills.single m.va high aligned whole (by omega)).append later

/-! ## The regions of a program -/

/-- The segments fill the block up to the stack: every segment takes as many pages as its
size needs, and there is no page between two of them. -/
def Gapless (segs : List Proghdr) : Prop :=
  imageSize (lowest segs 0xFFFFFFFF) (highest segs 0) = strides segs + 0x1000

instance (segs : List Proghdr) : Decidable (Gapless segs) := Nat.decEq _ _

theorem len_of_strides {segs : List Proghdr} (ok : SegsOk segs)
    (full : (segs.map Proghdr.len).sum ≤ strides segs) : ∀ ph ∈ segs, ph.len = pgRoundup ph.memsz := by
  induction segs with
  | nil => intro ph mem; exact absurd mem List.not_mem_nil
  | cons first rest ih =>
      intro ph mem
      have spans := ok.spans (List.mem_cons_self : first ∈ first :: rest)
      have restLe := strides_le ok.tail
      have sum : strides (first :: rest) = pgRoundup first.memsz + strides rest := rfl
      rw [List.map_cons, List.sum_cons, sum] at full
      rcases List.mem_cons.mp mem with rfl | inRest
      · omega
      · exact ih ok.tail (by omega) ph inRest

theorem layout_fills : ∀ (segs : List Proghdr) (a : Nat),
    (∀ ph ∈ segs, ph.len = pgRoundup ph.memsz) → 0x80000000 ≤ a → a % 0x1000 = 0 →
    a + strides segs ≤ 0x100000000 → Fills a (strides segs) (layout segs (u32 a)) := by
  intro segs
  induction segs with
  | nil => intro a _ _ _ _; exact .nil a
  | cons ph rest ih =>
      intro a exact' high aligned bound
      have sum : strides (ph :: rest) = pgRoundup ph.memsz + strides rest := rfl
      have whole := pgRoundup_mod ph.memsz
      rw [sum] at bound ⊢
      have later := ih (a + pgRoundup ph.memsz)
        (fun other mem => exact' other (List.mem_cons_of_mem _ mem)) (by omega) (by omega) (by omega)
      have region : segmentRegion ph (u32 a) = ⟨ph.va, v2p (u32 a), pgRoundup ph.memsz⟩ := by
        rw [← exact' ph List.mem_cons_self]
        rfl
      rw [layout, u32_add, region]
      exact (Fills.single ph.va high aligned whole (by omega)).append later

theorem Gapless.fills {segs : List Proghdr} {blk : Nat} (h : Gapless segs) (ok : SegsOk segs)
    (high : 0x80000000 ≤ blk) (aligned : blk % 0x1000 = 0)
    (bound : blk + strides segs + 0x1000 ≤ 0x100000000) :
    Fills blk (strides segs + 0x1000)
      (⟨0x7FFFF000, v2p (blk + strides segs), 0x1000⟩ :: (layout segs blk).reverse) := by
  obtain ⟨room, _, _⟩ := imageSize_room ok
  rw [h] at room
  have exact' := len_of_strides ok (by omega)
  have whole := strides_aligned segs
  have program := layout_fills segs blk exact' high aligned (by omega)
  have page : 0x1000 % 0x1000 = 0 := by decide
  have stack := Fills.single 0x7FFFF000 (show 0x80000000 ≤ blk + strides segs by omega) (by omega) page
    bound
  rw [u32_of_lt (by omega)] at program stack
  refine (program.append stack).of_mem fun m => ?_
  rw [List.mem_cons, List.mem_append, List.mem_reverse, List.mem_singleton, or_comm]

end Trunix
