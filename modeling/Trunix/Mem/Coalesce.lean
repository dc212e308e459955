import Trunix.Mem.Heap

/-!
# Giving a block back to a coalesced list

A list of blocks is `Gapped` when it is in address order and between any two of its
blocks there is a byte that belongs to neither.  `giveBack` puts a block in its place and
joins it with the blocks it touches; it is what `kfree` of `kernel/mem.c` is for.
-/

set_option autoImplicit false

namespace Trunix

def Block.Before (b c : Block) : Prop := b.addr + b.sz < c.addr

def Gapped (F : List Block) : Prop := F.Pairwise Block.Before

def Block.Has (b : Block) (x : Nat) : Prop := b.addr ≤ x ∧ x < b.addr + b.sz

def joinRight (b : Block) : List Block → List Block
  | [] => [b]
  | c :: rest =>
      if b.addr + b.sz = c.addr then ⟨b.addr, b.sz + c.sz⟩ :: rest else b :: c :: rest

def giveBack (b : Block) : List Block → List Block
  | [] => [b]
  | c :: rest =>
      if b.addr < c.addr then joinRight b (c :: rest)
      else if c.addr + c.sz = b.addr then joinRight ⟨c.addr, c.sz + b.sz⟩ rest
      else c :: giveBack b rest

theorem Gapped.ascending {F : List Block} (h : Gapped F) :
    F.Pairwise fun b c => b.addr + b.sz ≤ c.addr :=
  h.imp fun before => Nat.le_of_lt before

/-! ## The bytes are those of the list and of the block -/

theorem has_joinRight {b : Block} {x : Nat} : ∀ F : List Block,
    (∃ c ∈ joinRight b F, c.Has x) ↔ b.Has x ∨ ∃ c ∈ F, c.Has x := by
  intro F
  cases F with
  | nil => simp [joinRight]
  | cons c rest =>
      by_cases touch : b.addr + b.sz = c.addr
      · have joined : Block.Has ⟨b.addr, b.sz + c.sz⟩ x ↔ b.Has x ∨ c.Has x := by
          simp only [Block.Has]
          omega
        rw [joinRight, if_pos touch, List.exists_mem_cons_iff, joined, List.exists_mem_cons_iff,
          or_assoc]
      · rw [joinRight, if_neg touch, List.exists_mem_cons_iff]

theorem has_giveBack {b : Block} {x : Nat} : ∀ F : List Block,
    (∃ c ∈ giveBack b F, c.Has x) ↔ b.Has x ∨ ∃ c ∈ F, c.Has x := by
  intro F
  induction F with
  | nil => simp [giveBack]
  | cons c rest ih =>
      by_cases front : b.addr < c.addr
      · rw [giveBack, if_pos front]
        exact has_joinRight (c :: rest)
      · by_cases touch : c.addr + c.sz = b.addr
        · have joined : Block.Has ⟨c.addr, c.sz + b.sz⟩ x ↔ b.Has x ∨ c.Has x := by
            simp only [Block.Has]
            omega
          rw [giveBack, if_neg front, if_pos touch, has_joinRight, joined,
            List.exists_mem_cons_iff, or_assoc]
        · rw [giveBack, if_neg front, if_neg touch, List.exists_mem_cons_iff, ih,
            List.exists_mem_cons_iff, or_left_comm]

/-! ## The list stays gapped -/

theorem joinRight_gapped {b : Block} {F : List Block} (gapped : Gapped F)
    (below : ∀ c ∈ F, b.addr + b.sz ≤ c.addr) (nonempty : ∀ c ∈ F, 0 < c.sz) :
    Gapped (joinRight b F) := by
  cases F with
  | nil => exact List.pairwise_singleton _ b
  | cons c rest =>
      obtain ⟨above, restGapped⟩ := List.pairwise_cons.mp gapped
      have belowC := below c (by simp)
      have nonemptyC := nonempty c (by simp)
      by_cases touch : b.addr + b.sz = c.addr
      · rw [joinRight, if_pos touch]
        refine List.pairwise_cons.mpr ⟨fun d mem => ?_, restGapped⟩
        have := above d mem
        simp only [Block.Before] at this ⊢
        omega
      · rw [joinRight, if_neg touch]
        refine List.pairwise_cons.mpr ⟨fun d mem => ?_, gapped⟩
        simp only [Block.Before]
        rcases List.mem_cons.mp mem with rfl | mem
        · omega
        · have := above d mem
          simp only [Block.Before] at this
          omega

theorem mem_joinRight {b d : Block} {F : List Block} (mem : d ∈ joinRight b F) :
    d.addr = b.addr ∨ d ∈ F := by
  cases F with
  | nil => exact Or.inl (by rw [List.mem_singleton.mp mem])
  | cons c rest =>
      by_cases touch : b.addr + b.sz = c.addr
      · rw [joinRight, if_pos touch] at mem
        rcases List.mem_cons.mp mem with rfl | mem
        · exact Or.inl rfl
        · exact Or.inr (List.mem_cons_of_mem c mem)
      · rw [joinRight, if_neg touch] at mem
        rcases List.mem_cons.mp mem with rfl | mem
        · exact Or.inl rfl
        · exact Or.inr mem

theorem mem_giveBack {b d : Block} : ∀ {F : List Block}, d ∈ giveBack b F →
    d.addr = b.addr ∨ ∃ c ∈ F, d.addr = c.addr := by
  intro F
  induction F with
  | nil => intro mem; exact Or.inl (by rw [List.mem_singleton.mp mem])
  | cons c rest ih =>
      intro mem
      by_cases front : b.addr < c.addr
      · rw [giveBack, if_pos front] at mem
        rcases mem_joinRight mem with here | inF
        · exact Or.inl here
        · exact Or.inr ⟨d, inF, rfl⟩
      · by_cases touch : c.addr + c.sz = b.addr
        · rw [giveBack, if_neg front, if_pos touch] at mem
          rcases mem_joinRight mem with here | inRest
          · exact Or.inr ⟨c, List.mem_cons_self, here⟩
          · exact Or.inr ⟨d, List.mem_cons_of_mem c inRest, rfl⟩
        · rw [giveBack, if_neg front, if_neg touch] at mem
          rcases List.mem_cons.mp mem with rfl | inRest
          · exact Or.inr ⟨d, List.mem_cons_self, rfl⟩
          · rcases ih inRest with here | ⟨e, memE, same⟩
            · exact Or.inl here
            · exact Or.inr ⟨e, List.mem_cons_of_mem c memE, same⟩

theorem giveBack_gapped {b : Block} (nonemptyB : 0 < b.sz) : ∀ {F : List Block}, Gapped F →
    (∀ c ∈ F, 0 < c.sz) → (∀ c ∈ F, b.Apart c) → Gapped (giveBack b F) := by
  intro F
  induction F with
  | nil => intro _ _ _; exact List.pairwise_singleton _ b
  | cons c rest ih =>
      intro gapped nonempty apart
      obtain ⟨above, restGapped⟩ := List.pairwise_cons.mp gapped
      have nonemptyC := nonempty c (by simp)
      have apartC := apart c (by simp)
      simp only [Block.Apart] at apartC
      by_cases front : b.addr < c.addr
      · rw [giveBack, if_pos front]
        apply joinRight_gapped gapped ?_ nonempty
        intro d mem
        rcases List.mem_cons.mp mem with rfl | mem
        · omega
        · have := above d mem
          simp only [Block.Before] at this
          omega
      · have belowB : c.addr + c.sz ≤ b.addr := by omega
        -- the blocks behind `c` lie above it, and so above the two joined
        have aboveB : ∀ d ∈ rest, c.addr + c.sz = b.addr → b.addr + b.sz ≤ d.addr := by
          intro d mem touch
          have apartD := apart d (by simp [mem])
          have order := above d mem
          simp only [Block.Apart] at apartD
          simp only [Block.Before] at order
          omega
        by_cases touch : c.addr + c.sz = b.addr
        · rw [giveBack, if_neg front, if_pos touch]
          apply joinRight_gapped restGapped ?_ (fun d mem => nonempty d (by simp [mem]))
          intro d mem
          have := aboveB d mem touch
          simp only
          omega
        · rw [giveBack, if_neg front, if_neg touch]
          have tail := ih restGapped (fun d mem => nonempty d (by simp [mem]))
            (fun d mem => apart d (by simp [mem]))
          refine List.pairwise_cons.mpr ⟨fun d mem => ?_, tail⟩
          simp only [Block.Before]
          rcases mem_giveBack mem with here | ⟨e, memE, same⟩
          · omega
          · have := above e memE
            simp only [Block.Before] at this
            omega

/-! ## The blocks stay tidy -/

theorem Tidy.perm {g : Nat} {init bs cs : List Block} (h : Tidy g init bs) (perm : bs.Perm cs) :
    Tidy g init cs := h.subperm perm.symm.subperm

theorem Tidy.join {g base size : Nat} {b c : Block} {rest : List Block}
    (h : Tidy g [⟨base, size⟩] (b :: c :: rest)) (touch : b.addr + b.sz = c.addr) :
    Tidy g [⟨base, size⟩] (⟨b.addr, b.sz + c.sz⟩ :: rest) := by
  have grainedB := h.grained b (by simp)
  have grainedC := h.grained c (by simp)
  have insideB := h.inside_one (b := b) (by simp)
  have insideC := h.inside_one (b := c) (by simp)
  have boundC := grainedC.bound
  obtain ⟨apartB, tailApart⟩ := List.pairwise_cons.mp h.apart
  obtain ⟨apartC, restApart⟩ := List.pairwise_cons.mp tailApart
  refine ⟨fun d mem => ?_, fun d mem => ?_, List.pairwise_cons.mpr ⟨fun d mem => ?_, restApart⟩⟩
  · rcases List.mem_cons.mp mem with rfl | mem
    · exact ⟨grainedB.nonnull, grainedB.aligned, Nat.dvd_add grainedB.whole grainedC.whole,
        Nat.add_pos_left grainedB.nonempty _, by simp only; omega⟩
    · exact h.grained d (by simp [mem])
  · rcases List.mem_cons.mp mem with rfl | mem
    · exact ⟨⟨base, size⟩, List.mem_singleton_self _, by simp only; omega, by simp only; omega⟩
    · exact h.inside d (by simp [mem])
  · have fromB := apartB d (by simp [mem])
    have fromC := apartC d mem
    have nonemptyB := grainedB.nonempty
    have nonemptyC := grainedC.nonempty
    have nonemptyD := (h.grained d (by simp [mem])).nonempty
    simp only [Block.Apart] at fromB fromC ⊢
    omega

theorem Tidy.joinRight {g base size : Nat} {b : Block} {F live : List Block}
    (h : Tidy g [⟨base, size⟩] (b :: (F ++ live))) :
    Tidy g [⟨base, size⟩] (joinRight b F ++ live) := by
  cases F with
  | nil => exact h
  | cons c rest =>
      by_cases touch : b.addr + b.sz = c.addr
      · rw [Trunix.joinRight, if_pos touch]
        exact h.join touch
      · rw [Trunix.joinRight, if_neg touch]
        exact h

theorem Tidy.giveBack {g base size : Nat} {b : Block} : ∀ {F live : List Block},
    Tidy g [⟨base, size⟩] (b :: (F ++ live)) →
      Tidy g [⟨base, size⟩] (giveBack b F ++ live) := by
  intro F
  induction F with
  | nil => intro live h; exact h
  | cons c rest ih =>
      intro live h
      by_cases front : b.addr < c.addr
      · rw [Trunix.giveBack, if_pos front]
        exact h.joinRight
      · have swapped := h.perm (List.Perm.swap c b (rest ++ live))
        by_cases touch : c.addr + c.sz = b.addr
        · rw [Trunix.giveBack, if_neg front, if_pos touch]
          exact (swapped.join touch).joinRight
        · rw [Trunix.giveBack, if_neg front, if_neg touch]
          -- `c` waits among the other blocks while `b` is put into the rest
          have behind : (c :: b :: (rest ++ live)).Perm (b :: (rest ++ c :: live)) :=
            (List.Perm.swap b c _).trans (List.perm_middle.symm.cons b)
          exact (ih (swapped.perm behind)).perm List.perm_middle

theorem total_joinRight (b : Block) : ∀ F : List Block, total (joinRight b F) = b.sz + total F := by
  intro F
  cases F with
  | nil => rfl
  | cons c rest =>
      by_cases touch : b.addr + b.sz = c.addr
      · rw [joinRight, if_pos touch, total_cons, total_cons, Nat.add_assoc]
      · rw [joinRight, if_neg touch, total_cons]

theorem total_giveBack (b : Block) : ∀ F : List Block, total (giveBack b F) = b.sz + total F := by
  intro F
  induction F with
  | nil => rfl
  | cons c rest ih =>
      by_cases front : b.addr < c.addr
      · rw [giveBack, if_pos front, total_joinRight]
      · by_cases touch : c.addr + c.sz = b.addr
        · rw [giveBack, if_neg front, if_pos touch, total_joinRight, total_cons,
            Nat.add_comm c.sz, Nat.add_assoc]
        · rw [giveBack, if_neg front, if_neg touch, total_cons, ih, total_cons, Nat.add_left_comm]

/-! ## Cutting a block and giving it back -/

theorem joinRight_cutRest {n : Nat} {c : Block} {post : List Block} (pos : 0 < n) (le : n ≤ c.sz)
    (gapped : Gapped (c :: post)) :
    giveBack ⟨c.addr, n⟩ (cutRest n c ++ post) = c :: post := by
  by_cases split : n < c.sz
  · have above : c.addr < (c.rest n).addr := Nat.lt_add_of_pos_right pos
    have touch : c.addr + n = (c.rest n).addr := rfl
    have whole : n + (c.rest n).sz = c.sz := Nat.add_sub_of_le le
    rw [cutRest, if_pos split, List.cons_append, List.nil_append, giveBack, if_pos above, joinRight,
      if_pos touch, whole]
  · have all : n = c.sz := by omega
    rw [cutRest, if_neg split, List.nil_append, all]
    cases post with
    | nil => rfl
    | cons d post =>
        have before := (List.pairwise_cons.mp gapped).1 d (by simp)
        simp only [Block.Before] at before
        have above : c.addr < d.addr := by omega
        have gap : c.addr + c.sz ≠ d.addr := Nat.ne_of_lt before
        rw [giveBack, if_pos above, joinRight, if_neg gap]

/-- The front of a block of a gapped list goes back to where it was cut off. -/
theorem giveBack_cutRest {n : Nat} {c : Block} {post : List Block} (pos : 0 < n) (le : n ≤ c.sz) :
    ∀ {pre : List Block}, Gapped (pre ++ c :: post) →
      giveBack ⟨c.addr, n⟩ (pre ++ (cutRest n c ++ post)) = pre ++ c :: post := by
  intro pre
  induction pre with
  | nil => intro gapped; exact joinRight_cutRest pos le gapped
  | cons d pre ih =>
      intro gapped
      obtain ⟨above, restGapped⟩ := List.pairwise_cons.mp gapped
      have before := above c (by simp)
      simp only [Block.Before] at before
      have notFront : ¬ c.addr < d.addr := by omega
      have gap : d.addr + d.sz ≠ c.addr := Nat.ne_of_lt before
      rw [List.cons_append, giveBack, if_neg notFront, if_neg gap, ih restGapped, List.cons_append]

theorem cutRest_gapped (n : Nat) {b : Block} {pre post : List Block}
    (gapped : Gapped (pre ++ b :: post)) : Gapped (pre ++ (cutRest n b ++ post)) := by
  apply cutRest_pairwise gapped
  · intro c d inCut before
    have place := mem_cutRest inCut
    simp only [Block.Before] at before ⊢
    omega
  · intro c d inCut before
    have place := mem_cutRest inCut
    simp only [Block.Before] at before ⊢
    omega

end Trunix
