import Trunix.Mem.Free

/-!
# Runs of `kmalloc` and `kfree`

The heap of `kernel/mem.c` under allocations, releases and writes of the owners.  A
release that would go wrong does not return, so the free list stays coalesced in every
state that is reached; what the theorems say is which releases return.
-/

set_option autoImplicit false

namespace Trunix

open Trunix.Lib

inductive HeapEvent where
  | kmalloc (sz : Nat)
  | kfree (a : Nat)
  | write (addr : Nat) (byte : UInt8)

def HeapArena.event (heap : Nat) (s : HeapArena) : HeapEvent → Except KfreeStop HeapArena
  | .kmalloc sz => do
      let (p, m) ← (Trunix.kmalloc heap s.mem sz).mapError .halt
      if p = 0 then return { s with mem := m }
      else return ⟨m, ⟨p - 2, kmallocSize sz⟩ :: s.live⟩
  | .kfree a => do
      let m ← Trunix.kfree heap s.mem a
      return ⟨m, s.live.filter fun b => b.addr + 2 ≠ a⟩
  | .write addr byte => .ok { s with mem := fun x => if x = addr then byte else s.mem x }

/-- Requests that are not rounded to nothing, releases of allocated blocks, and writes to the
bytes behind a header. -/
def HeapArena.Admits (s : HeapArena) : HeapEvent → Prop
  | .kmalloc sz => kmallocSize sz ≠ 0
  | .kfree a => ∃ b ∈ s.live, a = b.addr + 2
  | .write addr _ => ∃ b ∈ s.live, b.addr + 2 ≤ addr ∧ addr < b.addr + b.sz

/-! ## Requests of any size -/

theorem kmallocSize_mod (sz : Nat) : kmallocSize sz % 8 = 0 := by
  simp only [kmallocSize, roundup]
  by_cases whole : u32 (sz + 2) % 8 = 0
  · rw [if_pos whole]
    exact whole
  · rw [if_neg whole]
    simp only [u32]
    omega

theorem kmallocSize_payload {sz : Nat} (nonzero : kmallocSize sz ≠ 0)
    (small : kmallocSize sz < 0x1000) :
    kmallocSize sz - 2 ≤ 4086 ∧ kmallocSize (kmallocSize sz - 2) = kmallocSize sz := by
  have whole := kmallocSize_mod sz
  have payload : kmallocSize sz - 2 + 2 = kmallocSize sz := by omega
  refine ⟨by omega, ?_⟩
  rw [kmallocSize, payload, u32_of_lt (by omega), roundup_of_dvd whole]

theorem kmalloc_congr {heap sz sz' : Nat} (m : Mem) (same : kmallocSize sz' = kmallocSize sz) :
    kmalloc heap m sz' = kmalloc heap m sz := by
  simp only [kmalloc, same]

theorem kmalloc_large {heap sz : Nat} (m : Mem) (large : ¬ kmallocSize sz < 0x1000) :
    kmalloc heap m sz = .error .assertion := by
  simp only [kmalloc, if_pos large]

section Steps

variable {heap base : Nat} {s : HeapArena} {F : List Block} {b : Block}

theorem HeapArena.kmalloc_gapped {sz : Nat} (place : HeapPlace heap base)
    (sound : s.Sound heap base F) (gapped : Gapped F) (nonzero : kmallocSize sz ≠ 0)
    (small : kmallocSize sz < 0x1000) :
    (takeFit (kmallocSize sz) F = none ∧ Trunix.kmalloc heap s.mem sz = .ok (0, s.mem)) ∨
      ∃ c pre post m', F = pre ++ c :: post ∧ takeFit (kmallocSize sz) F = some (c, pre ++ post) ∧
        kmallocSize sz ≤ c.sz ∧ Trunix.kmalloc heap s.mem sz = .ok (c.addr + 2, m') ∧
        HeapArena.Sound heap base ⟨m', ⟨c.addr, kmallocSize sz⟩ :: s.live⟩
          (pre ++ (cutRest (kmallocSize sz) c ++ post)) ∧
        Gapped (pre ++ (cutRest (kmallocSize sz) c ++ post)) := by
  obtain ⟨payload, same⟩ := kmallocSize_payload nonzero small
  have call := @kmalloc_congr heap _ _ s.mem same
  cases taken : takeFit (kmallocSize sz) F with
  | none =>
      left
      rw [← call]
      exact ⟨rfl, kmalloc_none sound.list payload (by rw [same, taken])⟩
  | some found =>
      right
      obtain ⟨c, rest⟩ := found
      obtain ⟨pre, post, rfl, rfl, fit, first⟩ := takeFit_split taken
      rw [← same] at fit first
      obtain ⟨m', done, sound'⟩ := HeapArena.kmalloc_taken place sound payload fit first
      rw [same] at fit sound'
      rw [call] at done
      exact ⟨c, pre, post, m', rfl, rfl, fit, done, sound', cutRest_gapped _ gapped⟩

theorem HeapArena.Sound.allocated (place : HeapPlace heap base) (sound : s.Sound heap base F)
    (mem : b ∈ s.live) : Allocated heap s.mem F b := by
  have grained := sound.tidy.grained b (List.mem_append_right F mem)
  have inside := sound.tidy.inside_one (List.mem_append_right F mem)
  have whole := Nat.mod_eq_zero_of_dvd grained.whole
  have nonempty := grained.nonempty
  have headApart := place.headApart
  refine ⟨grained.nonnull, sound.headers b mem, by omega, whole, grained.bound, fun c memC => ?_,
    by omega⟩
  exact ((List.pairwise_append.mp sound.tidy.apart).2.2 c memC b mem).symm

theorem HeapArena.Sound.release (sound : s.Sound heap base F) (mem : b ∈ s.live) :
    s.live.Perm (b :: s.live.filter fun c => c.addr + 2 ≠ b.addr + 2) := by
  have apart : s.live.Pairwise Block.Apart := (List.pairwise_append.mp sound.tidy.apart).2.1
  have nonempty : ∀ c ∈ s.live, 0 < c.sz := fun c memC =>
    (sound.tidy.grained c (List.mem_append_right F memC)).nonempty
  have nodup : s.live.Nodup := by
    apply apart.imp_of_mem
    intro c d memC _ apartCD same
    subst same
    have := nonempty c memC
    simp only [Block.Apart] at apartCD
    omega
  have erased : (s.live.filter fun c => c.addr + 2 ≠ b.addr + 2) = s.live.erase b := by
    rw [nodup.erase_eq_filter]
    apply List.filter_congr
    intro c memC
    by_cases same : c = b
    · simp [same]
    · have apartCB := apart.forall memC mem same
      have nonemptyB := nonempty b mem
      have nonemptyC := nonempty c memC
      have differ : c.addr ≠ b.addr := by
        simp only [Block.Apart] at apartCB
        omega
      simp [same, differ]
  rw [erased]
  exact List.perm_cons_erase mem

theorem HeapArena.Sound.given_back {m' : Mem} (place : HeapPlace heap base)
    (sound : s.Sound heap base F) (gapped : Gapped F) (mem : b ∈ s.live)
    (chained : Chained m' heap (giveBack b F)) (frame : Frame s.mem m' (kfreeBytes heap F b)) :
    HeapArena.Sound heap base ⟨m', s.live.filter fun c => c.addr + 2 ≠ b.addr + 2⟩ (giveBack b F) ∧
      Gapped (giveBack b F) := by
  have given := sound.allocated place mem
  obtain ⟨list', gapped'⟩ := given.giveBack_list sound.list gapped chained
  have perm := sound.release mem
  generalize (s.live.filter fun c => c.addr + 2 ≠ b.addr + 2) = rest at perm ⊢
  have all : (F ++ s.live).Perm (b :: (F ++ rest)) :=
    (perm.append_left F).trans List.perm_middle
  have tidy' := sound.tidy.perm all
  have apartRest := List.pairwise_cons.mp tidy'.apart
  refine ⟨⟨list', tidy'.giveBack, ?_, fun c memC => ?_⟩, gapped'⟩
  · calc total (giveBack b F ++ rest)
        = b.sz + total (F ++ rest) := by rw [total_append, total_giveBack, total_append, Nat.add_assoc]
      _ = total (F ++ s.live) := by rw [total_perm all, total_cons]
      _ = 0x10000 := sound.full
  · -- the headers of the other blocks are neither on the list nor in `b`
    have memLive : c ∈ s.live := perm.mem_iff.mpr (List.mem_cons_of_mem b memC)
    have allocated := sound.allocated place memLive
    have roomC := allocated.room
    have roomB := given.room
    have headC := allocated.headApart
    have apartBC := apartRest.1 c (List.mem_append_right F memC)
    rw [← sound.headers c memLive]
    apply frame.loadLE_eq
    intro x lo hi inside
    rcases inside with (⟨lo', hi'⟩ | ⟨d, memD, lo', hi'⟩) | ⟨lo', hi'⟩
    · omega
    · have apartCD := allocated.apart d memD
      have sizesD := sound.list.sizes d memD
      simp only [Block.Apart] at apartCD
      omega
    · simp only [Block.Apart] at apartBC
      omega

end Steps

section Runs

variable {heap base : Nat} {m : Mem} {s : HeapArena}

/-- In every state that is reached the heap is sound and coalesced. -/
theorem HeapArena.run_gapped (place : HeapPlace heap base)
    (run : Runs (HeapArena.event heap) HeapArena.Admits (HeapArena.start heap m base) s) :
    ∃ F, s.Sound heap base F ∧ Gapped F := by
  apply run.invariant _ ⟨_, start_sound m place, List.pairwise_singleton _ _⟩
  intro t e t' sound admits done
  obtain ⟨F, sound, gapped⟩ := sound
  cases e with
  | write addr byte =>
      cases done
      exact ⟨F, write_step place sound admits, gapped⟩
  | kmalloc sz =>
      by_cases small : kmallocSize sz < 0x1000
      · rcases kmalloc_gapped place sound gapped admits small with
          ⟨_, none⟩ | ⟨c, pre, post, m', _, _, _, some, sound', gapped'⟩
        · simp only [HeapArena.event, none, Except.mapError, ok_bind] at done
          cases done
          exact ⟨F, sound, gapped⟩
        · have nonnull : c.addr + 2 ≠ 0 := by omega
          simp only [HeapArena.event, some, Except.mapError, ok_bind, if_neg nonnull,
            Nat.add_sub_cancel] at done
          cases done
          exact ⟨_, sound', gapped'⟩
      · simp only [HeapArena.event, kmalloc_large t.mem small, Except.mapError, error_bind] at done
        cases done
  | kfree a =>
      obtain ⟨b, mem, rfl⟩ := admits
      rcases kfree_cases (sound.allocated place mem) sound.list gapped with
        ⟨_, m', freed, chained, frame⟩ | ⟨_, e, stops⟩
      · simp only [HeapArena.event, freed, ok_bind] at done
        cases done
        exact ⟨_, sound.given_back place gapped mem chained frame⟩
      · simp only [HeapArena.event, stops, error_bind] at done
        cases done

def AtEdge (F : List Block) (b : Block) : Prop :=
  F = [] ∨ (∀ c ∈ F, b.addr < c.addr) ∨ ∀ c ∈ F, c.addr < b.addr

theorem freesCleanly_edge_iff {F : List Block} {b : Block} (given : Allocated heap m F b)
    (edge : AtEdge F b) :
    FreesCleanly F b ↔ F ≠ [] ∧ ∀ c ∈ F, b.addr + b.sz < c.addr := by
  have room := given.room
  constructor
  · intro clean
    obtain ⟨c, memC, above⟩ := clean.1
    refine ⟨List.ne_nil_of_mem memC, fun d memD => ?_⟩
    rcases edge with empty | front | behind
    · rw [empty] at memC
      simp at memC
    · have aboveD := front d memD
      have apart := given.apart d memD
      have gap : b.addr + b.sz ≠ d.addr := by
        rcases clean.2 with ⟨e, memE, below⟩ | gaps
        · exact absurd (front e memE) (Nat.lt_asymm below)
        · exact gaps d memD
      simp only [Block.Apart] at apart
      omega
    · exact absurd (behind c memC) (Nat.lt_asymm above)
  · rintro ⟨nonempty, before⟩
    obtain ⟨c, memC⟩ := List.exists_mem_of_ne_nil F nonempty
    have := before c memC
    exact ⟨⟨c, memC, by omega⟩, Or.inr fun d memD => Nat.ne_of_lt (before d memD)⟩

/-- `kfree(kmalloc(sz))` leads back to the same free list. -/
def Restores (heap : Nat) (m : Mem) (F : List Block) (sz : Nat) : Prop :=
  ∃ p m₁ m₂, kmalloc heap m sz = .ok (p, m₁) ∧ p ≠ 0 ∧ kfree heap m₁ p = .ok m₂ ∧
    HeapListAt heap m₂ F

/-- The front of `c` can be given back when `c` was not cut off in front of the list, nor
taken whole from its end. -/
theorem freesCleanly_cut_iff {n : Nat} {c : Block} {pre post : List Block} (pos : 0 < n)
    (le : n ≤ c.sz) (gapped : Gapped (pre ++ c :: post)) :
    FreesCleanly (pre ++ (cutRest n c ++ post)) ⟨c.addr, n⟩ ↔
      (n < c.sz → ∃ d ∈ pre ++ c :: post, d.addr < c.addr) ∧
        (n = c.sz → ∃ d ∈ pre ++ c :: post, c.addr < d.addr) := by
  obtain ⟨_, restGapped, across⟩ := List.pairwise_append.mp gapped
  have abovePost : ∀ d ∈ post, c.addr + c.sz < d.addr := (List.pairwise_cons.mp restGapped).1
  have belowPre : ∀ d ∈ pre, d.addr < c.addr := by
    intro d inPre
    have order := across d inPre c (by simp)
    simp only [Block.Before] at order
    omega
  -- only blocks of `pre` lie below `c`, only blocks of `post` above it
  have lower : (∃ d ∈ pre ++ c :: post, d.addr < c.addr) ↔ pre ≠ [] := by
    constructor
    · rintro ⟨d, mem, below⟩ none
      rw [none, List.nil_append] at mem
      rcases List.mem_cons.mp mem with rfl | inPost
      · omega
      · have := abovePost d inPost
        omega
    · intro nonempty
      obtain ⟨d, inPre⟩ := List.exists_mem_of_ne_nil pre nonempty
      exact ⟨d, by simp [inPre], belowPre d inPre⟩
  have upper : (∃ d ∈ pre ++ c :: post, c.addr < d.addr) ↔ post ≠ [] := by
    constructor
    · rintro ⟨d, mem, above⟩ none
      rw [none] at mem
      rcases List.mem_append.mp mem with inPre | isC
      · have := belowPre d inPre
        omega
      · rw [List.mem_singleton.mp isC] at above
        omega
    · intro nonempty
      obtain ⟨d, inPost⟩ := List.exists_mem_of_ne_nil post nonempty
      have := abovePost d inPost
      exact ⟨d, by simp [inPost], by omega⟩
  rw [lower, upper]
  by_cases split : n < c.sz
  · have notAll : n ≠ c.sz := Nat.ne_of_lt split
    have touch : c.addr + n = (c.rest n).addr := rfl
    rw [cutRest, if_pos split]
    constructor
    · intro clean
      refine ⟨fun _ none => ?_, fun all => absurd all notAll⟩
      rw [none] at clean
      rcases clean.2 with ⟨d, mem, below⟩ | gaps
      · rcases List.mem_cons.mp mem with rfl | inPost
        · simp only [Block.rest] at below
          omega
        · have := abovePost d inPost
          simp only at below
          omega
      · exact gaps (c.rest n) (by simp) touch
    · rintro ⟨lower, _⟩
      obtain ⟨d, inPre⟩ := List.exists_mem_of_ne_nil pre (lower split)
      refine ⟨⟨c.rest n, by simp, ?_⟩, Or.inl ⟨d, by simp [inPre], belowPre d inPre⟩⟩
      simp only [Block.rest]
      omega
  · have all : n = c.sz := by omega
    rw [cutRest, if_neg split, List.nil_append]
    constructor
    · intro clean
      refine ⟨fun cut => absurd cut split, fun _ none => ?_⟩
      obtain ⟨d, mem, above⟩ := clean.1
      rw [none, List.append_nil] at mem
      have := belowPre d mem
      simp only at above
      omega
    · rintro ⟨_, upper⟩
      obtain ⟨d, inPost⟩ := List.exists_mem_of_ne_nil post (upper all)
      have order := abovePost d inPost
      refine ⟨⟨d, by simp [inPost], by simp only; omega⟩, Or.inr fun e mem => ?_⟩
      rcases List.mem_append.mp mem with inPre | inPost
      · have := belowPre e inPre
        simp only
        omega
      · have := abovePost e inPost
        simp only
        omega

/-- In every state that is reached, a block at the edge of the free list is given back as it
should exactly when it lies in front of the first free block without touching it.  A block
that was just handed out goes back to where it was exactly when it was neither cut off the
first free block nor the whole of the last one. -/
theorem kfree_edge_iff (place : HeapPlace heap base)
    (run : Runs (HeapArena.event heap) HeapArena.Admits (HeapArena.start heap m base) s) :
    ∃ F, HeapListAt heap s.mem F ∧ Gapped F ∧
      (∀ b ∈ s.live, AtEdge F b →
        (FreesWell heap s.mem F b ↔ F ≠ [] ∧ ∀ c ∈ F, b.addr + b.sz < c.addr)) ∧
      ∀ sz c rest, kmallocSize sz ≠ 0 → kmallocSize sz < 0x1000 →
        takeFit (kmallocSize sz) F = some (c, rest) →
        (Restores heap s.mem F sz ↔
          (kmallocSize sz < c.sz → ∃ d ∈ F, d.addr < c.addr) ∧
            (kmallocSize sz = c.sz → ∃ d ∈ F, c.addr < d.addr)) := by
  obtain ⟨F, sound, gapped⟩ := HeapArena.run_gapped place run
  refine ⟨F, sound.list, gapped, fun b mem edge => ?_, fun sz c rest nonzero small taken => ?_⟩
  · have given := sound.allocated place mem
    rw [freesWell_iff given sound.list gapped, freesCleanly_edge_iff given edge]
  · rcases HeapArena.kmalloc_gapped place sound gapped nonzero small with
      ⟨none, _⟩ | ⟨c', pre, post, m₁, rfl, taken', fit, done, sound', gapped'⟩
    · rw [taken] at none
      cases none
    · rw [taken] at taken'
      cases taken'
      have pos : 0 < kmallocSize sz := Nat.pos_of_ne_zero nonzero
      rw [← freesCleanly_cut_iff pos fit gapped]
      have given := sound'.allocated place List.mem_cons_self
      rcases kfree_cases given sound'.list gapped' with
        ⟨clean, m₂, freed, chained, _⟩ | ⟨unclean, e, stops⟩
      · have list' := (given.giveBack_list sound'.list gapped' chained).1
        rw [giveBack_cutRest pos fit gapped] at list'
        exact iff_of_true ⟨c.addr + 2, m₁, m₂, done, by omega, freed, list'⟩ clean
      · refine iff_of_false (fun restores => ?_) unclean
        obtain ⟨p, m₁', m₂, done', _, freed, _⟩ := restores
        rw [done] at done'
        cases done'
        rw [stops] at freed
        cases freed

end Runs

theorem kmallocs_run (sizes : List Nat) (live free : List Block)
    (nonzero : ∀ sz ∈ sizes, kmallocSize sz ≠ 0)
    (result : ((sizes.map HeapEvent.kmalloc).foldlM (HeapArena.event 0x80480000)
      (HeapArena.start 0x80480000 (fun _ => 0) 0x80010000)).toOption.map (fun s =>
        (s.live, (freeBlocks 0x80480000 s.mem).toOption)) = some (live, some free)) :
    ∃ s, Runs (HeapArena.event 0x80480000) HeapArena.Admits
        (HeapArena.start 0x80480000 (fun _ => 0) 0x80010000) s ∧ s.live = live ∧
      ∀ F, HeapListAt 0x80480000 s.mem F → F = free := by
  cases done : (sizes.map HeapEvent.kmalloc).foldlM (HeapArena.event 0x80480000)
      (HeapArena.start 0x80480000 (fun _ => 0) 0x80010000) with
  | error e =>
      rw [done] at result
      cases result
  | ok s =>
      rw [done] at result
      obtain ⟨sameLive, sameFree⟩ := Prod.mk.inj (Option.some.inj result)
      refine ⟨s, Runs.of_foldlM (fun e mem t => ?_) done, sameLive, fun F list => ?_⟩
      · obtain ⟨sz, memSz, rfl⟩ := List.mem_map.mp mem
        exact nonzero sz memSz
      · have read : freeBlocks 0x80480000 s.mem = .ok F :=
          readList_chained F 0x80480000 walkLimit list.chained list.ordered.length_lt
        rw [read] at sameFree
        exact Option.some.inj sameFree

theorem heapPlace_example : HeapPlace 0x80480000 0x80010000 := by
  constructor <;> decide

/-- After two allocations the first one can be given back: it lies in front of the only
free block, with the second one between them. -/
theorem kfree_edge_iff_first_of_two :
    ∃ (s : HeapArena) (F : List Block), s.live = [⟨0x80010068, 56⟩, ⟨0x80010000, 104⟩] ∧
      F = [⟨0x800100A0, 0xFF60⟩] ∧ FreesWell 0x80480000 s.mem F ⟨0x80010000, 104⟩ := by
  obtain ⟨s, run, live, only⟩ := kmallocs_run [100, 50]
    [⟨0x80010068, 56⟩, ⟨0x80010000, 104⟩] [⟨0x800100A0, 0xFF60⟩] (by decide +kernel) (by decide +kernel)
  obtain ⟨F, list, _, edges, _⟩ := kfree_edge_iff heapPlace_example run
  have same := only F list
  have mem : ⟨0x80010000, 104⟩ ∈ s.live := by
    rw [live]
    decide
  have edge : AtEdge F ⟨0x80010000, 104⟩ := by
    rw [same]
    exact Or.inr (Or.inl (by decide))
  refine ⟨s, F, live, same, (edges _ mem edge).mpr ?_⟩
  rw [same]
  exact ⟨by decide, by decide⟩

/-- The first allocation of all cannot be given back: it touches the rest of the heap. -/
theorem kfree_first_unset :
    ∃ (s : HeapArena) (F : List Block), Runs (HeapArena.event 0x80480000) HeapArena.Admits
        (HeapArena.start 0x80480000 (fun _ => 0) 0x80010000) s ∧
      HeapListAt 0x80480000 s.mem F ∧ ⟨0x80010000, 104⟩ ∈ s.live ∧ AtEdge F ⟨0x80010000, 104⟩ ∧
      kfree 0x80480000 s.mem 0x80010002 = .error .unset ∧
      ¬ FreesWell 0x80480000 s.mem F ⟨0x80010000, 104⟩ := by
  obtain ⟨s, run, live, only⟩ := kmallocs_run [100] [⟨0x80010000, 104⟩] [⟨0x80010068, 0xFF98⟩]
    (by decide +kernel) (by decide +kernel)
  obtain ⟨F, sound, _⟩ := HeapArena.run_gapped heapPlace_example run
  have same := only F sound.list
  have mem : ⟨0x80010000, 104⟩ ∈ s.live := by
    rw [live]
    decide
  rw [same] at sound
  have given := sound.allocated heapPlace_example mem
  have touch : (⟨0x80010000, 104⟩ : Block).addr + (⟨0x80010000, 104⟩ : Block).sz =
      (⟨0x80010068, 0xFF98⟩ : Block).addr := by
    decide
  have stops := kfree_front_touching given sound.list touch
  simp only [Nat.reduceAdd] at stops
  refine ⟨s, _, run, sound.list, mem, Or.inr (Or.inl (by decide)), stops, fun well => ?_⟩
  obtain ⟨m', _, done, _⟩ := well
  have done' : kfree 0x80480000 s.mem 0x80010002 = .ok m' := done
  rw [stops] at done'
  cases done'

end Trunix
