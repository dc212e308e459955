import Trunix.Mem.Init
import Trunix.Mem.BestFit

/-!
# The free list that `init_mem` builds

The loop of `init_mem` puts every block behind the first larger one, so the list is
sorted only when the entries already are.  It also takes every available entry in front
of `mmap_n`, whatever its length: a slot that `cut_memmap` emptied becomes a block of no
bytes at the address of page 0.
-/

set_option autoImplicit false

namespace Trunix

open Trunix.Lib

def Kinfo.builtList (freelist : Nat) (m : Mem) (k : Kinfo) : Except Halt (List Block) := do
  let m ← initLoop freelist (store32 m freelist 0) k.entries
  freeBlocks freelist m

structure Kinfo.HeadOutside (k : Kinfo) (freelist : Nat) : Prop where
  bound : freelist + 4 ≤ 0x100000000
  apart : ∀ b ∈ bootBlocks k.entries, freelist + 4 ≤ b.addr ∨ b.addr + 12 ≤ freelist

/-- No two available entries in front of `mmap_n` have the same kernel address. -/
def Kinfo.Distinct (k : Kinfo) : Prop := ((bootBlocks k.entries).map Block.addr).Nodup

/-! ## A list that can be read has no address twice -/

theorem readList_det {m : Mem} : ∀ (fuel fuel' p : Nat) (L L' : List Block),
    readList m fuel p = .ok L → readList m fuel' p = .ok L' → L = L' := by
  intro fuel
  induction fuel with
  | zero => intro fuel' p L L' read; cases read
  | succ fuel ih =>
      intro fuel' p L L' read read'
      cases fuel' with
      | zero => cases read'
      | succ fuel' =>
          by_cases null : p = 0
          · simp only [readList, if_pos null] at read read'
            cases read
            cases read'
            rfl
          · simp only [readList, if_neg null] at read read'
            obtain ⟨rest, next, done⟩ := bind_eq_ok.mp read
            obtain ⟨rest', next', done'⟩ := bind_eq_ok.mp read'
            cases done
            cases done'
            rw [ih fuel' _ _ _ next next']

/-- From a block on the list the walk goes on as from the start, over no more blocks. -/
theorem readList_from {m : Mem} {b : Block} : ∀ (fuel p : Nat) (L : List Block),
    readList m fuel p = .ok L → b ∈ L →
      ∃ fuel' M, readList m fuel' b.addr = .ok M ∧ M.length ≤ L.length := by
  intro fuel
  induction fuel with
  | zero => intro p L read; cases read
  | succ fuel ih =>
      intro p L read mem
      by_cases null : p = 0
      · simp only [readList, if_pos null] at read
        cases read
        simp at mem
      · have whole := read
        simp only [readList, if_neg null] at read
        obtain ⟨rest, next, done⟩ := bind_eq_ok.mp read
        cases done
        rcases List.mem_cons.mp mem with rfl | inRest
        · exact ⟨fuel + 1, _, whole, Nat.le_refl _⟩
        · obtain ⟨fuel', M, found, shorter⟩ := ih _ rest next inRest
          exact ⟨fuel', M, found, Nat.le_succ_of_le shorter⟩

theorem readList_nodup {m : Mem} : ∀ (fuel p : Nat) (L : List Block),
    readList m fuel p = .ok L → (L.map Block.addr).Nodup := by
  intro fuel
  induction fuel with
  | zero => intro p L read; cases read
  | succ fuel ih =>
      intro p L read
      by_cases null : p = 0
      · simp only [readList, if_pos null] at read
        cases read
        exact List.nodup_nil
      · have whole := read
        simp only [readList, if_neg null] at read
        obtain ⟨rest, next, done⟩ := bind_eq_ok.mp read
        cases done
        rw [List.map_cons, List.nodup_cons]
        refine ⟨fun again => ?_, ih _ rest next⟩
        -- meeting `p` again, the walk would have to be shorter than itself
        obtain ⟨c, memC, same⟩ := List.mem_map.mp again
        obtain ⟨fuel', M, found, shorter⟩ := readList_from fuel _ rest next memC
        rw [same] at found
        rw [readList_det _ _ _ _ _ found whole, List.length_cons] at shorter
        omega

/-! ## Sorted insertion that goes behind the larger block -/

theorem putAfter_last {n : Block} : ∀ {L : List Block}, (∀ b ∈ L, b.sz ≤ n.sz) →
    putAfter n L = L ++ [n] := by
  intro L
  induction L with
  | nil => intro _; rfl
  | cons b rest ih =>
      intro smaller
      cases rest with
      | nil => rfl
      | cons c rest =>
          have notLarger : ¬ n.sz < b.sz := Nat.not_lt_of_le (smaller b (by simp))
          rw [putAfter, if_neg notLarger, ih (fun d mem => smaller d (List.mem_cons_of_mem b mem))]
          rfl

/-- Behind a larger block the new one is out of order, so it went to the end. -/
theorem le_of_putAfter_ascending {n : Block} : ∀ {L : List Block}, Ascending (putAfter n L) →
    ∀ b ∈ L, b.sz ≤ n.sz := by
  intro L
  induction L with
  | nil => intro _ b mem; simp at mem
  | cons c rest ih =>
      intro sorted b mem
      cases rest with
      | nil =>
          rw [List.mem_singleton.mp mem]
          exact (List.pairwise_cons.mp sorted).1 n (by simp)
      | cons d rest =>
          by_cases larger : n.sz < c.sz
          · rw [putAfter, if_pos larger] at sorted
            have := (List.pairwise_cons.mp sorted).1 n (by simp)
            omega
          · rw [putAfter, if_neg larger] at sorted
            rcases List.mem_cons.mp mem with rfl | inRest
            · exact Nat.le_of_not_lt larger
            · exact ih (List.pairwise_cons.mp sorted).2 b inRest

theorem placeAll_of_ascending : ∀ {blocks L : List Block}, Ascending (L ++ blocks) →
    placeAll L blocks = L ++ blocks := by
  intro blocks
  induction blocks with
  | nil => intro L _; exact (List.append_nil L).symm
  | cons n rest ih =>
      intro L sorted
      have smaller : ∀ b ∈ L, b.sz ≤ n.sz := fun b mem =>
        (List.pairwise_append.mp sorted).2.2 b mem n (by simp)
      have split : L ++ n :: rest = L ++ [n] ++ rest := (List.append_cons L n rest)
      rw [split] at sorted ⊢
      rw [← ih sorted, placeAll, List.foldl_cons, putAfter_last smaller]
      rfl

theorem ascending_of_placeAll : ∀ {blocks L : List Block}, Ascending (placeAll L blocks) →
    Ascending (L ++ blocks) := by
  intro blocks
  induction blocks with
  | nil => intro L sorted; rwa [List.append_nil]
  | cons n rest ih =>
      intro L sorted
      have placed : Ascending (putAfter n L ++ rest) := ih sorted
      have smaller := le_of_putAfter_ascending (List.pairwise_append.mp placed).1
      rw [putAfter_last smaller, ← List.append_cons] at placed
      exact placed

theorem placeAll_ascending_iff {blocks : List Block} :
    Ascending (placeAll [] blocks) ↔ Ascending blocks := by
  constructor
  · intro sorted
    exact ascending_of_placeAll sorted
  · intro sorted
    rwa [placeAll_of_ascending (L := []) sorted]

/-! ## The order of the list -/

section Built

variable {k : Kinfo} {freelist : Nat}

theorem p2v_aligned {x : Nat} (aligned : x % 0x1000 = 0) (word : x < 0x100000000) :
    p2v x % 0x1000 = 0 ∧ p2v x < 0x100000000 := by
  by_cases low : x < 0x80000000
  · rw [p2v_of_lt low]
    omega
  · rw [p2v_of_ge (by omega) word]
    exact ⟨aligned, word⟩

theorem Kinfo.HeadOutside.headed (outside : k.HeadOutside freelist)
    (aligned : ∀ e ∈ k.entries, e.type = multibootMemoryAvailable → e.addr % 0x1000 = 0)
    (distinct : k.Distinct) : Headed freelist (bootBlocks k.entries) := by
  have page : ∀ b ∈ bootBlocks k.entries, b.addr % 0x1000 = 0 ∧ b.addr < 0x100000000 := by
    intro b mem
    obtain ⟨e, memE, available, rfl⟩ := mem_bootBlocks.mp mem
    have whole := aligned e memE available
    exact p2v_aligned (by rw [u32]; omega) (u32_lt e.addr)
  refine ⟨outside.bound, fun b mem => ?_, ?_, outside.apart⟩
  · have := page b mem
    omega
  · apply (List.pairwise_map.mp distinct).imp_of_mem
    intro b c memB memC ne
    have pageB := page b memB
    have pageC := page c memC
    simp only [Block.HeadsApart]
    omega

theorem Kinfo.builtList_eq (m : Mem) (outside : k.HeadOutside freelist)
    (aligned : ∀ e ∈ k.entries, e.type = multibootMemoryAvailable → e.addr % 0x1000 = 0)
    (distinct : k.Distinct) :
    k.builtList freelist m = .ok (placeAll [] (bootBlocks k.entries)) := by
  have empty : Linked (store32 m freelist 0) freelist [] := load32_store32_same _ _ _
  have headed := outside.headed aligned distinct
  obtain ⟨m', done, linked⟩ := initLoop_placed k.entries _ [] empty headed
  have perm : (bootBlocks k.entries).Perm (placeAll [] (bootBlocks k.entries)) :=
    (placeAll_perm (bootBlocks k.entries) []).symm
  rw [Kinfo.builtList, done, ok_bind]
  exact readList_linked _ freelist walkLimit linked (headed.perm perm).length_lt

theorem Kinfo.builtList_nodup {m : Mem} {L : List Block} (built : k.builtList freelist m = .ok L) :
    (L.map Block.addr).Nodup := by
  obtain ⟨m', _, read⟩ := bind_eq_ok.mp built
  exact readList_nodup _ _ _ read

/-- The list of the available entries that is built is sorted by ascending size. -/
def Kinfo.BuildsSorted (k : Kinfo) (freelist : Nat) (m : Mem) : Prop :=
  ∃ L, k.builtList freelist m = .ok L ∧ L.Perm (bootBlocks k.entries) ∧ Ascending L

/-- The list is sorted exactly when the entries have different kernel addresses and their
sizes do not decrease in the order of the map. -/
theorem init_list_sorted_iff (m : Mem) (outside : k.HeadOutside freelist)
    (aligned : ∀ e ∈ k.entries, e.type = multibootMemoryAvailable → e.addr % 0x1000 = 0) :
    k.BuildsSorted freelist m ↔ k.Distinct ∧ Ascending (bootBlocks k.entries) := by
  constructor
  · intro builds
    obtain ⟨L, built, perm, sorted⟩ := builds
    have distinct : k.Distinct := ((perm.map Block.addr).nodup_iff).mp (Kinfo.builtList_nodup built)
    rw [Kinfo.builtList_eq m outside aligned distinct] at built
    cases built
    exact ⟨distinct, placeAll_ascending_iff.mp sorted⟩
  · rintro ⟨distinct, sorted⟩
    exact ⟨_, Kinfo.builtList_eq m outside aligned distinct, placeAll_perm _ [],
      placeAll_ascending_iff.mpr sorted⟩

end Built

def mapOf (regions : List (Nat × Nat)) : Kinfo :=
  ⟨fun i => match regions[i.val]? with
    | some r => ⟨r.1, r.2, multibootMemoryAvailable⟩
    | none => ⟨0, 0, 0⟩, regions.length, 0⟩

theorem smallFirst_entries : (mapOf [(0x100000, 0x10000), (0x400000, 0x200000)]).entries =
    [⟨0x100000, 0x10000, multibootMemoryAvailable⟩,
      ⟨0x400000, 0x200000, multibootMemoryAvailable⟩] := rfl

theorem init_list_sorted_small_first :
    (mapOf [(0x100000, 0x10000), (0x400000, 0x200000)]).BuildsSorted 0x80380000 fun _ => 0 := by
  have outside : (mapOf [(0x100000, 0x10000), (0x400000, 0x200000)]).HeadOutside 0x80380000 :=
    ⟨by decide, by decide⟩
  refine (init_list_sorted_iff _ outside (by decide)).mpr ⟨?_, ?_⟩
  · rw [Kinfo.Distinct]
    decide
  · rw [bootBlocks, smallFirst_entries]
    exact List.pairwise_pair.mpr (by decide)

/-- A large region in front of a small one: the small one goes behind the large one. -/
theorem init_list_unsorted :
    ¬ (mapOf [(0x100000, 0x200000), (0x400000, 0x10000)]).BuildsSorted 0x80380000 (fun _ => 0) ∧
      (mapOf [(0x100000, 0x200000), (0x400000, 0x10000)]).builtList 0x80380000 (fun _ => 0) =
        .ok [⟨0x80100000, 0x200000⟩, ⟨0x80400000, 0x10000⟩] := by
  have outside : (mapOf [(0x100000, 0x200000), (0x400000, 0x10000)]).HeadOutside 0x80380000 :=
    ⟨by decide, by decide⟩
  have distinct : (mapOf [(0x100000, 0x200000), (0x400000, 0x10000)]).Distinct := by
    rw [Kinfo.Distinct]
    decide
  have built : (mapOf [(0x100000, 0x200000), (0x400000, 0x10000)]).builtList 0x80380000
      (fun _ => 0) = .ok [⟨0x80100000, 0x200000⟩, ⟨0x80400000, 0x10000⟩] := by
    rw [Kinfo.builtList_eq _ outside (by decide) distinct]
    rfl
  refine ⟨fun builds => ?_, built⟩
  obtain ⟨L, found, _, sorted⟩ := builds
  rw [built] at found
  cases found
  exact absurd (List.pairwise_pair.mp sorted) (by decide)

/-! ## Maps left by `add_memmap` and `cut_memmap` -/

inductive MapCall where
  | add (addr len : Nat)
  | cut (start stop : Nat)

def Kinfo.call (k : Kinfo) : MapCall → Except Halt Kinfo
  | .add addr len => addMemmap k addr len
  | .cut start stop => cutMemmap k start stop

/-- What every call keeps: whole pages below 4 GiB, and nothing past `mmap_n`. -/
structure Kinfo.Rounded (k : Kinfo) : Prop where
  aligned : ∀ m, (k.memmap m).addr % 0x1000 = 0
  word : ∀ m, (k.memmap m).len < 0x100000000
  unused : ∀ m : Fin maxmemmap, k.mmapN ≤ m → (k.memmap m).len = 0

theorem Kinfo.Rounded.update {k k' : Kinfo} (h : k.Rounded) {m : Fin maxmemmap}
    {e : MultibootMmapEntry} (memmap : k'.memmap = Function.update k.memmap m e)
    (aligned : e.addr % 0x1000 = 0) (word : e.len < 0x100000000) (grown : k.mmapN ≤ k'.mmapN)
    (counted : k'.mmapN ≤ m → e.len = 0) : k'.Rounded := by
  have written := update_cases k.memmap m e
  rw [← memmap] at written
  refine ⟨fun i => ?_, fun i => ?_, fun i beyond => ?_⟩
  · rcases written i with ⟨here, _⟩ | ⟨other, _⟩
    · rw [here]
      exact aligned
    · rw [other]
      exact h.aligned i
  · rcases written i with ⟨here, _⟩ | ⟨other, _⟩
    · rw [here]
      exact word
    · rw [other]
      exact h.word i
  · rcases written i with ⟨here, same⟩ | ⟨other, _⟩
    · rw [here]
      exact counted (same ▸ beyond)
    · rw [other]
      exact h.unused i (Nat.le_trans grown beyond)

theorem addMemmap_rounded {k k' : Kinfo} (h : k.Rounded) {addr len : Nat}
    (done : addMemmap k addr len = .ok k') : k'.Rounded := by
  rcases addMemmap_cases k addr len with
    ⟨_, same⟩ | ⟨_, _, panic⟩ | ⟨m, k'', _, _, added, memmap, count⟩
  · rw [same] at done
    cases done
    exact h
  · rw [panic] at done
    cases done
  · rw [added] at done
    cases done
    have size : (roundedEntry addr len).len < 0x100000000 := by
      simp only [roundedEntry, pgRounddown_eq, u32]
      omega
    exact h.update memmap (pgRoundup_mod _) size (by omega) (fun beyond => by omega)

theorem addBetween_rounded {k k' : Kinfo} (h : k.Rounded) {lo hi : Nat}
    (done : addBetween k lo hi = .ok k') : k'.Rounded := by
  by_cases pos : lo < hi
  · rw [addBetween, if_pos pos] at done
    exact addMemmap_rounded h done
  · rw [addBetween, if_neg pos] at done
    cases done
    exact h

theorem cutEntry_rounded {k k' : Kinfo} (h : k.Rounded) {start stop : Nat} {m : Fin maxmemmap}
    (done : cutEntry start stop k m = .ok k') : k'.Rounded := by
  have cleared : (k.setEntry m { k.memmap m with addr := 0, len := 0 }).Rounded :=
    Kinfo.Rounded.update h rfl rfl (Nat.zero_lt_succ _) (Nat.le_refl _) (fun _ => rfl)
  simp only [cutEntry] at done
  generalize u32 (k.memmap m).addr = mmeStart at done
  generalize u32 ((k.memmap m).addr + (k.memmap m).len) = mmeEnd at done
  generalize (if start < mmeStart then mmeStart else start) = cutStart at done
  generalize (if mmeEnd < stop then mmeEnd else stop) = cutEnd at done
  by_cases miss : cutEnd ≤ cutStart
  · rw [if_pos miss] at done
    cases done
    exact h
  · rw [if_neg miss] at done
    obtain ⟨k₁, front, back⟩ := bind_eq_ok.mp done
    exact addBetween_rounded (addBetween_rounded cleared front) back

theorem cutLoop_rounded {start stop : Nat} : ∀ (slots : List (Fin maxmemmap)) (k k' : Kinfo),
    k.Rounded → cutLoop start stop k slots = .ok k' → k'.Rounded := by
  intro slots
  induction slots with
  | nil =>
      intro k k' h done
      cases done
      exact h
  | cons m rest ih =>
      intro k k' h done
      by_cases inside : m < k.mmapN
      · rw [cutLoop, if_pos inside] at done
        obtain ⟨k₁, cut, more⟩ := bind_eq_ok.mp done
        exact ih k₁ k' (cutEntry_rounded h cut) more
      · rw [cutLoop, if_neg inside] at done
        cases done
        exact h

theorem Kinfo.zero_rounded : Kinfo.zero.Rounded :=
  ⟨fun _ => rfl, fun _ => Nat.zero_lt_succ _, fun _ _ => rfl⟩

theorem Kinfo.run_rounded {k : Kinfo} (run : Runs Kinfo.call (fun _ _ => True) Kinfo.zero k) :
    k.Rounded := by
  apply run.invariant _ Kinfo.zero_rounded
  intro k c k' h _ done
  cases c with
  | add addr len => exact addMemmap_rounded h done
  | cut start stop => exact cutLoop_rounded _ _ _ h done

/-! ## What the list holds -/

/-- The blocks of the nonempty available entries of the map, past `mmap_n` as well. -/
def Kinfo.nonemptyBlocks (k : Kinfo) : List Block :=
  (((List.finRange maxmemmap).map k.memmap).filter fun e =>
    e.type = multibootMemoryAvailable ∧ e.len ≠ 0).map MultibootMmapEntry.block

/-- The list that is built ends, holds every nonempty available entry once and holds no
empty block. -/
def Kinfo.BuildsExact (k : Kinfo) (freelist : Nat) (m : Mem) : Prop :=
  ∃ L, k.builtList freelist m = .ok L ∧ L.Perm k.nonemptyBlocks ∧ ∀ b ∈ L, b.sz ≠ 0

def Kinfo.Filled (k : Kinfo) : Prop :=
  ∀ e ∈ k.entries, e.type = multibootMemoryAvailable → e.len ≠ 0

theorem Kinfo.Rounded.nonemptyBlocks_eq {k : Kinfo} (h : k.Rounded) :
    k.nonemptyBlocks = ((k.entries.filter fun e => e.type = multibootMemoryAvailable).filter
      fun e => e.len ≠ 0).map MultibootMmapEntry.block := by
  have past : (((List.finRange maxmemmap).drop k.mmapN).map k.memmap).filter (fun e =>
      decide (e.type = multibootMemoryAvailable ∧ e.len ≠ 0)) = [] := by
    rw [List.filter_eq_nil_iff]
    intro e mem
    obtain ⟨i, memI, rfl⟩ := List.mem_map.mp mem
    obtain ⟨j, inside, at_j⟩ := List.mem_drop_iff_getElem.mp memI
    rw [List.getElem_finRange] at at_j
    have beyond : k.mmapN ≤ i := by
      rw [← at_j]
      simp only [Fin.val_cast]
      omega
    simp [h.unused i beyond]
  have parts : (List.finRange maxmemmap).map k.memmap =
      k.entries ++ ((List.finRange maxmemmap).drop k.mmapN).map k.memmap := by
    rw [Kinfo.entries, ← List.map_append, List.take_append_drop]
  rw [Kinfo.nonemptyBlocks, parts, List.filter_append, past, List.append_nil, List.filter_filter]
  congr 1
  apply List.filter_congr
  intro e _
  simp [Bool.and_comm]

theorem Kinfo.Rounded.block_sz {k : Kinfo} (h : k.Rounded) {e : MultibootMmapEntry}
    (mem : e ∈ k.entries) : e.block.sz = e.len := by
  obtain ⟨i, _, rfl⟩ := List.mem_map.mp mem
  exact u32_of_lt (h.word i)

section Exact

variable {k : Kinfo} {freelist : Nat}

theorem Kinfo.Rounded.entries_aligned (h : k.Rounded) :
    ∀ e ∈ k.entries, e.type = multibootMemoryAvailable → e.addr % 0x1000 = 0 := by
  intro e mem _
  obtain ⟨i, _, rfl⟩ := List.mem_map.mp mem
  exact h.aligned i

theorem Kinfo.Rounded.builds_exact (h : k.Rounded) (m : Mem) (outside : k.HeadOutside freelist)
    (distinct : k.Distinct) (filled : k.Filled) : k.BuildsExact freelist m := by
  have all : (k.entries.filter fun e => e.type = multibootMemoryAvailable).filter
      (fun e => e.len ≠ 0) = k.entries.filter fun e => e.type = multibootMemoryAvailable := by
    apply List.filter_eq_self.mpr
    intro e mem
    obtain ⟨memE, available⟩ := List.mem_filter.mp mem
    simpa using filled e memE (by simpa using available)
  refine ⟨_, Kinfo.builtList_eq m outside h.entries_aligned distinct, ?_, fun b mem => ?_⟩
  · rw [h.nonemptyBlocks_eq, all]
    exact placeAll_perm _ []
  · have inBoot : b ∈ bootBlocks k.entries := (placeAll_perm _ []).mem_iff.mp mem
    obtain ⟨e, memE, available, rfl⟩ := mem_bootBlocks.mp inBoot
    rw [h.block_sz memE]
    exact filled e memE available

theorem Kinfo.Rounded.filled_of_exact (h : k.Rounded) {m : Mem} (outside : k.HeadOutside freelist)
    (distinct : k.Distinct) (builds : k.BuildsExact freelist m) : k.Filled := by
  obtain ⟨L, built, _, nonempty⟩ := builds
  rw [Kinfo.builtList_eq m outside h.entries_aligned distinct] at built
  cases built
  intro e memE available
  rw [← h.block_sz memE]
  apply nonempty
  exact (placeAll_perm _ []).mem_iff.mpr (mem_bootBlocks.mpr ⟨e, memE, available, rfl⟩)

/-- After every sequence of `add_memmap` and `cut_memmap` the list that `init_mem` builds is
finite and holds the nonempty available entries once each, if they have different kernel
addresses and no available slot in front of `mmap_n` is empty.  With different addresses
an empty slot always spoils it, and so do two nonempty entries at one address. -/
theorem init_list_exact (m : Mem) (outside : k.HeadOutside freelist)
    (run : Runs Kinfo.call (fun _ _ => True) Kinfo.zero k) :
    (k.Distinct ∧ k.Filled → k.BuildsExact freelist m) ∧
      (k.Distinct → ¬ k.Filled → ¬ k.BuildsExact freelist m) ∧
      (¬ (k.nonemptyBlocks.map Block.addr).Nodup → ¬ k.BuildsExact freelist m) := by
  have rounded := Kinfo.run_rounded run
  refine ⟨fun ⟨distinct, filled⟩ => rounded.builds_exact m outside distinct filled,
    fun distinct empty builds => empty (rounded.filled_of_exact outside distinct builds),
    fun twice builds => twice ?_⟩
  obtain ⟨L, built, perm, _⟩ := builds
  exact ((perm.map Block.addr).nodup_iff).mp (Kinfo.builtList_nodup built)

end Exact

theorem calls_run (calls : List MapCall) (entries : List MultibootMmapEntry)
    (result : (calls.foldlM Kinfo.call Kinfo.zero).toOption.map Kinfo.entries = some entries) :
    ∃ k, Runs Kinfo.call (fun _ _ => True) Kinfo.zero k ∧ k.entries = entries := by
  cases done : calls.foldlM Kinfo.call Kinfo.zero with
  | error e =>
      rw [done] at result
      cases result
  | ok k =>
      rw [done] at result
      exact ⟨k, Runs.of_foldlM (fun _ _ _ => trivial) done, Option.some.inj result⟩

/-- A cut that leaves both entries partly. -/
theorem init_list_exact_two_regions :
    ∃ k : Kinfo, k.entries = [⟨0x100000, 0x80000, multibootMemoryAvailable⟩,
        ⟨0x400000, 0x200000, multibootMemoryAvailable⟩] ∧
      k.BuildsExact 0x80380000 fun _ => 0 := by
  obtain ⟨k, run, entries⟩ := calls_run
    [.add 0x100000 0x100000, .add 0x400000 0x200000, .cut 0x180000 0x400000]
    [⟨0x100000, 0x80000, multibootMemoryAvailable⟩,
      ⟨0x400000, 0x200000, multibootMemoryAvailable⟩] (by decide)
  have outside : k.HeadOutside 0x80380000 := by
    refine ⟨by decide, ?_⟩
    rw [entries]
    decide
  have distinct : k.Distinct := by
    rw [Kinfo.Distinct, entries]
    decide
  have filled : k.Filled := by
    rw [Kinfo.Filled, entries]
    decide
  exact ⟨k, entries, (init_list_exact _ outside run).1 ⟨distinct, filled⟩⟩

/-- A region that is cut off entirely: its slot becomes a block of no bytes. -/
theorem init_list_empty_block :
    ∃ k : Kinfo, Runs Kinfo.call (fun _ _ => True) Kinfo.zero k ∧ k.HeadOutside 0x80380000 ∧
      k.entries = [⟨0, 0, multibootMemoryAvailable⟩,
        ⟨0x400000, 0x200000, multibootMemoryAvailable⟩] ∧
      k.builtList 0x80380000 (fun _ => 0) = .ok [⟨0x80000000, 0⟩, ⟨0x80400000, 0x200000⟩] ∧
      ¬ k.BuildsExact 0x80380000 fun _ => 0 := by
  obtain ⟨k, run, entries⟩ := calls_run
    [.add 0x100000 0x100000, .add 0x400000 0x200000, .cut 0x100000 0x200000]
    [⟨0, 0, multibootMemoryAvailable⟩, ⟨0x400000, 0x200000, multibootMemoryAvailable⟩] (by decide)
  have outside : k.HeadOutside 0x80380000 := by
    refine ⟨by decide, ?_⟩
    rw [entries]
    decide
  have distinct : k.Distinct := by
    rw [Kinfo.Distinct, entries]
    decide
  have rounded := Kinfo.run_rounded run
  have built : k.builtList 0x80380000 (fun _ => 0) =
      .ok [⟨0x80000000, 0⟩, ⟨0x80400000, 0x200000⟩] := by
    rw [Kinfo.builtList_eq _ outside rounded.entries_aligned distinct, entries]
    rfl
  refine ⟨k, run, outside, entries, built, fun builds => ?_⟩
  have filled := rounded.filled_of_exact outside distinct builds
  rw [Kinfo.Filled, entries] at filled
  exact absurd filled (by decide)

end Trunix
