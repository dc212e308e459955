import Trunix.Kernel.Directory
import Trunix.Kernel.Spaces

/-!
# The address space of a program

What a process finds after `loadelf` has accepted a file: at the pages of every segment the
bytes of the file and zeros around them, zeros in the stack page, and nothing anywhere else.
That is so for segments on disjoint pages which take no more pages than their size needs;
only then their pieces of the block are disjoint too.
-/

set_option autoImplicit false

namespace Trunix

open Trunix.Lib

/-! ## What the file asks for -/

def segmentByte (m : Mem) (bin : Nat) (ph : Proghdr) (x : Nat) : UInt8 :=
  if ph.va ≤ x ∧ x < ph.va + ph.filesz then m (u32 (bin + ph.off) + (x - ph.va)) else 0

def programImage (m : Mem) (bin : Nat) (segs : List Proghdr) (x : Nat) : Option UInt8 :=
  match segs.find? fun ph => decide (ph.firstPage ≤ x ∧ x < ph.endPage) with
  | some ph => some (segmentByte m bin ph x)
  | none => if 0x7FFFF000 ≤ x ∧ x < 0x80000000 then some 0 else none

/-! ## Pieces of the block -/

theorem Snug.places_apart : ∀ {segs : List Proghdr} (off : Nat), Snug segs →
    (∀ p ∈ places segs off, off ≤ p.off ∧ p.off + p.ph.len ≤ off + strides segs) ∧
      (places segs off).Pairwise fun p q => p.off + p.ph.len ≤ q.off := by
  intro segs
  induction segs with
  | nil =>
      intro off _
      exact ⟨fun p mem => absurd mem List.not_mem_nil, .nil⟩
  | cons ph rest ih =>
      intro off snug
      obtain ⟨exact', _⟩ := snug ph List.mem_cons_self
      obtain ⟨bounds, apart⟩ := ih (off + pgRoundup ph.memsz) fun other mem =>
        snug other (List.mem_cons_of_mem _ mem)
      have sum : strides (ph :: rest) = pgRoundup ph.memsz + strides rest := rfl
      rw [places, sum]
      refine ⟨fun p mem => ?_, List.pairwise_cons.mpr ⟨fun q mem => ?_, apart⟩⟩
      · rcases List.mem_cons.mp mem with rfl | later
        · simp only
          omega
        · have := bounds p later
          omega
      · have := bounds q mem
        simp only
        omega

theorem Snug.unique {segs : List Proghdr} (snug : Snug segs) {p q : Placed} (memP : p ∈ places segs 0)
    (memQ : q ∈ places segs 0) {x : Nat} (inP : p.off ≤ x ∧ x < p.off + p.ph.len)
    (inQ : q.off ≤ x ∧ x < q.off + q.ph.len) : p = q := by
  obtain ⟨_, apart⟩ := snug.places_apart 0
  by_contra ne
  have symm : Std.Symm fun p q : Placed => p.off + p.ph.len ≤ q.off ∨ q.off + q.ph.len ≤ p.off :=
    ⟨fun _ _ => Or.symm⟩
  have either := (apart.imp fun {p q} (before : p.off + p.ph.len ≤ q.off) =>
    (Or.inl before : p.off + p.ph.len ≤ q.off ∨ q.off + q.ph.len ≤ p.off)).forall memP memQ ne
  omega

section Loaded

variable {init : List Block} {m : Mem} {bin pd blk base sz : Nat} {segs : List Proghdr}
  {regions : List VmRegion} {s : Store} (loaded : LoadedAt init m bin segs pd blk regions base sz s)
  (ok : SegsOk segs) (snug : Snug segs)

include loaded ok snug

theorem LoadedAt.piece {p : Placed} (mem : p ∈ places segs 0) {x : Nat} (lo : p.off ≤ x)
    (hi : x < p.off + p.ph.len) :
    s.mem (blk + x) = segmentByte m bin p.ph (p.ph.firstPage + (x - p.off)) := by
  have place := loaded.place ok mem
  have spans := ok.spans (mem_places segs 0 mem)
  have start : p.start = p.off + p.ph.va % 0x1000 := rfl
  have file := ok.files p.ph (mem_places segs 0 mem)
  rcases loaded.loading.bytes x (by omega) with ⟨q, memQ, ⟨loQ, hiQ⟩, byte⟩ | ⟨none, zero⟩
  · rcases List.mem_append.mp memQ with inPlaces | last
    · have placeQ := loaded.place ok inPlaces
      have startQ : q.start = q.off + q.ph.va % 0x1000 := rfl
      have fileQ := ok.files q.ph (mem_places segs 0 inPlaces)
      have same : p = q := snug.unique mem inPlaces ⟨lo, hi⟩ ⟨by omega, by omega⟩
      subst same
      have offset : x - p.start = p.ph.firstPage + (x - p.off) - p.ph.va := by omega
      rw [byte, Placed.wants, if_pos hiQ, segmentByte, if_pos (by omega), offset]
    · rw [List.mem_singleton.mp last] at loQ hiQ
      have := (stackAt_spec segs).2.2.2.2
      omega
  · have out : ¬ p.files x := none p (List.mem_append_left _ mem)
    rw [Placed.files] at out
    rw [zero, segmentByte, if_neg (by omega)]

theorem LoadedAt.stack_zero {j : Nat} (lt : j < 0x1000) : s.mem (blk + (strides segs + j)) = 0 := by
  have room := loaded.room
  rcases loaded.loading.bytes (strides segs + j) (by omega) with ⟨q, memQ, ⟨loQ, hiQ⟩, _⟩ | ⟨_, zero⟩
  · exfalso
    rcases List.mem_append.mp memQ with inPlaces | last
    · have placeQ := loaded.place ok inPlaces
      have fileQ := ok.files q.ph (mem_places segs 0 inPlaces)
      have inside := (snug.places_apart 0).1 q inPlaces
      omega
    · rw [List.mem_singleton.mp last] at loQ hiQ
      have := (stackAt_spec segs).2.2.2.2
      omega
  · exact zero

end Loaded

/-! ## Nothing else is mapped -/

theorem loadHdrs_walks {init : List Block} {m : Mem} {bin pd blk sz : Nat} :
    ∀ (segs : List Proghdr) (off : Nat) (regions : List VmRegion) (s : Store) {pass : Pass},
    Loadable init pd blk sz s → CopiesFit sz segs off →
    (∀ ph ∈ segs, ph.type = 1 ∧ ph.firstPage + ph.len ≤ 0x80000000) →
    loadHdrs m bin pd segs (u32 (blk + off)) regions s = .ok pass → ∀ x < 0x80000000,
    (∀ ph ∈ segs, ¬ (ph.firstPage ≤ x ∧ x < ph.firstPage + ph.len)) →
    walk pass.store.mem pd x = walk s.mem pd x := by
  intro segs
  induction segs with
  | nil =>
      intro off regions s pass _ _ _ done x _ _
      cases done
      rfl
  | cons ph rest ih =>
      intro off regions s pass loadable fits user done x low out
      obtain ⟨load, top⟩ := user ph List.mem_cons_self
      simp only [loadHdrs, if_pos load] at done
      obtain ⟨s₁, moved, afterMove⟩ := bind_eq_ok.mp done
      obtain ⟨s₂, linked, afterLink⟩ := bind_eq_ok.mp afterMove
      obtain ⟨_, _, result⟩ := bind_eq_ok.mp moved
      cases result
      have written := loadable.copy fits.1 (fun i => m (u32 (bin + ph.off) + i))
      have first : pgRounddown ph.va = ph.firstPage := rfl
      have whole : pgRoundup ph.len = ph.len := pgRoundup_of_aligned ph.len_aligned
      have linked' : allocPt pd ph.va (v2p (u32 (blk + off))) ph.len userFlags _ = .ok s₂ := linked
      obtain ⟨mapping, walks⟩ := allocPt_spec written.sound written.dir (v2p_lt _)
        (by rw [first, whole]; exact top) linked'
      have filled := written.trans mapping.filling
      rw [next_place] at afterLink
      rw [ih _ _ s₂ (filled.loadable loadable) fits.2
        (fun other mem => user other (List.mem_cons_of_mem _ mem)) afterLink x low
        fun other mem => out other (List.mem_cons_of_mem _ mem), walks x low, first]
      have apart : ¬ (ph.firstPage ≤ x ∧ x < ph.firstPage + pgRoundup ph.len) :=
        whole.symm ▸ out ph List.mem_cons_self
      rw [if_neg apart]
      have copied := loadable.copy_frame fits.1 (fun i => m (u32 (bin + ph.off) + i))
      exact walk_of_frame copied low loadable.clear

section Image

variable {init : List Block} {env : Env} {bin cr3 entry base sz : Nat} {regions : List VmRegion}
  {s s' : Store} (sound : s.Sound init) (ok : SegsOk (env.initrd.segments bin))
  (image : loadImage env.kpagedir env.initrd.bytes bin s = .ok (.loaded cr3 entry base sz regions, s'))

include sound ok image

/-- No address is mapped but the pages of the segments and the stack. -/
theorem loadImage_walks {x : Nat} (low : x < 0x7FFFF000)
    (out : ∀ ph ∈ env.initrd.segments bin, ¬ (ph.firstPage ≤ x ∧ x < ph.endPage)) :
    walk s'.mem (p2v cr3) x = none := by
  obtain ⟨pd, s₁, s₂, array, s₃, pass, copied, _, baseEq, sizeEq, cleared, allocated, loaded, linked, rfl, _,
    _⟩ := loadImage_stages image
  obtain ⟨sound₁, dir₁, empty₁, _⟩ := copykvm_spec sound copied
  have ok' : SegsOk (segments (proghdrs env.initrd.bytes bin)) := ok
  have out' : ∀ ph ∈ segments (proghdrs env.initrd.bytes bin), ¬ (ph.firstPage ≤ x ∧ x < ph.endPage) := out
  have types := segments_load (proghdrs env.initrd.bytes bin)
  generalize segments (proghdrs env.initrd.bytes bin) = segs at *
  have pagedPd := sound₁.paged dir₁.own
  simp only at pagedPd
  have high : p2v (v2p pd) = pd := p2v_v2p (by omega) (by omega)
  obtain ⟨room, whole, bound⟩ := imageSize_room ok'
  rw [← baseEq, ← sizeEq] at room whole bound
  have begun : Loading init env.initrd.bytes bin pd (s₁.allocPages sz).1 sz [] s₂ :=
    Loading.begin sound₁ dir₁ empty₁ (by omega) whole bound cleared rfl
  obtain ⟨memSame, freeSame, givenSame⟩ := Store.kmalloc_heap allocated
  have begun₃ := begun.write memSame freeSame givenSame
  -- the user half is still empty when the first segment is mapped
  have absent : walk s₃.mem pd x = none := by
    refine walk_absent ?_
    have same : load32 s₃.mem (pd + 4 * (x / 0x400000)) = load32 s₁.mem (pd + 4 * (x / 0x400000)) := by
      obtain ⟨_, _, result⟩ := bind_eq_ok.mp cleared
      have clear := begun.clear
      rw [memSame, ← (s₁.allocPages_mem sz).1]
      cases result
      refine (fill_frame (s₁.allocPages sz).2.mem _ sz 0).load32_eq fun y lo hi => ?_
      refine clear y (Or.inl ?_)
      simp only [page, Set.mem_Ico]
      omega
    rw [present, same]
    exact empty₁ _ (by omega)
  have user : ∀ ph ∈ segs, ph.type = 1 ∧ ph.firstPage + ph.len ≤ 0x80000000 := by
    intro ph mem
    have spans := ok'.spans mem
    have limit : mmapLimit = 0x7FFFF000 := rfl
    exact ⟨types ph mem, by omega⟩
  have apart : ∀ ph ∈ segs, ¬ (ph.firstPage ≤ x ∧ x < ph.firstPage + ph.len) := by
    intro ph mem
    rw [(ok'.spans mem).1]
    exact out' ph mem
  generalize (s₁.allocPages sz).1 = blk at *
  have paged := begun.sound.paged begun.own
  simp only at paged
  have start : blk = u32 (blk + 0) := (u32_of_lt (by omega)).symm
  have loadable : Loadable init pd blk sz s₃ :=
    ⟨begun₃.sound, begun₃.dir, Or.inr begun₃.own, begun₃.clear⟩
  have strideLe := strides_le ok'
  rw [start] at loaded
  have filled := loadHdrs_filling segs 0 [] s₃ loadable (ok'.copiesFit bound (by omega)) ok'.userPages types
    loaded
  have walks := loadHdrs_walks segs 0 [] s₃ loadable (ok'.copiesFit bound (by omega)) user loaded x (by omega)
    apart
  have top : pgRounddown 0x7FFFF000 + pgRoundup 0x1000 ≤ 0x80000000 := by decide
  have stack := (allocPt_spec filled.sound filled.dir (v2p_lt _) top linked).2 x (by omega)
  have page : pgRounddown 0x7FFFF000 = 0x7FFFF000 := by decide
  rw [page, if_neg (by omega)] at stack
  rw [high, stack, walks, absent]

theorem loadImage_block (snug : Snug (env.initrd.segments bin)) :
    ∃ blk, LoadedAt init env.initrd.bytes bin (env.initrd.segments bin) (p2v cr3) blk regions base sz s' ∧
      tableBytes s'.mem (p2v cr3) ∪ Set.Ico blk (blk + sz) ⊆ s.newBytes s' ∧
      Supplied s'.given regions := by
  obtain ⟨blk, loaded⟩ := loadImage_loaded sound ok image
  obtain ⟨blk', s₁, built, list⟩ := loadImage_built sound ok image
  have loaded' : LoadedAt init env.initrd.bytes bin (env.initrd.segments bin) (p2v cr3) blk regions base sz
      s' := loaded
  have same : blk = blk' := by
    have paged := loaded.loading.sound.paged loaded.loading.own
    have paged' := built.filling.sound.paged built.mem_block
    have room := loaded'.room
    simp only at paged paged'
    have lists := loaded'.list.symm.trans list
    have places := congrArg VmRegion.pa (List.cons.inj lists).1
    simp only [v2p_eq] at places
    omega
  subst same
  have own := built.mem_block
  have paged : Block.Paged ⟨blk, sz⟩ := built.filling.sound.tidy.grained _ (List.mem_append_right _ own)
  refine ⟨blk, loaded', built.new, ?_⟩
  rw [loaded'.list]
  exact image_supplied own paged (built.filling.sound.paged own).2.2.2.1 snug loaded'.room

end Image

theorem LoadedAt.finds {init : List Block} {m : Mem} {bin pd blk base sz x : Nat} {segs : List Proghdr}
    {regions : List VmRegion} {s : Store} (loaded : LoadedAt init m bin segs pd blk regions base sz s)
    (ok : SegsOk segs) (snug : Snug segs)
    (elsewhere : x < 0x7FFFF000 → (∀ ph ∈ segs, ¬ (ph.firstPage ≤ x ∧ x < ph.endPage)) →
      walk s.mem pd x = none) :
    (if x < 0x80000000 then (walk s.mem pd x).map fun pa => s.mem (p2v pa) else none) =
      programImage m bin segs x := by
  have room := loaded.room
  rw [programImage]
  cases found : segs.find? fun ph => decide (ph.firstPage ≤ x ∧ x < ph.endPage) with
  | some ph =>
      simp only
      have mem := List.mem_of_find?_eq_some found
      have inside : ph.firstPage ≤ x ∧ x < ph.endPage := by
        simpa using List.find?_some found
      obtain ⟨p, inPlaces, rfl⟩ := exists_place segs 0 mem
      have place := loaded.place ok inPlaces
      have spans := ok.spans mem
      have limit : mmapLimit = 0x7FFFF000 := rfl
      have piece := loaded.piece ok snug inPlaces (x := p.off + (x - p.ph.firstPage)) (by omega) (by omega)
      have address : p.ph.firstPage + (p.off + (x - p.ph.firstPage) - p.off) = x := by omega
      rw [if_pos (by omega), loaded.walk_segment ok inPlaces inside.1 inside.2, Option.map_some,
        Nat.add_assoc, loaded.kernel_address (by omega), piece, address]
  | none =>
      simp only
      have out : ∀ ph ∈ segs, ¬ (ph.firstPage ≤ x ∧ x < ph.endPage) := fun ph mem inside =>
        List.find?_eq_none.mp found ph mem (decide_eq_true inside)
      by_cases stack : 0x7FFFF000 ≤ x ∧ x < 0x80000000
      · have leads := loaded.walk_stack (j := x - 0x7FFFF000) (by omega)
        have address : 0x7FFFF000 + (x - 0x7FFFF000) = x := by omega
        rw [address] at leads
        rw [if_pos stack, if_pos stack.2, leads, Option.map_some, Nat.add_assoc,
          loaded.kernel_address (by omega), loaded.stack_zero ok snug (by omega)]
      · rw [if_neg stack]
        by_cases low : x < 0x80000000
        · rw [if_pos low, elsewhere (by omega) out]
          rfl
        · rw [if_neg low]

/-- A process whose program was just loaded is at home, in new memory, and finds its program. -/
theorem loadImage_housed {init : List Block} {env : Env} {bin cr3 entry base sz n : Nat}
    {regions : List VmRegion} {s : Store} {k : Kernel} (sound : s.Sound init)
    (ok : SegsOk (env.initrd.segments bin)) (snug : Snug (env.initrd.segments bin))
    (image : loadImage env.kpagedir env.initrd.bytes bin s =
      .ok (.loaded cr3 entry base sz regions, k.store))
    (dir : (k.procs n).cr3 = cr3) (list : k.regions n = regions) (start : (k.procs n).mmapBase = base) :
    k.Housed n ∧ k.footprint n ⊆ s.newBytes k.store ∧
      k.space n = programImage env.initrd.bytes bin (env.initrd.segments bin) := by
  obtain ⟨blk, loaded, new, supplied⟩ := loadImage_block sound ok image snug
  have arranged := loadImage_arranged sound ok image
  have backed := loaded.backed ok
  have dirEq : k.dir n = p2v cr3 := by rw [Kernel.dir, dir]
  have place : ∀ m ∈ regions, m.place ⊆ Set.Ico blk (blk + sz) := by
    intro m listed x within
    have low := (backed m listed).low
    have high := (backed m listed).high
    simp only [VmRegion.place, Set.mem_Ico] at within ⊢
    omega
  have stackPage : pgRounddown 0x7FFFF000 = 0x7FFFF000 := by decide
  refine ⟨⟨?_, ?_, ?_, ?_, ?_, ?_, ?_, ?_, ?_⟩, ?_, ?_⟩
  · rw [dirEq]
    exact loaded.loading.dir
  · rw [list]
    exact arranged.toRegionsOk
  · rw [list, loaded.list]
    exact List.cons_ne_nil _ _
  · rw [list]
    exact supplied
  · intro m listed
    rw [list] at listed
    have physical := (backed m listed).physical
    have nonempty := (supplied.grained _ (List.mem_map_of_mem listed)).nonempty
    have size : m.block.sz = m.len := rfl
    omega
  · intro m listed x inTables within
    rw [list] at listed
    rw [Kernel.tables, dirEq] at inTables
    exact loaded.loading.clear x inTables (place m listed within)
  · intro m listed
    rw [list] at listed
    rw [dirEq]
    exact (backed m listed).mapped
  · intro x low out
    rw [list, loaded.list] at out
    have stack := out _ List.mem_cons_self
    simp only [VmRegion.range, Set.mem_Ico, stackPage] at stack
    rw [dirEq]
    refine loadImage_walks sound ok image (by omega) fun ph mem inside => ?_
    have ranges := layout_ranges ok blk
    have inRanges : Set.Ico ph.firstPage ph.endPage ∈
        (layout (env.initrd.segments bin) blk).map VmRegion.range := by
      rw [ranges]
      exact List.mem_map_of_mem (f := fun ph => Set.Ico ph.firstPage ph.endPage) mem
    obtain ⟨m, inLayout, same⟩ := List.mem_map.mp inRanges
    exact out m (List.mem_cons_of_mem _ (List.mem_reverse.mpr inLayout)) (same ▸ inside)
  · rw [start]
    exact ⟨arranged.base_le, arranged.whole⟩
  · rintro x (inTables | ⟨m, listed, within⟩)
    · rw [Kernel.tables, dirEq] at inTables
      exact new (Or.inl inTables)
    · rw [list] at listed
      exact new (Or.inr (place m listed within))
  · funext x
    rw [Kernel.space, dirEq]
    exact loaded.finds ok snug fun low out => loadImage_walks sound ok image low out

end Trunix
