import Trunix.Kernel.Supply
import Trunix.Kernel.Tables

/-!
# Where `loadelf` writes

The program headers of a file are used unchecked: `filesz` bytes are copied to a block whose
size comes from the addresses and `memsz`, every page of a segment is mapped wherever it
lies, and no answer of an allocator is looked at.  This module says for which files and in
which states all writes stay in what `loadelf` obtained.
-/

set_option autoImplicit false

namespace Trunix

open Trunix.Lib

def blockSize (segs : List Proghdr) : Nat := imageSize (lowest segs 0xFFFFFFFF) (highest segs 0)

def blockAt (s : Store) (sz : Nat) : Nat := ((s.allocPages 0x1000).2.allocPages sz).1

/-- Everything that was written lies in the block, in the new directory or in one of its
tables, which were all handed out by this call; every copy stays inside the block, and the
entries of `m` inside the array of `16 * (n + 1)` bytes. -/
structure LoadContained (s s' : Store) (segs : List Proghdr) (cr3 sz : Nat)
    (regions : List VmRegion) : Prop where
  frame : Frame s.mem s'.mem
    (tableBytes s'.mem (p2v cr3) ∪ Set.Ico (blockAt s sz) (blockAt s sz + sz))
  fresh : tableBytes s'.mem (p2v cr3) ∪ Set.Ico (blockAt s sz) (blockAt s sz + sz) ⊆ s.newBytes s'
  copies : ∀ c ∈ copyRanges segs (blockAt s sz),
    c.2 = 0 ∨ blockAt s sz ≤ c.1 ∧ c.1 + c.2 ≤ blockAt s sz + sz
  entries : 16 * regions.length ≤ 16 * (segs.length + 1)

/-- `loadelf` returns -1 or keeps to what it obtained.  A write through `NULL` is a write
elsewhere; a failed assertion stops the kernel before any. -/
def LoadSafe (s : Store) (segs : List Proghdr) : Except Halt (LoadResult × Store) → Prop
  | .ok (.loaded cr3 _ _ sz regions, s') => LoadContained s s' segs cr3 sz regions
  | .ok _ => True
  | .error .fault => False
  | .error _ => True

structure SegmentsFit (s : Store) (segs : List Proghdr) : Prop where
  array : ∃ a t, s.kmalloc (16 * (segs.length + 1)) = .ok (a, t) ∧ 0x1000 ≤ a
  copies : CopiesFit (blockSize segs) segs 0
  tables : (takePages (segmentSlots segs ∪ {511}).card
    ((s.allocPages 0x1000).2.allocPages (blockSize segs)).2.free).isSome = true

/-- What the state must have for the headers: a page for the directory; then either a header
is refused, or there is a block for the program, and either the regions are more than
`kmalloc` can serve or everything fits. -/
def LoadRoom (s : Store) (phs : List Proghdr) : Prop :=
  (s.allocPages 0x1000).1 ≠ 0 ∧
    ((∃ ph ∈ phs, ph.type = 2 ∨ ph.type = 3) ∨
      (blockSize (segments phs) = 0 ∨ blockAt s (blockSize (segments phs)) ≠ 0) ∧
        (0x1000 ≤ kmallocSize (16 * ((segments phs).length + 1)) ∨ SegmentsFit s (segments phs)))

/-- Every page that gets mapped is below `KERNEL_OFFSET`: a header is refused, or the array of
the regions is too large for `kmalloc`, or the pages of all segments are. -/
def MapsUser (phs : List Proghdr) : Prop :=
  (∃ ph ∈ phs, ph.type = 2 ∨ ph.type = 3) ∨
    0x1000 ≤ kmallocSize (16 * ((segments phs).length + 1)) ∨ UserPages (segments phs)

/-! ## The ways to stop -/

theorem scanHdrs_none : ∀ (phs : List Proghdr) (n lo hi : Nat), scanHdrs phs n lo hi = none →
    ∃ ph ∈ phs, ph.type = 2 ∨ ph.type = 3 := by
  intro phs
  induction phs with
  | nil => intro n lo hi none; cases none
  | cons ph rest ih =>
      intro n lo hi none
      by_cases dynamic : ph.type = 2 ∨ ph.type = 3
      · exact ⟨ph, List.mem_cons_self, dynamic⟩
      · have later : ∃ n lo hi, scanHdrs rest n lo hi = Option.none := by
          by_cases load : ph.type = 1
          · simp only [scanHdrs, if_pos load] at none
            exact ⟨_, _, _, none⟩
          · simp only [scanHdrs, if_neg load, if_neg dynamic] at none
            exact ⟨_, _, _, none⟩
        obtain ⟨n', lo', hi', none'⟩ := later
        obtain ⟨other, mem, refused⟩ := ih n' lo' hi' none'
        exact ⟨other, List.mem_cons_of_mem _ mem, refused⟩

def Faults (e : Halt) : Prop := e = .fault

theorem touch_faults (addr n : Nat) : Returns Faults (fun _ => True) (touch addr n) := by
  rw [touch]
  split
  · rfl
  · trivial

theorem memset_faults (s : Store) (addr : Nat) (b : UInt8) (n : Nat) :
    Returns Faults (fun _ => True) (s.memset addr b n) := (touch_faults addr n).bind fun _ _ => trivial

theorem memmove_faults (s : Store) (addr : Nat) (src : Nat → UInt8) (n : Nat) :
    Returns Faults (fun _ => True) (s.memmove addr src n) := (touch_faults addr n).bind fun _ _ => trivial

theorem tableFor_faults (pd pde : Nat) (s : Store) :
    Returns Faults (fun _ => True) (tableFor pd pde userFlags s) := by
  rw [tableFor]
  simp only
  split
  · exact (memset_faults _ _ _ _).bind fun _ _ => trivial
  · trivial

theorem mapPages_faults (pd : Nat) : ∀ (n va pa : Nat) (s : Store),
    Returns Faults (fun _ => True) (mapPages pd userFlags n va pa s) := by
  intro n
  induction n with
  | zero => intro va pa s; trivial
  | succ n ih =>
      intro va pa s
      rw [mapPages]
      refine Returns.bind (Q := fun _ => True) ?_ fun s₁ _ => ih _ _ _
      exact (tableFor_faults pd _ s).bind fun _ _ => trivial

theorem loadHdrs_faults {m : Mem} {bin pd : Nat} : ∀ (phs : List Proghdr) (mem : Nat)
    (regions : List VmRegion) (s : Store),
    Returns Faults (fun _ => True) (loadHdrs m bin pd phs mem regions s) := by
  intro phs
  induction phs with
  | nil => intro mem regions s; trivial
  | cons ph rest ih =>
      intro mem regions s
      rw [loadHdrs]
      split
      · refine (memmove_faults _ _ _ _).bind fun s₁ _ => ?_
        exact (mapPages_faults pd _ _ _ s₁).bind fun s₂ _ => ih _ _ s₂
      · split
        · trivial
        · exact ih _ _ _

/-! ## The stages -/

section Stages

variable {init : List Block} {kpagedir : Nat} {m : Mem} {bin : Nat} {s : Store}

theorem copykvm_stage (sound : s.Sound init) :
    ((s.allocPages 0x1000).1 = 0 ∧ copykvm kpagedir s = .error .fault) ∨
      (s.allocPages 0x1000).1 ≠ 0 ∧ ∃ s₁, copykvm kpagedir s = .ok ((s.allocPages 0x1000).1, s₁) ∧
        s₁.free = (s.allocPages 0x1000).2.free := by
  have alloc := sound.alloc 0x1000
  rw [copykvm]
  generalize s.allocPages 0x1000 = result at alloc
  cases alloc with
  | none small => exact Or.inl ⟨rfl, rfl⟩
  | zero a free nothing => cases nothing
  | some a free _ _ sound₁ =>
      have paged := sound₁.paged List.mem_cons_self
      simp only at paged
      have low : ¬ a < 0x1000 := by omega
      have half : ¬ a + 4 * (kernelOffset / 0x400000) < 0x1000 := by omega
      refine Or.inr ⟨by simp only; omega, ?_⟩
      simp only [Store.memset, Store.memmove, touch, low, half, and_false, if_false, ok_bind]
      exact ⟨_, rfl, rfl⟩

theorem block_stage {sz : Nat} {s₁ : Store} (sound : s₁.Sound init) (whole : sz % 0x1000 = 0) :
    (sz ≠ 0 ∧ (s₁.allocPages sz).1 = 0 ∧
        (s₁.allocPages sz).2.memset (s₁.allocPages sz).1 0 sz = .error .fault) ∨
      (sz = 0 ∨ (s₁.allocPages sz).1 ≠ 0) ∧ ∃ s₂,
        (s₁.allocPages sz).2.memset (s₁.allocPages sz).1 0 sz = .ok s₂ ∧ s₂.Sound init ∧
        (sz = 0 ∨ ⟨(s₁.allocPages sz).1, sz⟩ ∈ s₂.given ∧ ⟨(s₁.allocPages sz).1, sz⟩ ∉ s₁.given) ∧
        (∀ b ∈ s₁.given, b ∈ s₂.given) ∧ s₂.heap = s₁.heap ∧ s₂.free = (s₁.allocPages sz).2.free ∧
        Frame s₁.mem s₂.mem (Set.Ico (s₁.allocPages sz).1 ((s₁.allocPages sz).1 + sz)) := by
  have size : pgRoundup sz = sz := pgRoundup_of_aligned whole
  have alloc := sound.alloc sz
  generalize s₁.allocPages sz = result at alloc
  cases alloc with
  | none small =>
      by_cases nothing : sz = 0
      · subst nothing
        exact Or.inr ⟨Or.inl rfl, _, rfl, sound.write rfl rfl, Or.inl rfl, fun b mem => mem, rfl, rfl,
          fill_frame s₁.mem 0 0 0⟩
      · have null : sz ≠ 0 ∧ 0 < 0x1000 := ⟨nothing, by decide⟩
        exact Or.inl ⟨nothing, rfl, by simp only [Store.memset, touch, if_pos null, error_bind]⟩
  | zero a free nothing nonnull sound₂ =>
      subst nothing
      exact Or.inr ⟨Or.inl rfl, _, rfl, sound₂.write rfl rfl, Or.inl rfl, fun b mem => mem, rfl, rfl,
        fill_frame s₁.mem a 0 0⟩
  | some a free pos _ sound₂ =>
      rw [size] at sound₂ pos
      have paged := sound₂.paged List.mem_cons_self
      simp only at paged
      have high : ¬ (sz ≠ 0 ∧ a < 0x1000) := by omega
      have fresh : (⟨a, sz⟩ : Block) ∉ s₁.given := by
        intro old
        have apart := (List.pairwise_cons.mp sound₂.apart).1 _ old
        simp only [Block.Apart] at apart
        omega
      refine Or.inr ⟨Or.inr (by simp only; omega), ?_⟩
      simp only [size, Store.memset, touch, if_neg high, ok_bind]
      exact ⟨_, rfl, sound₂.write rfl rfl, Or.inr ⟨List.mem_cons_self, fresh⟩,
        fun b mem => List.mem_cons_of_mem _ mem, rfl, rfl, fill_frame s₁.mem a sz 0⟩

theorem blockSize_aligned (segs : List Proghdr) : blockSize segs % 0x1000 = 0 := by
  rw [blockSize, imageSize]
  exact pgRoundup_mod _

end Stages

/-- The second pass and the stack, for headers that are all of type 1. -/
def loadSegments (m : Mem) (bin pd : Nat) (segs : List Proghdr) (blk : Nat) (s : Store) :
    Except Halt (LoadResult × Store) := do
  let pass ← loadHdrs m bin pd segs blk [] s
  let s ← allocPt pd 0x7FFFF000 (v2p pass.mem) 0x1000 userFlags pass.store
  return (.loaded (v2p pd) (elfEntry m bin) (highest segs 0) (blockSize segs)
    (⟨0x7FFFF000, v2p pass.mem, 0x1000⟩ :: pass.regions), s)

def loadBlock (m : Mem) (bin pd : Nat) (segs : List Proghdr) (s : Store) :
    Except Halt (LoadResult × Store) := do
  let (blk, s) := s.allocPages (blockSize segs)
  let s ← s.memset blk 0 (blockSize segs)
  let (array, s) ← s.kmalloc (16 * (segs.length + 1))
  touch array 16
  loadSegments m bin pd segs blk s

theorem loadImage_eq {kpagedir : Nat} {m : Mem} {bin pd n lo hi : Nat} {s s₁ : Store}
    (copied : copykvm kpagedir s = .ok (pd, s₁))
    (scanned : scanHdrs (proghdrs m bin) 0 0xFFFFFFFF 0 = some (n, lo, hi)) :
    loadImage kpagedir m bin s = loadBlock m bin pd (segments (proghdrs m bin)) s₁ := by
  obtain ⟨bounds, clean⟩ := scanHdrs_some _ _ _ _ scanned
  simp only [Prod.mk.injEq, Nat.zero_add] at bounds
  obtain ⟨rfl, rfl, rfl⟩ := bounds
  rw [loadImage, loadImageWith, copied, ok_bind]
  simp only [scanned, loadBlock, blockSize]
  congr 1
  funext s₂
  congr 1
  funext r
  congr 1
  funext _
  rw [loadSegments, loadHdrs_segments _ _ _ _ clean]
  cases loaded : loadHdrs m bin pd (segments (proghdrs m bin))
      (s₁.allocPages (imageSize (lowest (segments (proghdrs m bin)) 0xFFFFFFFF)
        (highest (segments (proghdrs m bin)) 0))).1 [] r.2 with
  | error e => rfl
  | ok pass =>
      obtain ⟨passOk, _, _⟩ := loadHdrs_ok _ _ _ _ (segments_load _) loaded
      simp only [ok_bind, passOk, if_true]
      rfl

section Segments

variable {init : List Block} {m : Mem} {bin pd blk : Nat} {segs : List Proghdr} {s : Store}
variable (loadable : Loadable init pd blk (blockSize segs) s) (start : u32 blk = blk)
  (fits : CopiesFit (blockSize segs) segs 0) (user : UserPages segs)
  (types : ∀ ph ∈ segs, ph.type = 1)

include loadable start fits user types

theorem loadSegments_provides :
    Provides Prod.snd pd (segmentSlots segs ∪ {511}) s (loadSegments m bin pd segs blk s) := by
  have stackSlot : tableSlots 0x7FFFF000 0x1000 = {511} := by decide
  have place : u32 (blk + 0) = blk := start
  have pass := @loadHdrs_provides init m bin pd blk _ segs 0 [] s loadable fits user types
  rw [place] at pass
  rw [loadSegments, ← stackSlot]
  refine pass.bind fun pass done => ?_
  rw [← place] at done
  have filled := loadHdrs_filling segs 0 [] s loadable fits user types done
  rw [← Finset.union_empty (tableSlots 0x7FFFF000 0x1000)]
  refine (allocPt_provides filled.sound filled.dir (v2p_lt _) (Or.inr (by decide))).bind fun s' _ => ?_
  exact Provides.none rfl rfl rfl

theorem loadSegments_filling {r : LoadResult} {s' : Store}
    (done : loadSegments m bin pd segs blk s = .ok (r, s')) :
    Filling init pd (Set.Ico blk (blk + blockSize segs)) s s' := by
  have place : u32 (blk + 0) = blk := start
  obtain ⟨pass, loaded, afterPass⟩ := bind_eq_ok.mp done
  obtain ⟨s₁, linked, result⟩ := bind_eq_ok.mp afterPass
  cases result
  rw [← place] at loaded
  have filled := loadHdrs_filling segs 0 [] s loadable fits user types loaded
  have mapping := allocPt_mapping filled.sound filled.dir (Or.inr (by decide)) linked
  exact filled.trans mapping.filling

end Segments

theorem loadSegments_result {m : Mem} {bin pd blk : Nat} {segs : List Proghdr} {s s' : Store}
    {r : LoadResult} (types : ∀ ph ∈ segs, ph.type = 1)
    (done : loadSegments m bin pd segs blk s = .ok (r, s')) :
    ∃ entry base regions, r = .loaded (v2p pd) entry base (blockSize segs) regions ∧
      regions.length = segs.length + 1 := by
  obtain ⟨pass, loaded, afterPass⟩ := bind_eq_ok.mp done
  obtain ⟨s₁, _, result⟩ := bind_eq_ok.mp afterPass
  cases result
  obtain ⟨_, _, regions⟩ := loadHdrs_ok _ _ _ _ types loaded
  refine ⟨_, _, _, rfl, ?_⟩
  have layoutLength : ∀ (segs : List Proghdr) (mem : Nat), (layout segs mem).length = segs.length := by
    intro segs
    induction segs with
    | nil => intro mem; rfl
    | cons ph rest ih => intro mem; rw [layout, List.length_cons, List.length_cons, ih]
  rw [regions, List.length_cons, List.append_nil, List.length_reverse, layoutLength]

theorem loadSegments_faults (m : Mem) (bin pd : Nat) (segs : List Proghdr) (blk : Nat) (s : Store) :
    Returns Faults (fun _ => True) (loadSegments m bin pd segs blk s) := by
  refine (loadHdrs_faults segs blk [] s).bind fun pass _ => ?_
  exact (mapPages_faults pd _ _ _ pass.store).bind fun _ _ => trivial

/-! ## The whole of `loadelf` -/

theorem Store.Sound.alloc_lt {init : List Block} {s : Store} (sound : s.Sound init) (sz : Nat) :
    (s.allocPages sz).1 < 0x100000000 := by
  cases taken : takeFit sz s.free with
  | none => simp [Store.allocPages, taken]
  | some found =>
      obtain ⟨b, rest⟩ := found
      have mem : b ∈ s.free := (takeFit_perm taken).mem_iff.mpr (by simp)
      have paged := sound.tidy.grained b (List.mem_append_left _ mem)
      have bound := paged.bound
      have nonempty := paged.nonempty
      simp only [Store.allocPages, taken]
      omega

structure PassBegins (init : List Block) (pd blk sz : Nat) (s s₃ : Store) : Prop where
  loadable : Loadable init pd blk sz s₃
  empty : ∀ i < 512, ¬ present s₃.mem pd i
  older : ∀ b ∈ s.given, b ∈ s₃.given
  directory : ⟨pd, 0x1000⟩ ∉ s.given
  block : sz = 0 ∨ ⟨blk, sz⟩ ∉ s.given
  frame : Frame s.mem s₃.mem (page pd ∪ Set.Ico blk (blk + sz))

section Contained

variable {init : List Block} {kpagedir pd blk sz array n : Nat} {s s₁ s₂ s₃ s' : Store}

theorem passBegins (sound : s.Sound init) (copied : copykvm kpagedir s = .ok (pd, s₁))
    (sound₂ : s₂.Sound init) (own : sz = 0 ∨ ⟨blk, sz⟩ ∈ s₂.given ∧ ⟨blk, sz⟩ ∉ s₁.given)
    (older : ∀ b ∈ s₁.given, b ∈ s₂.given)
    (frame₂ : Frame s₁.mem s₂.mem (Set.Ico blk (blk + sz)))
    (allocated : s₂.kmalloc n = .ok (array, s₃)) : PassBegins init pd blk sz s s₃ := by
  obtain ⟨sound₁, dir₁, empty₁, _, given₁, frame₁⟩ := copykvm_spec sound copied
  obtain ⟨mem₃, free₃, given₃⟩ := Store.kmalloc_heap allocated
  have apart : ∀ x ∈ page pd, x ∉ Set.Ico blk (blk + sz) := by
    intro x inPage inside
    simp only [page, Set.mem_Ico] at inPage inside
    rcases own with none | ⟨mem, fresh⟩
    · omega
    · have ne : (⟨pd, 0x1000⟩ : Block) ≠ ⟨blk, sz⟩ := fun same => fresh (same ▸ dir₁.own)
      have apart := sound₂.apart_of_ne (older _ dir₁.own) mem ne
      simp only [Block.Apart] at apart
      omega
  have frame₃ : Frame s₁.mem s₃.mem (Set.Ico blk (blk + sz)) := by
    rw [mem₃]
    exact frame₂
  obtain ⟨dir₃, same⟩ := dir₁.of_frame (fun b mem => given₃ ▸ older b mem) frame₃ apart
  have empty : ∀ i < 512, ¬ present s₃.mem pd i := by
    intro i lt here
    rw [present, same i (by omega)] at here
    exact empty₁ i lt here
  have split : s₁.given = [⟨pd, 0x1000⟩] ++ s.given := given₁
  have newDir : (⟨pd, 0x1000⟩ : Block) ∉ s.given :=
    sound₁.not_mem_of_new split (List.mem_singleton.mpr rfl)
  refine ⟨⟨sound₂.write free₃ given₃, dir₃, own.imp_right fun both => given₃ ▸ both.1, fun x mem => ?_⟩,
    empty, fun b mem => ?_, newDir, own.imp_right fun both old => ?_, ?_⟩
  · rcases mem with inPage | ⟨i, lt, here, _⟩
    · exact apart x inPage
    · exact absurd here (empty i lt)
  · rw [given₃]
    exact older b (given₁ ▸ List.mem_cons_of_mem _ mem)
  · exact both.2 (given₁ ▸ List.mem_cons_of_mem _ old)
  · exact (frame₁.mono Set.subset_union_left).trans (frame₃.mono Set.subset_union_right)

/-- What the second pass writes is new, as is what was written before it. -/
theorem PassBegins.contained (h : PassBegins init pd blk sz s s₃)
    (filled : Filling init pd (Set.Ico blk (blk + sz)) s₃ s') :
    Frame s.mem s'.mem (tableBytes s'.mem pd ∪ Set.Ico blk (blk + sz)) ∧
      tableBytes s'.mem pd ∪ Set.Ico blk (blk + sz) ⊆ s.newBytes s' := by
  have inTables : page pd ⊆ tableBytes s'.mem pd := fun x mem => Or.inl mem
  refine ⟨(h.frame.mono (Set.union_subset_union_left _ inTables)).trans filled.frame, ?_⟩
  rintro x (inTable | inBlock)
  · rcases filled.tables_new inTable with old | new
    · rcases old with inPage | ⟨i, lt, here, _⟩
      · exact ⟨_, filled.mem_given h.loadable.dir.own, h.directory, inPage⟩
      · exact absurd here (h.empty i lt)
    · exact Store.newBytes_mono h.older (fun _ mem => mem) new
  · rcases h.loadable.own with none | own
    · simp only [Set.mem_Ico] at inBlock
      omega
    · have positive := (h.loadable.sound.paged own).2.2.1
      exact ⟨_, filled.mem_given own, h.block.resolve_left (by simp only at positive; omega), inBlock⟩

end Contained

/-- The second pass keeps to what was obtained exactly when the copies fit and there are
pages for the tables. -/
theorem loadSegments_safe_iff {init : List Block} {bin pd blk : Nat} {m : Mem} {s s₃ : Store}
    {segs : List Proghdr} (begins : PassBegins init pd blk (blockSize segs) s s₃)
    (block : blockAt s (blockSize segs) = blk) (below : blk < 0x100000000)
    (types : ∀ ph ∈ segs, ph.type = 1) (user : UserPages segs) :
    LoadSafe s segs (loadSegments m bin pd segs blk s₃) ↔
      CopiesFit (blockSize segs) segs 0 ∧
        (takePages (segmentSlots segs ∪ {511}).card s₃.free).isSome = true := by
  have bound : blk + blockSize segs ≤ 0x100000000 := by
    rcases begins.loadable.own with none | mem
    · omega
    · have paged := begins.loadable.sound.paged mem
      simp only at paged
      omega
  have start : u32 (blk + 0) = blk := u32_of_lt below
  have copiesIff := copyRanges_inside bound segs 0 rfl (by decide)
  rw [start] at copiesIff
  have provides : CopiesFit (blockSize segs) segs 0 →
      Provides Prod.snd pd (segmentSlots segs ∪ {511}) s₃ (loadSegments m bin pd segs blk s₃) :=
    fun fits => loadSegments_provides begins.loadable start fits user types
  have none : filledSlots s₃.mem pd = ∅ := by
    ext i
    rw [mem_filledSlots]
    exact iff_of_false (fun here => begins.empty i here.1 here.2) (Finset.notMem_empty i)
  simp only [Provides, none, Finset.sdiff_empty] at provides
  constructor
  · -- a run that is safe has gone through, and its copies were inside
    intro safe
    cases done : loadSegments m bin pd segs blk s₃ with
    | error e =>
        have fault : e = .fault := (loadSegments_faults m bin pd segs blk s₃).of_error done
        rw [done, fault] at safe
        exact absurd safe id
    | ok result =>
        obtain ⟨r, s'⟩ := result
        obtain ⟨entry, base, regions, rfl, _⟩ := loadSegments_result types done
        rw [done] at safe
        have contained : LoadContained s s' segs (v2p pd) (blockSize segs) regions := safe
        have copies := contained.copies
        rw [block] at copies
        have fits := copiesIff.mp copies
        have pages := provides fits
        refine ⟨fits, ?_⟩
        cases taken : takePages (segmentSlots segs ∪ {511}).card s₃.free with
        | none =>
            rw [taken, done] at pages
            cases pages
        | some F => rfl
  · rintro ⟨fits, enough⟩
    have pages := provides fits
    obtain ⟨F, taken⟩ := Option.isSome_iff_exists.mp enough
    rw [taken] at pages
    obtain ⟨⟨r, s'⟩, done, _, _⟩ := pages
    obtain ⟨entry, base, regions, rfl, count⟩ := loadSegments_result types done
    have filled := loadSegments_filling begins.loadable start fits user types done
    obtain ⟨frame, fresh⟩ := begins.contained filled
    have paged := begins.loadable.sound.paged begins.loadable.dir.own
    simp only at paged
    have pdHigh : p2v (v2p pd) = pd := p2v_v2p (by omega) (by omega)
    rw [done]
    refine ⟨?_, ?_, ?_, by omega⟩
    · rw [block, pdHigh]
      exact frame
    · rw [block, pdHigh]
      exact fresh
    · rw [block]
      exact copiesIff.mpr fits

/-- Behind the first pass `loadelf` keeps to what it obtained exactly when there is a block
and everything fits, or when `kmalloc` refuses the array. -/
theorem loadBlock_safe_iff {init : List Block} {kpagedir bin pd : Nat} {m : Mem} {s s₁ : Store}
    {segs : List Proghdr} (sound : s.Sound init) (copied : copykvm kpagedir s = .ok (pd, s₁))
    (free₁ : s₁.free = (s.allocPages 0x1000).2.free) (types : ∀ ph ∈ segs, ph.type = 1)
    (user : 0x1000 ≤ kmallocSize (16 * (segs.length + 1)) ∨ UserPages segs) :
    LoadSafe s segs (loadBlock m bin pd segs s₁) ↔
      (blockSize segs = 0 ∨ blockAt s (blockSize segs) ≠ 0) ∧
        (0x1000 ≤ kmallocSize (16 * (segs.length + 1)) ∨ SegmentsFit s segs) := by
  obtain ⟨sound₁, _, _, heap₁, _, _⟩ := copykvm_spec sound copied
  obtain ⟨sameBlock, sameFree⟩ := Store.allocPages_same free₁ (blockSize segs)
  have blkEq : blockAt s (blockSize segs) = (s₁.allocPages (blockSize segs)).1 := sameBlock.symm
  rw [blkEq]
  simp only [loadBlock]
  rcases block_stage sound₁ (blockSize_aligned segs) with
    ⟨some, null, fault⟩ | ⟨block, s₂, cleared, sound₂, own, older, heap₂, free₂, frame₂⟩
  · rw [fault]
    exact iff_of_false id (fun room => room.1.elim some (fun found => found null))
  simp only [cleared, ok_bind]
  rcases Store.kmalloc_same (heap₂.trans heap₁) (16 * (segs.length + 1)) with
    ⟨many, panics⟩ | ⟨few, array, t, s₃, asked, allocated⟩
  · rw [panics]
    exact iff_of_true trivial ⟨block, Or.inl many⟩
  simp only [allocated, ok_bind]
  have notMany : ¬ 0x1000 ≤ kmallocSize (16 * (segs.length + 1)) := by omega
  by_cases low : array < 0x1000
  · have fault : touch array 16 = .error .fault := if_pos ⟨by decide, low⟩
    rw [fault]
    refine iff_of_false id fun room => ?_
    obtain ⟨a, t', asked', high⟩ := (room.2.resolve_left notMany).array
    rw [asked] at asked'
    cases asked'
    omega
  have touched : touch array 16 = .ok () := if_neg (fun both => low both.2)
  have begins := passBegins sound copied sound₂ own older frame₂ allocated
  have freeEq : s₃.free = ((s.allocPages 0x1000).2.allocPages (blockSize segs)).2.free := by
    rw [(Store.kmalloc_heap allocated).2.1, free₂, sameFree]
  simp only [touched, ok_bind]
  rw [loadSegments_safe_iff begins blkEq (sound₁.alloc_lt _) types (user.resolve_left notMany), freeEq]
  constructor
  · intro both
    exact ⟨block, Or.inr ⟨⟨array, t, asked, by omega⟩, both.1, both.2⟩⟩
  · rintro ⟨_, many | found⟩
    · exact absurd many notMany
    · exact ⟨found.copies, found.tables⟩

/-- For a file that maps no page at or above `KERNEL_OFFSET`, `loadelf` keeps to what it obtains
exactly when the state has room for it. -/
theorem loadImage_safe_iff {init : List Block} {kpagedir bin : Nat} {m : Mem} {s : Store}
    (sound : s.Sound init) (user : MapsUser (proghdrs m bin)) :
    LoadSafe s (segments (proghdrs m bin)) (loadImage kpagedir m bin s) ↔
      LoadRoom s (proghdrs m bin) := by
  rcases copykvm_stage sound with ⟨null, fault⟩ | ⟨page, s₁, copied, free₁⟩
  · have stop : loadImage kpagedir m bin s = .error .fault := by
      rw [loadImage, loadImageWith, fault]
      rfl
    rw [stop]
    exact iff_of_false id (fun room => room.1 null)
  cases scanned : scanHdrs (proghdrs m bin) 0 0xFFFFFFFF 0 with
  | none =>
      have refused : loadImage kpagedir m bin s = .ok (.refused, s₁) := by
        rw [loadImage, loadImageWith, copied, ok_bind]
        simp only [scanned]
        rfl
      rw [refused]
      exact iff_of_true trivial ⟨page, Or.inl (scanHdrs_none _ _ _ _ scanned)⟩
  | some found =>
      obtain ⟨n, lo, hi⟩ := found
      have clean := (scanHdrs_some _ _ _ _ scanned).2
      have static : ¬ ∃ ph ∈ proghdrs m bin, ph.type = 2 ∨ ph.type = 3 := by
        rintro ⟨ph, mem, dynamic⟩
        have := clean ph mem
        omega
      rw [loadImage_eq copied scanned, loadBlock_safe_iff sound copied free₁ (segments_load _)
        (user.resolve_left static), LoadRoom]
      constructor
      · exact fun room => ⟨page, Or.inr room⟩
      · exact fun room => room.2.resolve_left static

/-- In every state of every run and for every path, `loadelf` refuses a file that is not an
executable without a write, and keeps to what it obtains for an executable exactly when there is
room for it, as long as it maps no page at or above `KERNEL_OFFSET`. -/
theorem loadelf_writes_inside {init : List Block} {env : Env} {k₀ k₁ k₂ k : Kernel} {entry : Nat}
    (atBoot : AtBoot init k₀) (booted : initsys env k₀ = .ok k₁) (sched : initSched k₁ entry = .ok k₂)
    (run : Runs (Kernel.step env) Kernel.Allowed k₂ k) (path : List UInt8) :
    (env.initrd.elf path = none →
        loadFile env.kpagedir env.initrd path k.store = .ok (.refused, k.store)) ∧
      ∀ bin, env.initrd.elf path = some bin → MapsUser (proghdrs env.initrd.bytes bin) →
        (LoadSafe k.store (env.initrd.segments bin)
            (loadFile env.kpagedir env.initrd path k.store) ↔
          LoadRoom k.store (proghdrs env.initrd.bytes bin)) := by
  obtain ⟨root, scheduled⟩ := (initSched_scheduled atBoot booted).of_ok sched
  obtain ⟨Q, later, _⟩ := scheduled.run run
  refine ⟨fun none => ?_, fun bin file user => ?_⟩
  · rw [loadFile_eq, none]
  · rw [loadFile_eq, file]
    exact loadImage_safe_iff later.sound user

theorem loadelf_writes_inside_first : ∃ k₂, smallBoot alignedSegment = .ok k₂ ∧
    LoadSafe k₂.store [alignedSegment] (loadFile 0x80101000 (smallEnv alignedSegment).initrd
      (pathBytes "/sbin/init") k₂.store) := by
  have headers : proghdrs (smallEnv alignedSegment).initrd.bytes 0x80300000 = [alignedSegment] := by
    decide +kernel
  have segs : segments [alignedSegment] = [alignedSegment] := by decide
  have size : blockSize [alignedSegment] = 0x3000 := by decide
  have slots : (segmentSlots [alignedSegment] ∪ {511}).card = 2 := by decide
  have all : (smallBoot alignedSegment >>= fun k₂ => k₂.store.kmalloc 32 >>= fun r =>
      (.ok (decide ((k₂.store.allocPages 0x1000).1 ≠ 0 ∧ blockAt k₂.store 0x3000 ≠ 0 ∧ 0x1000 ≤ r.1 ∧
        (takePages 2 ((k₂.store.allocPages 0x1000).2.allocPages 0x3000).2.free).isSome = true)) :
        Except Halt _)) = .ok true := ok_of_toOption (by decide +kernel)
  obtain ⟨k₂, boot, all⟩ := bind_eq_ok.mp all
  obtain ⟨⟨array, t⟩, asked, values⟩ := bind_eq_ok.mp all
  obtain ⟨page, block, high, tables⟩ := of_decide_eq_true (Except.ok.inj values)
  obtain ⟨k₁, booted, scheduled⟩ := bind_eq_ok.mp boot
  have user : UserPages [alignedSegment] := (segsOk_singleton (by decide) (by decide)).userPages
  have room : LoadRoom k₂.store [alignedSegment] := by
    refine ⟨page, Or.inr ?_⟩
    rw [segs, size]
    refine ⟨Or.inr block, Or.inr ⟨⟨array, t, asked, high⟩, ?_, ?_⟩⟩
    · rw [size]
      exact ⟨by decide, trivial⟩
    · rw [slots, size]
      exact tables
  have inside := (loadelf_writes_inside smallKernel_atBoot booted scheduled .refl
    (pathBytes "/sbin/init")).2 0x80300000 (by decide +kernel)
  rw [Initrd.segments, headers, segs] at inside
  exact ⟨k₂, boot, (inside (Or.inr (Or.inr user))).mpr room⟩

def LoadResult.image : LoadResult → Except Halt (Nat × Nat)
  | .loaded cr3 _ _ sz _ => .ok (cr3, sz)
  | _ => .error .fault

theorem LoadResult.eq_loaded {r : LoadResult} {cr3 sz : Nat} (h : r.image = .ok (cr3, sz)) :
    ∃ entry base regions, r = .loaded cr3 entry base sz regions := by
  cases r with
  | refused => cases h
  | abandoned base sz regions => cases h
  | loaded cr3 entry base sz regions =>
      cases h
      exact ⟨entry, base, regions, rfl⟩

def longSegment : Proghdr := ⟨1, 84, 0x400000, 0x4000, 0x1000⟩

/-- The ramdisk of the small machine and a second program, `/long`. -/
def longEnv : Env :=
  { smallEnv alignedSegment with
    initrd := {
      bytes := fun x => if x < 0x80380000 then (smallEnv alignedSegment).initrd.bytes x
        else oneSegment 0x80380000 longSegment x
      names := (smallEnv alignedSegment).initrd.names ++ [pathBytes "/long"]
      inode := fun i => if i = 5 then ⟨0, 0x80380000⟩ else (smallEnv alignedSegment).initrd.inode i } }

/-- The block has two pages, and `loadelf` copies four pages to it. -/
theorem long_segment_overflows : ∃ k₁ k₂ cr3 entry base regions s,
    initsys longEnv smallKernel = .ok k₁ ∧ initSched k₁ 0 = .ok k₂ ∧
    longEnv.initrd.segments 0x80380000 = [longSegment] ∧
    loadFile 0x80101000 longEnv.initrd (pathBytes "/long") k₂.store =
      .ok (.loaded cr3 entry base 0x2000 regions, s) ∧
    copyRanges [longSegment] (blockAt k₂.store 0x2000) = [(blockAt k₂.store 0x2000, 0x4000)] ∧
    ¬ LoadSafe k₂.store [longSegment]
      (loadFile 0x80101000 longEnv.initrd (pathBytes "/long") k₂.store) := by
  have all : (initsys longEnv smallKernel >>= fun k₁ => initSched k₁ 0 >>= fun k₂ =>
      loadFile 0x80101000 longEnv.initrd (pathBytes "/long") k₂.store >>= fun r =>
      r.1.image >>= fun image =>
      (.ok (decide (image.2 = 0x2000 ∧ copyRanges [longSegment] (blockAt k₂.store 0x2000) =
        [(blockAt k₂.store 0x2000, 0x4000)])) : Except Halt Bool)) = .ok true :=
    ok_of_toOption (by decide +kernel)
  obtain ⟨k₁, boot, all⟩ := bind_eq_ok.mp all
  obtain ⟨k₂, sched, all⟩ := bind_eq_ok.mp all
  obtain ⟨⟨result, s⟩, done, all⟩ := bind_eq_ok.mp all
  obtain ⟨⟨cr3, sz⟩, image, values⟩ := bind_eq_ok.mp all
  obtain ⟨size, copies⟩ := of_decide_eq_true (Except.ok.inj values)
  obtain ⟨entry, base, regions, loaded⟩ := LoadResult.eq_loaded image
  simp only at size loaded
  subst size loaded
  refine ⟨k₁, k₂, cr3, entry, base, regions, s, boot, sched, by decide +kernel, done, copies,
    fun safe => ?_⟩
  rw [done] at safe
  have inside := safe.copies _ (copies ▸ List.mem_cons_self)
  simp only at inside
  omega

end Trunix
