import Trunix.Kernel.Elf

/-!
# What a loaded program finds in memory

`loadelf` takes one block for all segments and advances in it by the rounded size of
each segment, but maps a segment over as many pages as it needs from its offset in the
first page on.  This module follows the two through the loop: which byte of the block
comes from which segment, and where the page directory leads.
-/

set_option autoImplicit false

namespace Trunix

open Trunix.Lib

def Proghdr.len (ph : Proghdr) : Nat := pgRoundup (u32 (ph.memsz + ph.va % 0x1000))

def Proghdr.firstPage (ph : Proghdr) : Nat := pgRounddown ph.va

def Proghdr.endPage (ph : Proghdr) : Nat := pgRoundup (ph.va + ph.memsz)

/-- Segments that cover disjoint pages below `MMAP_LIMIT`, do not wrap and have no more
bytes in the file than in memory. -/
structure SegsOk (segs : List Proghdr) : Prop where
  files : ∀ ph ∈ segs, ph.filesz ≤ ph.memsz
  below : ∀ ph ∈ segs, ph.va + ph.memsz ≤ mmapLimit
  apart : segs.Pairwise fun a b => Disjoint (Set.Ico a.firstPage a.endPage)
    (Set.Ico b.firstPage b.endPage)

theorem SegsOk.spans {segs : List Proghdr} (h : SegsOk segs) {ph : Proghdr} (mem : ph ∈ segs) :
    ph.firstPage + ph.len = ph.endPage ∧ ph.endPage ≤ mmapLimit ∧ ph.firstPage % 0x1000 = 0 ∧
      ph.len % 0x1000 = 0 ∧ pgRoundup ph.memsz ≤ ph.len ∧ pgRoundup ph.memsz % 0x1000 = 0 ∧
      ph.va % 0x1000 + ph.memsz ≤ ph.len ∧ ph.firstPage + ph.va % 0x1000 = ph.va := by
  have below := h.below ph mem
  have limit : mmapLimit = 0x7FFFF000 := rfl
  rw [limit] at below ⊢
  have small : u32 (ph.memsz + ph.va % 0x1000) = ph.memsz + ph.va % 0x1000 := u32_of_lt (by omega)
  rw [Proghdr.len, Proghdr.firstPage, Proghdr.endPage, small, pgRounddown_eq, pgRoundup_eq (by omega),
    pgRoundup_eq (by omega), pgRoundup_eq (by omega)]
  omega

theorem SegsOk.tail {ph : Proghdr} {segs : List Proghdr} (h : SegsOk (ph :: segs)) : SegsOk segs :=
  ⟨fun other mem => h.files other (List.mem_cons_of_mem _ mem),
    fun other mem => h.below other (List.mem_cons_of_mem _ mem),
    (List.pairwise_cons.mp h.apart).2⟩

/-! ## The size of the block -/

theorem lowest_le : ∀ (segs : List Proghdr) (lo : Nat),
    lowest segs lo ≤ lo ∧ ∀ ph ∈ segs, lowest segs lo ≤ pgRounddown ph.va := by
  intro segs
  induction segs with
  | nil => intro lo; exact ⟨Nat.le_refl _, fun ph mem => absurd mem List.not_mem_nil⟩
  | cons ph rest ih =>
      intro lo
      obtain ⟨below, each⟩ := ih (min lo (pgRounddown ph.va))
      have step : lowest (ph :: rest) lo = lowest rest (min lo (pgRounddown ph.va)) := rfl
      rw [step]
      refine ⟨by omega, fun other mem => ?_⟩
      rcases List.mem_cons.mp mem with rfl | inRest
      · omega
      · exact each other inRest

theorem le_highest : ∀ (segs : List Proghdr) (hi : Nat),
    hi ≤ highest segs hi ∧ ∀ ph ∈ segs, pgRoundup (u32 (ph.va + ph.memsz)) ≤ highest segs hi := by
  intro segs
  induction segs with
  | nil => intro hi; exact ⟨Nat.le_refl _, fun ph mem => absurd mem List.not_mem_nil⟩
  | cons ph rest ih =>
      intro hi
      obtain ⟨above, each⟩ := ih (max hi (pgRoundup (u32 (ph.va + ph.memsz))))
      have step : highest (ph :: rest) hi =
          highest rest (max hi (pgRoundup (u32 (ph.va + ph.memsz)))) := rfl
      rw [step]
      refine ⟨by omega, fun other mem => ?_⟩
      rcases List.mem_cons.mp mem with rfl | inRest
      · omega
      · exact each other inRest

theorem lowest_aligned : ∀ (segs : List Proghdr) (lo : Nat),
    lowest segs lo = lo ∨ lowest segs lo % 0x1000 = 0 := by
  intro segs
  induction segs with
  | nil => intro lo; exact Or.inl rfl
  | cons ph rest ih =>
      intro lo
      have step : lowest (ph :: rest) lo = lowest rest (min lo (pgRounddown ph.va)) := rfl
      have aligned := pgRounddown_mod ph.va
      rw [step]
      rcases ih (min lo (pgRounddown ph.va)) with same | whole
      · rw [same]
        omega
      · exact Or.inr whole

theorem highest_bound : ∀ (segs : List Proghdr) (hi : Nat), SegsOk segs → hi % 0x1000 = 0 →
    hi ≤ mmapLimit → highest segs hi % 0x1000 = 0 ∧ highest segs hi ≤ mmapLimit := by
  intro segs
  induction segs with
  | nil => intro hi _ aligned bound; exact ⟨aligned, bound⟩
  | cons ph rest ih =>
      intro hi ok aligned bound
      have below := ok.below ph List.mem_cons_self
      have limit : mmapLimit = 0x7FFFF000 := rfl
      rw [limit] at below bound
      have top : pgRoundup (u32 (ph.va + ph.memsz)) ≤ 0x7FFFF000 := by
        rw [u32_of_lt (by omega)]
        exact pgRoundup_le below (by decide) (by decide)
      have aligned' := pgRoundup_mod (u32 (ph.va + ph.memsz))
      exact ih (max hi (pgRoundup (u32 (ph.va + ph.memsz)))) ok.tail (by omega) (by rw [limit]; omega)

/-- The block has room for the mapped pages of all segments and for the stack. -/
theorem imageSize_room {segs : List Proghdr} (h : SegsOk segs) :
    (segs.map Proghdr.len).sum + 0x1000 ≤ imageSize (lowest segs 0xFFFFFFFF) (highest segs 0) ∧
      imageSize (lowest segs 0xFFFFFFFF) (highest segs 0) % 0x1000 = 0 ∧
      imageSize (lowest segs 0xFFFFFFFF) (highest segs 0) ≤ 0x80000000 := by
  cases segs with
  | nil => decide
  | cons ph rest =>
      have spansPh := h.spans (List.mem_cons_self : ph ∈ ph :: rest)
      have limit : mmapLimit = 0x7FFFF000 := rfl
      have low := (lowest_le (ph :: rest) 0xFFFFFFFF).2 ph List.mem_cons_self
      have high := (le_highest (ph :: rest) 0).2 ph List.mem_cons_self
      obtain ⟨alignedHigh, boundHigh⟩ := highest_bound (ph :: rest) 0 h rfl (Nat.zero_le _)
      have below := h.below ph List.mem_cons_self
      rw [limit] at below boundHigh spansPh
      have apart : (ph :: rest).Pairwise (SpansApart Proghdr.firstPage Proghdr.len) := by
        apply h.apart.imp_of_mem
        intro a b memA memB disjoint x lo hi lo'
        have endA := (h.spans memA).1
        have endB := (h.spans memB).1
        by_contra inside
        exact Set.disjoint_left.mp disjoint ⟨lo, by omega⟩ ⟨lo', by omega⟩
      have inside : ∀ a ∈ ph :: rest, lowest (ph :: rest) 0xFFFFFFFF ≤ a.firstPage ∧
          a.firstPage + a.len ≤ highest (ph :: rest) 0 := by
        intro a mem
        have spansA := h.spans mem
        have belowA := h.below a mem
        have highA := (le_highest (ph :: rest) 0).2 a mem
        rw [limit] at belowA
        rw [u32_of_lt (show a.va + a.memsz < 0x100000000 by omega)] at highA
        refine ⟨(lowest_le (ph :: rest) 0xFFFFFFFF).2 a mem, ?_⟩
        rw [spansA.1]
        exact highA
      have room := sum_len_le Proghdr.firstPage Proghdr.len apart inside
      have firstEq : ph.firstPage = pgRounddown ph.va := rfl
      have endEq : ph.endPage = pgRoundup (u32 (ph.va + ph.memsz)) := by
        rw [u32_of_lt (by omega)]
        rfl
      have alignedLow : lowest (ph :: rest) 0xFFFFFFFF % 0x1000 = 0 := by
        rcases lowest_aligned (ph :: rest) 0xFFFFFFFF with same | whole
        · rw [same] at low
          omega
        · exact whole
      generalize lowest (ph :: rest) 0xFFFFFFFF = lo at *
      generalize highest (ph :: rest) 0 = hi at *
      have size : imageSize lo hi = hi - lo + 0x1000 := by
        have span : u32 (hi + 0x100000000 - lo) = hi - lo := by
          simp only [u32]
          omega
        have stack : stackSize = 0x1000 := rfl
        rw [imageSize, span, stack, u32_of_lt (by omega), pgRoundup_of_aligned (by omega)]
      rw [size]
      omega

/-! ## The loop -/

structure Placed where
  ph : Proghdr
  off : Nat

def places : List Proghdr → Nat → List Placed
  | [], _ => []
  | ph :: rest, off => ⟨ph, off⟩ :: places rest (off + pgRoundup ph.memsz)

def strides (segs : List Proghdr) : Nat := (segs.map fun ph => pgRoundup ph.memsz).sum

def Placed.start (p : Placed) : Nat := p.off + p.ph.va % 0x1000

def Placed.holds (p : Placed) (x : Nat) : Prop := p.start ≤ x ∧ x < p.start + p.ph.memsz

def Placed.files (p : Placed) (x : Nat) : Prop := p.start ≤ x ∧ x < p.start + p.ph.filesz

def Placed.wants (m : Mem) (bin : Nat) (p : Placed) (x : Nat) : UInt8 :=
  if x < p.start + p.ph.filesz then m (u32 (bin + p.ph.off) + (x - p.start)) else 0

structure Loading (init : List Block) (m : Mem) (bin pd blk sz : Nat) (done : List Placed)
    (s : Store) : Prop where
  sound : s.Sound init
  dir : PageDir s pd
  own : ⟨blk, sz⟩ ∈ s.given
  clear : ∀ x ∈ tableBytes s.mem pd, ¬ (blk ≤ x ∧ x < blk + sz)
  bytes : ∀ x < sz, (∃ q ∈ done, q.files x ∧ s.mem (blk + x) = q.wants m bin x) ∨
    (∀ q ∈ done, ¬ q.files x) ∧ s.mem (blk + x) = 0
  users : ∀ q ∈ done, q.ph.firstPage + q.ph.len ≤ 0x80000000
  mapped : ∀ q ∈ done, ∀ y, q.ph.firstPage ≤ y → y < q.ph.firstPage + q.ph.len →
    walk s.mem pd y = some (blk - 0x80000000 + q.off + (y - q.ph.firstPage))

theorem Loading.copied {init : List Block} {m : Mem} {bin pd blk sz : Nat} {done : List Placed}
    {s : Store} (h : Loading init m bin pd blk sz done s) (p : Placed)
    (room : p.start + p.ph.filesz ≤ sz) :
    let s' : Store := { s with
      mem := blit s.mem (blk + p.start) p.ph.filesz (fun i => m (u32 (bin + p.ph.off) + i)) }
    s'.Sound init ∧ PageDir s' pd ∧ tableBytes s'.mem pd = tableBytes s.mem pd ∧
      (∀ y < 0x80000000, walk s'.mem pd y = walk s.mem pd y) ∧
      ∀ x < sz, (∃ q ∈ done ++ [p], q.files x ∧ s'.mem (blk + x) = q.wants m bin x) ∨
        (∀ q ∈ done ++ [p], ¬ q.files x) ∧ s'.mem (blk + x) = 0 := by
  intro s'
  have frame : Frame s.mem s'.mem (Set.Ico (blk + p.start) (blk + p.start + p.ph.filesz)) :=
    blit_frame s.mem (blk + p.start) p.ph.filesz (fun i => m (u32 (bin + p.ph.off) + i))
  have avoid : ∀ x ∈ tableBytes s.mem pd,
      x ∉ Set.Ico (blk + p.start) (blk + p.start + p.ph.filesz) := by
    intro x mem inside
    have := h.clear x mem
    simp only [Set.mem_Ico] at inside
    omega
  obtain ⟨dir, same⟩ := h.dir.of_frame (show ∀ b ∈ s.given, b ∈ s'.given from fun _ mem => mem)
    frame (fun x mem => avoid x (Or.inl mem))
  refine ⟨h.sound.write rfl rfl, dir, tableBytes_congr same,
    fun y low => walk_of_frame frame low avoid, ?_⟩
  intro x lt
  by_cases inFile : p.files x
  · refine Or.inl ⟨p, by simp, inFile, ?_⟩
    obtain ⟨lo, hi⟩ := inFile
    have offset : blk + x - (blk + p.start) = x - p.start := by omega
    have copied : s'.mem (blk + x) = m (u32 (bin + p.ph.off) + (x - p.start)) := by
      simp only [s', blit]
      rw [if_pos (by omega), offset]
    rw [copied, Placed.wants, if_pos hi]
  · have kept : s'.mem (blk + x) = s.mem (blk + x) := by
      apply frame
      intro inside
      simp only [Set.mem_Ico] at inside
      exact inFile ⟨by omega, by omega⟩
    rw [kept]
    rcases h.bytes x lt with ⟨q, mem, files, wants⟩ | ⟨none, zero⟩
    · exact Or.inl ⟨q, List.mem_append_left _ mem, files, wants⟩
    · refine Or.inr ⟨fun q mem => ?_, zero⟩
      rcases List.mem_append.mp mem with inDone | last
      · exact none q inDone
      · rw [List.mem_singleton.mp last]
        exact inFile

theorem Loading.write {init : List Block} {m : Mem} {bin pd blk sz : Nat} {done : List Placed}
    {s s' : Store} (h : Loading init m bin pd blk sz done s) (mem : s'.mem = s.mem)
    (free : s'.free = s.free) (given : s'.given = s.given) :
    Loading init m bin pd blk sz done s' := by
  obtain ⟨dir, _⟩ := h.dir.of_frame (fun b inGiven => given ▸ inGiven)
    (show Frame s.mem s'.mem ∅ from fun x _ => by rw [mem]) (fun x _ => Set.notMem_empty x)
  exact ⟨h.sound.write free given, dir, given ▸ h.own, mem ▸ h.clear, mem ▸ h.bytes, h.users,
    mem ▸ h.mapped⟩

theorem Loading.step {init : List Block} {m : Mem} {bin pd blk sz : Nat} {done : List Placed}
    {s s₁ s₂ : Store} (h : Loading init m bin pd blk sz done s) {p : Placed}
    (room : p.off + p.ph.len ≤ sz) (below : p.off < sz)
    (fits : p.ph.va % 0x1000 + p.ph.filesz ≤ p.ph.len) (aligned : p.off % 0x1000 = 0)
    (user : p.ph.firstPage + p.ph.len ≤ 0x80000000) (whole : p.ph.len % 0x1000 = 0)
    (apart : ∀ q ∈ done, ∀ y, q.ph.firstPage ≤ y → y < q.ph.firstPage + q.ph.len →
      p.ph.firstPage ≤ y → p.ph.firstPage + p.ph.len ≤ y)
    (moved : s.memmove (u32 (blk + p.off + p.ph.va % 0x1000))
      (fun i => m (u32 (bin + p.ph.off) + i)) p.ph.filesz = .ok s₁)
    (linked : allocPt pd p.ph.va (v2p (blk + p.off)) p.ph.len userFlags s₁ = .ok s₂) :
    Loading init m bin pd blk sz (done ++ [p]) s₂ := by
  have paged := h.sound.paged h.own
  simp only at paged
  have start : p.start = p.off + p.ph.va % 0x1000 := rfl
  have roomFile : p.start + p.ph.filesz ≤ sz := by omega
  obtain ⟨sound₁, dir₁, tables₁, walk₁, bytes₁⟩ := h.copied p roomFile
  -- the store after the copy, and the physical address of the segment
  have copied : s₁ = { s with
      mem := blit s.mem (blk + p.start) p.ph.filesz (fun i => m (u32 (bin + p.ph.off) + i)) } := by
    by_cases nothing : p.ph.filesz = 0
    · simp only [Store.memmove, touch, nothing, ne_eq, not_true, false_and, if_false, ok_bind] at moved
      cases moved
      congr 1
      funext x
      simp only [blit]
      rw [if_neg (by omega), if_neg (by omega)]
    · have inside : u32 (blk + p.off + p.ph.va % 0x1000) = blk + p.start := by
        rw [u32_of_lt (by omega), start, Nat.add_assoc]
      have high : ¬ (p.ph.filesz ≠ 0 ∧ blk + p.start < 0x1000) := by omega
      simp only [Store.memmove, touch, inside, if_neg high, ok_bind] at moved
      cases moved
      rfl
  rw [← copied] at sound₁ dir₁ tables₁ walk₁ bytes₁
  have given₁ : s₁.given = s.given := by rw [copied]
  have physical : pgRounddown (v2p (blk + p.off)) = blk - 0x80000000 + p.off := by
    have low : v2p (blk + p.off) = blk - 0x80000000 + p.off := by
      rw [v2p_eq]
      omega
    rw [low, pgRounddown_of_aligned (by omega)]
  have roundLen : pgRoundup p.ph.len = p.ph.len := pgRoundup_of_aligned whole
  have first : pgRounddown p.ph.va = p.ph.firstPage := rfl
  obtain ⟨mapping, walk₂⟩ := allocPt_spec sound₁ dir₁ (v2p_lt _) (by rw [first, roundLen]; omega) linked
  rw [first, roundLen, physical] at walk₂
  have own₁ : (⟨blk, sz⟩ : Block) ∈ s₁.given := given₁ ▸ h.own
  have clear₂ := mapping.clear own₁ (by rw [tables₁]; exact h.clear)
  refine ⟨mapping.sound, mapping.dir, mapping.mem_given own₁, clear₂, fun x lt => ?_, fun q mem => ?_,
    fun q mem y lo hi => ?_⟩
  · have kept : s₂.mem (blk + x) = s₁.mem (blk + x) :=
      mapping.frame _ (fun inside =>
        clear₂ _ inside ⟨Nat.le_add_right _ _, Nat.add_lt_add_left lt _⟩)
    rw [kept]
    exact bytes₁ x lt
  · rcases List.mem_append.mp mem with inDone | last
    · exact h.users q inDone
    · rw [List.mem_singleton.mp last]
      exact user
  · rcases List.mem_append.mp mem with inDone | last
    · have below := h.users q inDone
      have out : ¬ (p.ph.firstPage ≤ y ∧ y < p.ph.firstPage + p.ph.len) := by
        intro inside
        have := apart q inDone y lo hi inside.1
        omega
      rw [walk₂ y (by omega), if_neg out, walk₁ y (by omega)]
      exact h.mapped q inDone y lo hi
    · rw [List.mem_singleton.mp last] at lo hi ⊢
      rw [walk₂ y (by omega), if_pos ⟨lo, hi⟩, u32_of_lt (by omega)]

/-- The second pass over the segments that are left, the next one at `off`. -/
theorem Loading.run {init : List Block} {m : Mem} {bin pd blk sz : Nat} :
    ∀ (segs : List Proghdr) (off : Nat) (done : List Placed) (regions : List VmRegion) (s : Store)
    {pass : Pass}, Loading init m bin pd blk sz done s → SegsOk segs →
    (∀ ph ∈ segs, ph.type = 1) → off % 0x1000 = 0 →
    off + (segs.map Proghdr.len).sum + 0x1000 ≤ sz →
    (∀ q ∈ done, ∀ ph ∈ segs, ∀ y, q.ph.firstPage ≤ y → y < q.ph.firstPage + q.ph.len →
      ph.firstPage ≤ y → ph.firstPage + ph.len ≤ y) →
    loadHdrs m bin pd segs (blk + off) regions s = .ok pass →
    Loading init m bin pd blk sz (done ++ places segs off) pass.store := by
  intro segs
  induction segs with
  | nil =>
      intro off done regions s pass loading _ _ _ _ _ finished
      cases finished
      rw [places, List.append_nil]
      exact loading
  | cons ph rest ih =>
      intro off done regions s pass loading ok load aligned room apart finished
      obtain ⟨endPage, below, alignedPage, whole, strideLe, strideMod, inside, _⟩ :=
        ok.spans (List.mem_cons_self : ph ∈ ph :: rest)
      have limit : mmapLimit = 0x7FFFF000 := rfl
      have paged := loading.sound.paged loading.own
      simp only at paged
      have file := ok.files ph List.mem_cons_self
      have first := load ph List.mem_cons_self
      rw [List.map_cons, List.sum_cons] at room
      simp only [loadHdrs, if_pos first] at finished
      obtain ⟨s₁, moved, finished⟩ := bind_eq_ok.mp finished
      obtain ⟨s₂, linked, finished⟩ := bind_eq_ok.mp finished
      have advance : u32 (blk + off + pgRoundup ph.memsz) = blk + (off + pgRoundup ph.memsz) := by
        rw [u32_of_lt (by omega), Nat.add_assoc]
      rw [advance] at finished
      have step : Loading init m bin pd blk sz (done ++ [⟨ph, off⟩]) s₂ :=
        loading.step (p := ⟨ph, off⟩) (by simp only; omega) (by simp only; omega)
          (by simp only; omega) aligned (by simp only; omega) whole
          (fun q mem y lo hi lo' => apart q mem ph List.mem_cons_self y lo hi lo') moved linked
      have apart' : ∀ q ∈ done ++ [⟨ph, off⟩], ∀ other ∈ rest, ∀ y, q.ph.firstPage ≤ y →
          y < q.ph.firstPage + q.ph.len → other.firstPage ≤ y →
          other.firstPage + other.len ≤ y := by
        intro q mem other inRest y lo hi lo'
        rcases List.mem_append.mp mem with inDone | last
        · exact apart q inDone other (List.mem_cons_of_mem _ inRest) y lo hi lo'
        · rw [List.mem_singleton.mp last] at lo hi
          have disjoint := (List.pairwise_cons.mp ok.apart).1 other inRest
          have endOther := (ok.spans (List.mem_cons_of_mem ph inRest)).1
          by_contra within
          exact Set.disjoint_left.mp disjoint ⟨lo, endPage ▸ hi⟩ ⟨lo', by omega⟩
      have loaded := ih (off + pgRoundup ph.memsz) (done ++ [⟨ph, off⟩]) _ s₂ step ok.tail
        (fun other mem => load other (List.mem_cons_of_mem _ mem)) (by omega) (by omega) apart' finished
      rw [List.append_assoc] at loaded
      exact loaded

/-- Where the loop stops: behind the strides, as long as the address does not wrap. -/
theorem layoutEnd_eq (blk : Nat) : ∀ (segs : List Proghdr) (off : Nat),
    blk + (off + strides segs) < 0x100000000 →
    layoutEnd segs (blk + off) = blk + (off + strides segs) := by
  intro segs
  induction segs with
  | nil => intro off _; rfl
  | cons ph rest ih =>
      intro off bound
      have sum : strides (ph :: rest) = pgRoundup ph.memsz + strides rest := rfl
      have advance : u32 (blk + off + pgRoundup ph.memsz) = blk + (off + pgRoundup ph.memsz) := by
        rw [u32_of_lt (by omega), Nat.add_assoc]
      have next : layoutEnd (ph :: rest) (blk + off) =
          layoutEnd rest (blk + (off + pgRoundup ph.memsz)) := by
        rw [← advance]
        rfl
      rw [next, ih _ (by omega), sum, Nat.add_assoc off]

/-! ## The whole image -/

theorem Loading.begin {init : List Block} {m : Mem} {bin pd sz : Nat} {s s₁ : Store} {mem : Nat}
    (sound : s.Sound init) (dir : PageDir s pd) (empty : ∀ i < 512, ¬ present s.mem pd i)
    (pos : 0 < sz) (whole : sz % 0x1000 = 0) (bound : sz ≤ 0x80000000)
    (cleared : (s.allocPages sz).2.memset (s.allocPages sz).1 0 sz = .ok s₁)
    (block : mem = (s.allocPages sz).1) :
    Loading init m bin pd mem sz [] s₁ := by
  have size : pgRoundup sz = sz := pgRoundup_of_aligned whole
  generalize call : s.allocPages sz = result at cleared block
  have alloc := call ▸ sound.alloc sz
  cases alloc with
  | none small =>
      have null : sz ≠ 0 ∧ 0 < 0x1000 := ⟨by omega, by decide⟩
      simp only [Store.memset, touch, if_pos null, error_bind] at cleared
      cases cleared
  | zero a free nothing => omega
  | some a free _ fits sound₁ =>
      simp only at block
      subst block
      rw [size] at sound₁ cleared
      have own : (⟨mem, sz⟩ : Block) ∈ (⟨mem, sz⟩ :: s.given : List Block) := List.mem_cons_self
      have paged := sound₁.paged own
      simp only at paged
      have high : ¬ (sz ≠ 0 ∧ mem < 0x1000) := by omega
      simp only [Store.memset, touch, if_neg high, ok_bind] at cleared
      have apartPd : mem + sz ≤ pd ∨ pd + 0x1000 ≤ mem := by
        have := (List.pairwise_cons.mp sound₁.apart).1 _ dir.own
        simp only [Block.Apart] at this
        exact this
      have frame : Frame s.mem s₁.mem (Set.Ico mem (mem + sz)) := by
        cases cleared
        exact fill_frame s.mem mem sz 0
      have given : s₁.given = ⟨mem, sz⟩ :: s.given := by
        cases cleared
        rfl
      have zero : ∀ x < sz, s₁.mem (mem + x) = 0 := by
        intro x lt
        cases cleared
        simp only [fill]
        rw [if_pos (by omega)]
      have sound₂ : s₁.Sound init := by
        cases cleared
        exact sound₁.write rfl rfl
      have older : ∀ b ∈ s.given, b ∈ s₁.given := by
        intro b inGiven
        rw [given]
        exact List.mem_cons_of_mem _ inGiven
      obtain ⟨dir₁, same⟩ := dir.of_frame older frame (by
        intro x inPage inside
        simp only [page, Set.mem_Ico] at inPage inside
        omega)
      refine ⟨sound₂, dir₁, by rw [given]; exact own, fun x inTables => ?_,
        fun x lt => Or.inr ⟨fun q inNil => absurd inNil List.not_mem_nil, zero x lt⟩,
        fun q inNil => absurd inNil List.not_mem_nil, fun q inNil => absurd inNil List.not_mem_nil⟩
      rcases inTables with inPage | ⟨i, lt, here, _⟩
      · simp only [page, Set.mem_Ico] at inPage
        omega
      · rw [present, same i (by omega)] at here
        exact absurd here (empty i lt)

/-- The stack is mapped like a segment without bytes in the file, behind the others. -/
def stackAt (segs : List Proghdr) : Placed := ⟨⟨1, 0, 0x7FFFF000, 0, 0x1000⟩, strides segs⟩

theorem stackAt_spec (segs : List Proghdr) :
    (stackAt segs).ph.len = 0x1000 ∧ (stackAt segs).ph.firstPage = 0x7FFFF000 ∧
      (stackAt segs).off = strides segs ∧ (stackAt segs).ph.va % 0x1000 = 0 ∧
      (stackAt segs).ph.filesz = 0 := by
  have len : (⟨1, 0, 0x7FFFF000, 0, 0x1000⟩ : Proghdr).len = 0x1000 := by decide
  have first : (⟨1, 0, 0x7FFFF000, 0, 0x1000⟩ : Proghdr).firstPage = 0x7FFFF000 := by decide
  have inPage : 0x7FFFF000 % 0x1000 = 0 := by decide
  exact ⟨len, first, rfl, inPage, rfl⟩

structure LoadedAt (init : List Block) (m : Mem) (bin : Nat) (segs : List Proghdr) (pd blk : Nat)
    (regions : List VmRegion) (mmapBase sz : Nat) (s : Store) : Prop where
  loading : Loading init m bin pd blk sz (places segs 0 ++ [stackAt segs]) s
  room : strides segs + 0x1000 ≤ sz
  list : regions = ⟨0x7FFFF000, v2p (blk + strides segs), 0x1000⟩ :: (layout segs blk).reverse
  base : mmapBase = highest segs 0
  size : sz = imageSize (lowest segs 0xFFFFFFFF) mmapBase

theorem strides_aligned : ∀ segs : List Proghdr, strides segs % 0x1000 = 0 := by
  intro segs
  induction segs with
  | nil => rfl
  | cons ph rest ih =>
      have first := pgRoundup_mod ph.memsz
      simp only [strides, List.map_cons, List.sum_cons] at ih ⊢
      omega

theorem mem_places : ∀ (segs : List Proghdr) (off : Nat) {p : Placed}, p ∈ places segs off →
    p.ph ∈ segs := by
  intro segs
  induction segs with
  | nil => intro off p mem; exact absurd mem List.not_mem_nil
  | cons ph rest ih =>
      intro off p mem
      rcases List.mem_cons.mp mem with rfl | inRest
      · exact List.mem_cons_self
      · exact List.mem_cons_of_mem _ (ih _ inRest)

theorem strides_le {segs : List Proghdr} (ok : SegsOk segs) :
    strides segs ≤ (segs.map Proghdr.len).sum := by
  induction segs with
  | nil => exact Nat.le_refl _
  | cons ph rest ih =>
      have first := ok.spans (List.mem_cons_self : ph ∈ ph :: rest)
      have later := ih ok.tail
      simp only [strides, List.map_cons, List.sum_cons] at later ⊢
      omega

theorem Loading.stack {init : List Block} {m : Mem} {bin pd blk sz : Nat} {segs : List Proghdr}
    {s s' : Store} (h : Loading init m bin pd blk sz (places segs 0) s) (ok : SegsOk segs)
    (room : (segs.map Proghdr.len).sum + 0x1000 ≤ sz)
    (linked : allocPt pd 0x7FFFF000 (v2p (blk + strides segs)) 0x1000 userFlags s = .ok s') :
    Loading init m bin pd blk sz (places segs 0 ++ [stackAt segs]) s' := by
  obtain ⟨lenEq, firstEq, offEq, inPage, none⟩ := stackAt_spec segs
  have strideLe := strides_le ok
  have paged := h.sound.paged h.own
  simp only at paged
  have nothing : s.memmove (u32 (blk + (stackAt segs).off + (stackAt segs).ph.va % 0x1000))
      (fun i => m (u32 (bin + (stackAt segs).ph.off) + i)) (stackAt segs).ph.filesz = .ok s := by
    have empty : ∀ dst src, blit s.mem dst 0 src = s.mem := by
      intro dst src
      funext x
      simp only [blit]
      rw [if_neg (by omega)]
    simp only [none, Store.memmove, touch, ne_eq, not_true, false_and, if_false, ok_bind, empty]
    rfl
  have apart : ∀ q ∈ places segs 0, ∀ y, q.ph.firstPage ≤ y → y < q.ph.firstPage + q.ph.len →
      (stackAt segs).ph.firstPage ≤ y →
      (stackAt segs).ph.firstPage + (stackAt segs).ph.len ≤ y := by
    intro q mem y lo hi lo'
    have spans := ok.spans (mem_places segs 0 mem)
    have limit : mmapLimit = 0x7FFFF000 := rfl
    omega
  exact h.step (by omega) (by omega) (by omega) (by rw [offEq]; exact strides_aligned segs) (by omega)
    (by omega) apart nothing (by rw [lenEq, offEq]; exact linked)

theorem loadImage_loaded {init : List Block} {kpagedir : Nat} {m : Mem} {bin cr3 entry base sz : Nat}
    {regions : List VmRegion} {s s' : Store} (sound : s.Sound init)
    (ok : SegsOk (segments (proghdrs m bin)))
    (done : loadImage kpagedir m bin s = .ok (.loaded cr3 entry base sz regions, s')) :
    ∃ blk, LoadedAt init m bin (segments (proghdrs m bin)) (p2v cr3) blk regions base sz s' := by
  obtain ⟨pd, s₁, s₂, array, s₃, pass, copied, clean, baseEq, sizeEq, cleared, allocated, loaded,
    linked, cr3Eq, entryEq, regionsEq⟩ := loadImage_stages done
  obtain ⟨sound₁, dir₁, empty₁, _, _, _⟩ := copykvm_spec sound copied
  obtain ⟨memSame, freeSame, givenSame⟩ := Store.kmalloc_heap allocated
  obtain ⟨room, whole, bound⟩ := imageSize_room ok
  rw [← baseEq, ← sizeEq] at room whole bound
  have pos : 0 < sz := by omega
  have begun : Loading init m bin pd (s₁.allocPages sz).1 sz [] s₂ :=
    Loading.begin sound₁ dir₁ empty₁ pos whole bound cleared rfl
  have begun₃ := begun.write memSame freeSame givenSame
  obtain ⟨_, passMem, passRegions⟩ := loadHdrs_ok _ _ _ _ (segments_load _) loaded
  generalize (s₁.allocPages sz).1 = blk at *
  have loading := Loading.run (segments (proghdrs m bin)) 0 [] [] s₃ begun₃ ok
    (segments_load _) rfl (by rw [Nat.zero_add]; exact room)
    (fun q inNil => absurd inNil List.not_mem_nil) loaded
  have strideLe := strides_le ok
  have stop : layoutEnd (segments (proghdrs m bin)) blk = blk + strides (segments (proghdrs m bin)) := by
    have paged := begun.sound.paged begun.own
    simp only at paged
    have := layoutEnd_eq blk (segments (proghdrs m bin)) 0 (by omega)
    rwa [Nat.zero_add] at this
  rw [List.nil_append] at loading
  rw [passMem, stop] at linked
  have pdHigh : p2v (v2p pd) = pd := by
    have pagedPd := sound₁.paged dir₁.own
    simp only at pagedPd
    exact p2v_v2p (by omega) (by omega)
  refine ⟨blk, ?_⟩
  rw [cr3Eq, pdHigh]
  refine ⟨loading.stack ok room linked, Nat.le_trans (Nat.add_le_add_right strideLe _) room, ?_,
    baseEq, sizeEq⟩
  rw [regionsEq, passMem, stop, passRegions, List.append_nil]

/-! ## When the image is faithful -/

/-- The program finds its segments and an empty stack of its own: the bytes of the file,
zeros up to the size in memory, and zeros in the stack page, which is no page of a
segment. -/
structure Faithful (m : Mem) (bin : Nat) (segs : List Proghdr) (pd : Nat) (mem : Mem) : Prop where
  bytes : ∀ ph ∈ segs, ∀ j < ph.memsz, ∃ pa, walk mem pd (ph.va + j) = some pa ∧
    mem (p2v pa) = if j < ph.filesz then m (u32 (bin + ph.off) + j) else 0
  zeros : ∀ j < stackSize, ∃ pa, walk mem pd (kernelOffset - stackSize + j) = some pa ∧
    mem (p2v pa) = 0
  unshared : ∀ ph ∈ segs, ∀ x, ph.firstPage ≤ x → x < ph.endPage → ∀ j < stackSize, ∀ pa pa',
    walk mem pd x = some pa → walk mem pd (kernelOffset - stackSize + j) = some pa' →
    pa / 0x1000 ≠ pa' / 0x1000

/-- Laid out one behind the other at the strides of the loop, segments that meet in a
byte want the same value there, and the pages of no segment reach into the stack. -/
structure Packs (m : Mem) (bin : Nat) (segs : List Proghdr) : Prop where
  agree : ∀ p ∈ places segs 0, ∀ q ∈ places segs 0, ∀ x, p.holds x → q.holds x →
    p.wants m bin x = q.wants m bin x
  inside : ∀ p ∈ places segs 0, p.off + p.ph.len ≤ strides segs

theorem places_bounds : ∀ (segs : List Proghdr) (off : Nat), SegsOk segs → off % 0x1000 = 0 →
    ∀ p ∈ places segs off, p.off + p.ph.len ≤ off + (segs.map Proghdr.len).sum ∧
      p.off + pgRoundup p.ph.memsz ≤ off + strides segs ∧ p.off % 0x1000 = 0 := by
  intro segs
  induction segs with
  | nil => intro off _ _ p mem; exact absurd mem List.not_mem_nil
  | cons ph rest ih =>
      intro off ok aligned p mem
      obtain ⟨_, _, _, _, strideLe, strideMod, _, _⟩ := ok.spans (List.mem_cons_self : ph ∈ ph :: rest)
      simp only [strides, List.map_cons, List.sum_cons]
      rcases List.mem_cons.mp mem with rfl | inRest
      · simp only
        omega
      · have bounds := ih (off + pgRoundup ph.memsz) ok.tail (by omega) p inRest
        simp only [strides] at bounds
        omega

theorem exists_place : ∀ (segs : List Proghdr) (off : Nat) {ph : Proghdr}, ph ∈ segs →
    ∃ p ∈ places segs off, p.ph = ph := by
  intro segs
  induction segs with
  | nil => intro off ph mem; exact absurd mem List.not_mem_nil
  | cons first rest ih =>
      intro off ph mem
      rcases List.mem_cons.mp mem with rfl | inRest
      · exact ⟨⟨ph, off⟩, List.mem_cons_self, rfl⟩
      · obtain ⟨p, inPlaces, same⟩ := ih (off + pgRoundup first.memsz) inRest
        exact ⟨p, List.mem_cons_of_mem _ inPlaces, same⟩

section Faithful

variable {init : List Block} {m : Mem} {bin pd blk base sz : Nat} {segs : List Proghdr}
  {regions : List VmRegion} {s : Store}
variable (loaded : LoadedAt init m bin segs pd blk regions base sz s) (ok : SegsOk segs)

include loaded ok

theorem LoadedAt.place {p : Placed} (mem : p ∈ places segs 0) :
    p.off + p.ph.len + 0x1000 ≤ sz ∧ p.off + pgRoundup p.ph.memsz ≤ strides segs ∧
      p.off % 0x1000 = 0 ∧ p.start + p.ph.memsz ≤ p.off + p.ph.len := by
  obtain ⟨room, _, _⟩ := imageSize_room ok
  rw [← loaded.base, ← loaded.size] at room
  have bounds := places_bounds segs 0 ok rfl p mem
  have spans := ok.spans (mem_places segs 0 mem)
  have start : p.start = p.off + p.ph.va % 0x1000 := rfl
  omega

theorem LoadedAt.walk_segment {p : Placed} (mem : p ∈ places segs 0) {x : Nat}
    (lo : p.ph.firstPage ≤ x) (hi : x < p.ph.endPage) :
    walk s.mem pd x = some (blk - 0x80000000 + p.off + (x - p.ph.firstPage)) := by
  have spans := ok.spans (mem_places segs 0 mem)
  exact loaded.loading.mapped p (List.mem_append_left _ mem) x lo (by omega)

omit ok in
theorem LoadedAt.walk_stack {j : Nat} (lt : j < 0x1000) :
    walk s.mem pd (0x7FFFF000 + j) = some (blk - 0x80000000 + strides segs + j) := by
  obtain ⟨lenEq, firstEq, offEq, _, _⟩ := stackAt_spec segs
  have mapped := loaded.loading.mapped (stackAt segs) (by simp) (0x7FFFF000 + j) (by omega) (by omega)
  rw [mapped, firstEq, offEq, Nat.add_sub_cancel_left]

omit ok in
theorem LoadedAt.kernel_address {x : Nat} (lt : x < sz) :
    p2v (blk - 0x80000000 + x) = blk + x := by
  have paged := loaded.loading.sound.paged loaded.loading.own
  simp only at paged
  rw [p2v_of_lt (by omega)]
  omega

theorem LoadedAt.byte_of_agree {p : Placed} (mem : p ∈ places segs 0)
    (agree : ∀ q ∈ places segs 0, ∀ x, p.holds x → q.holds x → p.wants m bin x = q.wants m bin x)
    {x : Nat} (holds : p.holds x) : s.mem (blk + x) = p.wants m bin x := by
  have place := loaded.place ok mem
  obtain ⟨lo, hi⟩ := holds
  rcases loaded.loading.bytes x (by omega) with ⟨q, memQ, ⟨loQ, hiQ⟩, byte⟩ | ⟨none, zero⟩
  · rcases List.mem_append.mp memQ with inPlaces | last
    · have file := ok.files q.ph (mem_places segs 0 inPlaces)
      rw [byte, agree q inPlaces x ⟨lo, hi⟩ ⟨loQ, by omega⟩]
    · -- the stack has no bytes in the file
      rw [List.mem_singleton.mp last] at loQ hiQ
      have := (stackAt_spec segs).2.2.2.2
      omega
  · have out : ¬ x < p.start + p.ph.filesz := fun inFile =>
      none p (List.mem_append_left _ mem) ⟨lo, inFile⟩
    rw [zero, Placed.wants, if_neg out]

/-- A file with well-formed segments is loaded faithfully exactly when they pack. -/
theorem LoadedAt.faithful_iff : Faithful m bin segs pd s.mem ↔ Packs m bin segs := by
  have stackEq : stackSize = 0x1000 := rfl
  have stackVa : kernelOffset - stackSize = 0x7FFFF000 := rfl
  have room := loaded.room
  constructor
  · intro faithful
    have found : ∀ p ∈ places segs 0, ∀ x, p.holds x → s.mem (blk + x) = p.wants m bin x := by
      intro p mem x holds
      have place := loaded.place ok mem
      have spans := ok.spans (mem_places segs 0 mem)
      have start : p.start = p.off + p.ph.va % 0x1000 := rfl
      obtain ⟨lo, hi⟩ := holds
      obtain ⟨pa, leads, byte⟩ := faithful.bytes p.ph (mem_places segs 0 mem) (x - p.start) (by omega)
      rw [loaded.walk_segment ok mem (by omega) (by omega)] at leads
      have address : blk - 0x80000000 + p.off + (p.ph.va + (x - p.start) - p.ph.firstPage) =
          blk - 0x80000000 + x := by omega
      rw [address] at leads
      cases leads
      rw [loaded.kernel_address (by omega)] at byte
      rw [byte, Placed.wants]
      by_cases inFile : x < p.start + p.ph.filesz
      · rw [if_pos inFile, if_pos (by omega)]
      · rw [if_neg inFile, if_neg (by omega)]
    refine ⟨fun p memP q memQ x holdsP holdsQ => ?_, fun p mem => ?_⟩
    · rw [← found p memP x holdsP, ← found q memQ x holdsQ]
    · by_contra reaches
      have place := loaded.place ok mem
      have spans := ok.spans (mem_places segs 0 mem)
      have aligned := strides_aligned segs
      -- the page of the segment that is the stack page
      have leads := loaded.walk_segment ok mem
        (x := p.ph.firstPage + (strides segs - p.off)) (by omega) (by omega)
      have stack := loaded.walk_stack (j := 0) (by decide)
      have paged := loaded.loading.sound.paged loaded.loading.own
      simp only at paged
      have samePage : blk - 0x80000000 + p.off +
          (p.ph.firstPage + (strides segs - p.off) - p.ph.firstPage) =
          blk - 0x80000000 + strides segs + 0 := by omega
      rw [samePage] at leads
      exact faithful.unshared p.ph (mem_places segs 0 mem) _ (by omega) (by omega) 0 (by decide) _ _
        leads stack rfl
  · intro packs
    refine ⟨fun ph mem j lt => ?_, fun j lt => ?_, fun ph mem x lo hi j lt pa pa' leads stack => ?_⟩
    · obtain ⟨p, inPlaces, rfl⟩ := exists_place segs 0 mem
      have place := loaded.place ok inPlaces
      have spans := ok.spans mem
      have start : p.start = p.off + p.ph.va % 0x1000 := rfl
      refine ⟨_, loaded.walk_segment ok inPlaces (by omega) (by omega), ?_⟩
      have address : blk - 0x80000000 + p.off + (p.ph.va + j - p.ph.firstPage) =
          blk - 0x80000000 + (p.start + j) := by omega
      rw [address, loaded.kernel_address (by omega),
        loaded.byte_of_agree ok inPlaces (packs.agree p inPlaces) ⟨by omega, by omega⟩, Placed.wants]
      by_cases inFile : j < p.ph.filesz
      · have offset : p.start + j - p.start = j := by omega
        rw [if_pos (by omega), if_pos inFile, offset]
      · rw [if_neg (by omega), if_neg inFile]
    · rw [stackEq] at lt
      refine ⟨_, loaded.walk_stack lt, ?_⟩
      rw [Nat.add_assoc, loaded.kernel_address (by omega)]
      rcases loaded.loading.bytes (strides segs + j) (by omega) with
        ⟨q, memQ, ⟨loQ, hiQ⟩, _⟩ | ⟨_, zero⟩
      · -- no segment reaches the stack page
        exfalso
        rcases List.mem_append.mp memQ with inPlaces | last
        · have place := loaded.place ok inPlaces
          have file := ok.files q.ph (mem_places segs 0 inPlaces)
          have inside := packs.inside q inPlaces
          omega
        · rw [List.mem_singleton.mp last] at loQ hiQ
          have := (stackAt_spec segs).2.2.2.2
          omega
      · exact zero
    · obtain ⟨p, inPlaces, rfl⟩ := exists_place segs 0 mem
      rw [stackEq] at lt
      rw [stackVa, loaded.walk_stack lt] at stack
      rw [loaded.walk_segment ok inPlaces lo hi] at leads
      cases leads
      cases stack
      have spans := ok.spans mem
      have inside := packs.inside p inPlaces
      have aligned := strides_aligned segs
      have paged := loaded.loading.sound.paged loaded.loading.own
      simp only at paged
      omega

end Faithful

end Trunix
