import Trunix.Kernel.Exec

/-!
# The pages of a program

`loadelf` and `sys_fork` each take a directory and one block for the program, and then
fill the block and map it into the directory.  Everything that is written on the way lies
in blocks that were not handed out before.
-/

set_option autoImplicit false

namespace Trunix

open Trunix.Lib

/-! ## New blocks -/

def Store.newBytes (s s' : Store) : Set Nat :=
  {x | ∃ b ∈ s'.given, b ∉ s.given ∧ b.addr ≤ x ∧ x < b.addr + b.sz}

theorem Store.newBytes_mono {s₁ s₂ s₃ s₄ : Store} (before : ∀ b ∈ s₁.given, b ∈ s₂.given)
    (after : ∀ b ∈ s₃.given, b ∈ s₄.given) : s₂.newBytes s₃ ⊆ s₁.newBytes s₄ := by
  rintro x ⟨b, mem, fresh, inside⟩
  exact ⟨b, after b mem, fun old => fresh (before b old), inside⟩

theorem Store.Sound.not_mem_of_new {init : List Block} {s : Store} {new old : List Block} {b : Block}
    (sound : s.Sound init) (given : s.given = new ++ old) (mem : b ∈ new) : b ∉ old := by
  intro inOld
  have apart := sound.apart
  have paged := sound.paged (given ▸ List.mem_append_left old mem)
  rw [given] at apart
  have self := (List.pairwise_append.mp apart).2.2 b mem b inOld
  simp only [Block.Apart] at self
  omega

theorem Filling.tables_new {init : List Block} {pd : Nat} {S : Set Nat} {s s' : Store}
    (h : Filling init pd S s s') :
    tableBytes s'.mem pd ⊆ tableBytes s.mem pd ∪ s.newBytes s' := by
  obtain ⟨new, given, _, filled⟩ := h.given
  rintro x (inPage | ⟨i, lt, here, inTable⟩)
  · exact Or.inl (Or.inl inPage)
  · by_cases before : present s.mem pd i
    · rw [(h.keeps i lt before).2] at inTable
      exact Or.inl (Or.inr ⟨i, lt, before, inTable⟩)
    · have fresh := filled i lt here before
      exact Or.inr ⟨_, given ▸ List.mem_append_left _ fresh, h.sound.not_mem_of_new given fresh, inTable⟩

/-- A directory and a block were taken, and the block was filled and mapped. -/
structure Built (init : List Block) (pd blk sz : Nat) (s s₁ s₂ : Store) : Prop where
  given : ∃ new, s₁.given = new ++ s.given ∧ ∀ b, b ∈ new ↔ b = ⟨blk, sz⟩ ∨ b = ⟨pd, 0x1000⟩
  frame : Frame s.mem s₁.mem (page pd)
  empty : ∀ i < 512, ¬ present s₁.mem pd i
  clear : ∀ x ∈ tableBytes s₁.mem pd, x ∉ Set.Ico blk (blk + sz)
  filling : Filling init pd (Set.Ico blk (blk + sz)) s₁ s₂

section Built

variable {init : List Block} {pd blk sz : Nat} {s s₁ s₂ : Store} (h : Built init pd blk sz s s₁ s₂)

include h

theorem Built.blocks : ∃ new, s₂.given = new ++ s.given ∧
    (∀ b ∈ new, b = ⟨blk, sz⟩ ∨ b = ⟨pd, 0x1000⟩ ∨
      ∃ i < 512, present s₂.mem pd i ∧ b = ⟨table s₂.mem pd i, 0x1000⟩) ∧
    ⟨blk, sz⟩ ∈ new ∧ ⟨pd, 0x1000⟩ ∈ new ∧
    ∀ i < 512, present s₂.mem pd i → ⟨table s₂.mem pd i, 0x1000⟩ ∈ new := by
  obtain ⟨first, given, both⟩ := h.given
  obtain ⟨tables, given', isTable, filled⟩ := h.filling.given
  refine ⟨tables ++ first, by rw [given', given, List.append_assoc], fun b mem => ?_,
    List.mem_append_right _ ((both _).mpr (Or.inl rfl)),
    List.mem_append_right _ ((both _).mpr (Or.inr rfl)), fun i lt here => ?_⟩
  · rcases List.mem_append.mp mem with inTables | inFirst
    · exact Or.inr (Or.inr (isTable b inTables))
    · rcases (both b).mp inFirst with block | dir
      · exact Or.inl block
      · exact Or.inr (Or.inl dir)
  · exact List.mem_append_left _ (filled i lt here (h.empty i lt))

theorem Built.mem_given {b : Block} (mem : b ∈ s.given) : b ∈ s₂.given := by
  obtain ⟨new, given, _⟩ := h.blocks
  rw [given]
  exact List.mem_append_right _ mem

theorem Built.mem_block : (⟨blk, sz⟩ : Block) ∈ s₂.given := by
  obtain ⟨new, given, _, block, _⟩ := h.blocks
  rw [given]
  exact List.mem_append_left _ block

theorem Built.new : tableBytes s₂.mem pd ∪ Set.Ico blk (blk + sz) ⊆ s.newBytes s₂ := by
  obtain ⟨new, given, _, block, dir, tables⟩ := h.blocks
  have fresh : ∀ b ∈ new, ∀ x, b.addr ≤ x ∧ x < b.addr + b.sz → x ∈ s.newBytes s₂ := by
    intro b inNew x inside
    exact ⟨b, given ▸ List.mem_append_left _ inNew, h.filling.sound.not_mem_of_new given inNew, inside⟩
  intro x inside
  rcases inside with (inPage | ⟨i, lt, here, inTable⟩) | inBlock
  · exact fresh _ dir x inPage
  · exact fresh _ (tables i lt here) x inTable
  · exact fresh _ block x inBlock

theorem Built.newBytes : Frame s.mem s₂.mem (s.newBytes s₂) := by
  have first : page pd ⊆ s.newBytes s₂ := fun x inside => h.new (Or.inl (Or.inl inside))
  exact (h.frame.mono first).trans (h.filling.frame.mono h.new)

theorem Built.apart : ∀ x ∈ tableBytes s₂.mem pd, x ∉ Set.Ico blk (blk + sz) := by
  obtain ⟨first, given, both⟩ := h.given
  have own : (⟨blk, sz⟩ : Block) ∈ s₁.given :=
    given ▸ List.mem_append_left _ ((both _).mpr (Or.inl rfl))
  exact h.filling.clear own h.clear

end Built

/-! ## Loading fills the block -/

def copyRanges : List Proghdr → Nat → List (Nat × Nat)
  | [], _ => []
  | ph :: rest, mem =>
      (u32 (mem + ph.va % 0x1000), ph.filesz) :: copyRanges rest (u32 (mem + pgRoundup ph.memsz))

/-- What is copied from the file fits in a block of `sz` bytes, in which the first segment
starts at `off`. -/
def CopiesFit (sz : Nat) : List Proghdr → Nat → Prop
  | [], _ => True
  | ph :: rest, off =>
      (ph.filesz = 0 ∨ off + ph.va % 0x1000 + ph.filesz ≤ sz) ∧
        CopiesFit sz rest (u32 (off + pgRoundup ph.memsz))

def UserPages (segs : List Proghdr) : Prop :=
  ∀ ph ∈ segs, ph.len = 0 ∨ ph.firstPage + ph.len ≤ 0x80000000

theorem u32_aligned {x : Nat} (aligned : x % 0x1000 = 0) : u32 x % 0x1000 = 0 := by
  simp only [u32]
  omega

theorem u32_add_u32 (x y : Nat) : u32 (x + u32 y) = u32 (x + y) := Nat.add_mod_mod x y _

theorem next_place (blk off : Nat) (ph : Proghdr) :
    u32 (u32 (blk + off) + pgRoundup ph.memsz) = u32 (blk + u32 (off + pgRoundup ph.memsz)) := by
  rw [u32_add, u32_add_u32, Nat.add_assoc]

/-- The copies stay inside the block exactly when they fit. -/
theorem copyRanges_inside {blk sz : Nat} (bound : blk + sz ≤ 0x100000000) :
    ∀ (segs : List Proghdr) (off : Nat), off % 0x1000 = 0 → off < 0x100000000 →
    ((∀ c ∈ copyRanges segs (u32 (blk + off)), c.2 = 0 ∨ blk ≤ c.1 ∧ c.1 + c.2 ≤ blk + sz) ↔
      CopiesFit sz segs off) := by
  intro segs
  induction segs with
  | nil => intro off _ _; exact iff_of_true (fun c none => absurd none List.not_mem_nil) trivial
  | cons ph rest ih =>
      intro off aligned small
      have strideMod := pgRoundup_mod ph.memsz
      have later := ih (u32 (off + pgRoundup ph.memsz)) (u32_aligned (by omega)) (u32_lt _)
      rw [copyRanges, List.forall_mem_cons, next_place, later, CopiesFit, u32_add]
      refine and_congr_left fun _ => ?_
      by_cases none : ph.filesz = 0
      · exact iff_of_true (Or.inl none) (Or.inl none)
      · simp only [u32, none, false_or]
        omega

theorem SegsOk.userPages {segs : List Proghdr} (ok : SegsOk segs) : UserPages segs := by
  intro ph mem
  have spans := ok.spans mem
  have limit : mmapLimit = 0x7FFFF000 := rfl
  exact Or.inr (by omega)

theorem SegsOk.copiesFit {sz : Nat} (bound : sz ≤ 0x80000000) : ∀ {segs : List Proghdr} {off : Nat},
    SegsOk segs → off + (segs.map Proghdr.len).sum ≤ sz → CopiesFit sz segs off := by
  intro segs
  induction segs with
  | nil => intro off _ _; trivial
  | cons ph rest ih =>
      intro off ok room
      obtain ⟨_, _, _, _, strideLe, _, fits, _⟩ := ok.spans (List.mem_cons_self : ph ∈ ph :: rest)
      have file := ok.files ph List.mem_cons_self
      rw [List.map_cons, List.sum_cons] at room
      refine ⟨Or.inr (by omega), ?_⟩
      rw [u32_of_lt (by omega)]
      exact ih ok.tail (by omega)

theorem Proghdr.len_aligned (ph : Proghdr) : ph.len % 0x1000 = 0 := pgRoundup_mod _

theorem UserPages.range {segs : List Proghdr} (user : UserPages segs) {ph : Proghdr}
    (mem : ph ∈ segs) : ph.len = 0 ∨ pgRounddown ph.va + pgRoundup ph.len ≤ 0x80000000 := by
  rw [pgRoundup_of_aligned ph.len_aligned]
  exact user ph mem

section Copy

variable {init : List Block} {pd blk sz : Nat} {s : Store}

structure Loadable (init : List Block) (pd blk sz : Nat) (s : Store) : Prop where
  sound : s.Sound init
  dir : PageDir s pd
  own : sz = 0 ∨ ⟨blk, sz⟩ ∈ s.given
  clear : ∀ x ∈ tableBytes s.mem pd, x ∉ Set.Ico blk (blk + sz)

theorem Filling.loadable {s₁ : Store} (h : Loadable init pd blk sz s)
    (filled : Filling init pd (Set.Ico blk (blk + sz)) s s₁) : Loadable init pd blk sz s₁ := by
  refine ⟨filled.sound, filled.dir, h.own.imp_right filled.mem_given, ?_⟩
  rcases h.own with none | own
  · intro x _ inside
    simp only [Set.mem_Ico] at inside
    omega
  · exact filled.clear own h.clear

theorem Loadable.copy_frame (h : Loadable init pd blk sz s) {off : Nat} {ph : Proghdr}
    (fits : ph.filesz = 0 ∨ off + ph.va % 0x1000 + ph.filesz ≤ sz) (src : Nat → UInt8) :
    Frame s.mem (blit s.mem (u32 (u32 (blk + off) + ph.va % 0x1000)) ph.filesz src)
      (Set.Ico blk (blk + sz)) := by
  refine (blit_frame s.mem _ ph.filesz src).mono fun x inside => ?_
  simp only [Set.mem_Ico] at inside ⊢
  rcases fits with none | fits
  · omega
  · rcases h.own with none | own
    · omega
    · have paged := h.sound.paged own
      simp only at paged
      rw [u32_add, u32_of_lt (by omega)] at inside
      omega

theorem Loadable.copy (h : Loadable init pd blk sz s) {off : Nat} {ph : Proghdr}
    (fits : ph.filesz = 0 ∨ off + ph.va % 0x1000 + ph.filesz ≤ sz) (src : Nat → UInt8) :
    Filling init pd (Set.Ico blk (blk + sz)) s
      { s with mem := blit s.mem (u32 (u32 (blk + off) + ph.va % 0x1000)) ph.filesz src } :=
  Filling.write h.sound h.dir rfl rfl (h.copy_frame fits src) h.clear

end Copy

theorem loadHdrs_filling {init : List Block} {m : Mem} {bin pd blk sz : Nat} :
    ∀ (segs : List Proghdr) (off : Nat) (regions : List VmRegion) (s : Store) {pass : Pass},
    Loadable init pd blk sz s → CopiesFit sz segs off → UserPages segs → (∀ ph ∈ segs, ph.type = 1) →
    loadHdrs m bin pd segs (u32 (blk + off)) regions s = .ok pass →
    Filling init pd (Set.Ico blk (blk + sz)) s pass.store := by
  intro segs
  induction segs with
  | nil =>
      intro off regions s pass loadable _ _ _ done
      cases done
      exact (Mapping.refl loadable.sound loadable.dir).filling
  | cons ph rest ih =>
      intro off regions s pass loadable fits user types done
      simp only [loadHdrs, if_pos (types ph List.mem_cons_self)] at done
      obtain ⟨s₁, moved, afterMove⟩ := bind_eq_ok.mp done
      obtain ⟨s₂, linked, afterLink⟩ := bind_eq_ok.mp afterMove
      obtain ⟨_, _, result⟩ := bind_eq_ok.mp moved
      cases result
      have written := loadable.copy fits.1 (fun i => m (u32 (bin + ph.off) + i))
      have mapping := allocPt_mapping written.sound written.dir
        (user.range List.mem_cons_self) linked
      have filled := written.trans mapping.filling
      rw [next_place] at afterLink
      exact filled.trans (ih _ _ s₂ (filled.loadable loadable) fits.2
        (fun other mem => user other (List.mem_cons_of_mem _ mem))
        (fun other mem => types other (List.mem_cons_of_mem _ mem)) afterLink)

/-- A program whose copies fit its block is built there. -/
theorem loadImage_builds {init : List Block} {kpagedir bin cr3 entry base sz : Nat} {m : Mem}
    {regions : List VmRegion} {s s' : Store} {segs : List Proghdr} (sound : s.Sound init)
    (all : segments (proghdrs m bin) = segs)
    (fits : CopiesFit (imageSize (lowest segs 0xFFFFFFFF) (highest segs 0)) segs 0) (user : UserPages segs)
    (pos : 0 < imageSize (lowest segs 0xFFFFFFFF) (highest segs 0))
    (image : loadImage kpagedir m bin s = .ok (.loaded cr3 entry base sz regions, s')) :
    ∃ blk s₁, sz = imageSize (lowest segs 0xFFFFFFFF) (highest segs 0) ∧
      Built init (p2v cr3) blk sz s s₁ s' ∧
      regions = ⟨0x7FFFF000, v2p (layoutEnd segs blk), 0x1000⟩ :: (layout segs blk).reverse := by
  obtain ⟨pd, s₁, s₂, array, s₃, pass, copied, _, baseEq, sizeEq, cleared, allocated, loaded,
    linked, rfl, _, regionsEq⟩ := loadImage_stages image
  have types := segments_load (proghdrs m bin)
  rw [all] at baseEq sizeEq loaded types
  obtain ⟨_, passMem, passRegions⟩ := loadHdrs_ok _ _ _ _ types loaded
  obtain ⟨sound₁, dir₁, empty₁, _, given₁, frame₁⟩ := copykvm_spec sound copied
  have pagedPd := sound₁.paged dir₁.own
  simp only at pagedPd
  have pdHigh : p2v (v2p pd) = pd := p2v_v2p (by omega) (by omega)
  have size : sz = imageSize (lowest segs 0xFFFFFFFF) (highest segs 0) := by rw [sizeEq, baseEq]
  have whole : sz % 0x1000 = 0 := by
    rw [size, imageSize]
    exact pgRoundup_mod _
  rw [← size] at fits pos
  rw [pdHigh]
  have alloc := sound₁.alloc sz
  generalize s₁.allocPages sz = result at alloc cleared loaded passMem passRegions
  obtain ⟨sameBytes, sameFree, sameGiven⟩ := Store.kmalloc_heap allocated
  cases alloc with
  | none small =>
      have null : sz ≠ 0 ∧ 0 < 0x1000 := ⟨by omega, by decide⟩
      simp only [Store.memset, touch, if_pos null, error_bind] at cleared
      cases cleared
  | zero a free nothing => omega
  | some blk free _ _ sound₂ =>
      rw [pgRoundup_of_aligned whole] at sound₂ cleared
      generalize block : ({ s₁ with free := free, given := ⟨blk, sz⟩ :: s₁.given } : Store) = t at *
      have bytes : t.mem = s₁.mem := by rw [← block]
      have given : t.given = ⟨blk, sz⟩ :: s₁.given := by rw [← block]
      have own : (⟨blk, sz⟩ : Block) ∈ t.given := given ▸ List.mem_cons_self
      have paged := sound₂.paged own
      simp only at paged
      have sameBytes₁ : Frame s₁.mem t.mem ∅ := fun x _ => by rw [bytes]
      have older : ∀ b ∈ s₁.given, b ∈ t.given := fun b old => given ▸ List.mem_cons_of_mem _ old
      obtain ⟨dir₂, _⟩ := dir₁.of_frame older sameBytes₁ fun x _ => Set.notMem_empty x
      have empty₂ : ∀ i < 512, ¬ present t.mem pd i := bytes ▸ empty₁
      have apartPd : blk + sz ≤ pd ∨ pd + 0x1000 ≤ blk := by
        have apart := sound₂.apart
        rw [given] at apart
        exact (List.pairwise_cons.mp apart).1 _ dir₁.own
      have clear : ∀ x ∈ tableBytes t.mem pd, x ∉ Set.Ico blk (blk + sz) := by
        intro x inTables inside
        rcases inTables with inPage | ⟨i, lt, here, _⟩
        · simp only [page, Set.mem_Ico] at inPage inside
          omega
        · exact empty₂ i lt here
      -- the block is cleared, a list node is taken, and the segments are copied
      obtain ⟨_, _, result⟩ := bind_eq_ok.mp cleared
      cases result
      have begun : Filling init pd (Set.Ico blk (blk + sz)) t s₃ := by
        refine Filling.write sound₂ dir₂ sameFree sameGiven ?_ clear
        rw [sameBytes]
        exact fill_frame t.mem blk sz 0
      have start : u32 (blk + 0) = blk := u32_of_lt (by omega)
      rw [← start] at loaded
      have segments := loadHdrs_filling segs 0 [] s₃
        ⟨begun.sound, begun.dir, Or.inr (begun.mem_given own), begun.clear own clear⟩ fits user types loaded
      have filled := begun.trans segments
      have mapping := allocPt_mapping filled.sound filled.dir (Or.inr (by decide)) linked
      have both : t.given = [⟨blk, sz⟩, ⟨pd, 0x1000⟩] ++ s.given := by
        rw [given, given₁]
        rfl
      refine ⟨blk, t, size, ⟨⟨_, both, fun b => by simp⟩, by rw [bytes]; exact frame₁, empty₂, clear,
        filled.trans mapping.filling⟩, ?_⟩
      rw [regionsEq, passMem, passRegions, List.append_nil]

theorem loadImage_built {init : List Block} {env : Env} {bin cr3 entry base sz : Nat}
    {regions : List VmRegion} {s s' : Store} (sound : s.Sound init)
    (ok : SegsOk (env.initrd.segments bin))
    (image : loadImage env.kpagedir env.initrd.bytes bin s =
      .ok (.loaded cr3 entry base sz regions, s')) :
    ∃ blk s₁, Built init (p2v cr3) blk sz s s₁ s' ∧
      regions = ⟨0x7FFFF000, v2p (blk + strides (env.initrd.segments bin)), 0x1000⟩ ::
        (layout (env.initrd.segments bin) blk).reverse := by
  obtain ⟨room, _, bound⟩ := imageSize_room ok
  have strideLe := strides_le ok
  have all : segments (proghdrs env.initrd.bytes bin) = env.initrd.segments bin := rfl
  obtain ⟨blk, s₁, size, built, list⟩ := loadImage_builds sound all (ok.copiesFit bound (by omega))
    ok.userPages (by omega) image
  have paged := built.filling.sound.paged built.mem_block
  simp only at paged
  have stop := layoutEnd_eq blk (env.initrd.segments bin) 0 (by omega)
  simp only [Nat.add_zero, Nat.zero_add] at stop
  exact ⟨blk, s₁, built, stop ▸ list⟩

end Trunix
