import Trunix.Kernel.Bounds
import Trunix.Kernel.Half
import Trunix.Kernel.Leaks

/-!
# The file is read where it lies

The ramdisk is memory, and `loadelf` reads the program headers there twice: the second pass
looks again at what its own copies may have overwritten.  Here `loadelf` and `sys_execve` read
the file in the memory that they write to.  A file whose headers stay as they are is refused
before anything of the process is touched, or not at all.
-/

set_option autoImplicit false

namespace Trunix

open Trunix.Lib

theorem PassBegins.kept {init : List Block} {pd blk sz : Nat} {s s₃ : Store} {x : Nat}
    (h : PassBegins init pd blk sz s s₃) (outside : Outside init x) : s₃.mem x = s.mem x := by
  have free := h.loadable.sound.outside outside
  apply h.frame
  rintro (inPage | inBlock)
  · exact free _ h.loadable.dir.own inPage
  · rcases h.loadable.own with none | mem
    · simp only [none, Set.mem_Ico] at inBlock
      omega
    · exact free _ mem inBlock

namespace InPlace

/-! ## loadelf in memory -/

/-- The second pass.  `elf->ph_n` and `ph[i]` are read again in every round, and `ph[i].memsz`
once more behind the copy; there are less than 0x10000 headers. -/
def loadHdrs (bin ph pd : Nat) : Nat → Nat → Nat → List VmRegion → Store → Except Halt Pass
  | 0, _, mem, regions, s => .ok ⟨true, mem, regions, s⟩
  | rounds + 1, i, mem, regions, s =>
      if i < load16 s.mem (bin + 44) then
        let a := u32 (ph + 32 * i)
        let h := readProghdr s.mem a
        if h.type = 1 then do
          let r := segmentRegion h mem
          let s ← s.memmove (u32 (mem + h.va % 0x1000)) (fun x => s.mem (u32 (bin + h.off) + x)) h.filesz
          let s ← allocPt pd r.va r.pa r.len userFlags s
          let mem := u32 (mem + pgRoundup (load32 s.mem (a + 20)))
          loadHdrs bin ph pd rounds (i + 1) mem (r :: regions) s
        else if h.type = 2 ∨ h.type = 3 then .ok ⟨false, mem, regions, s⟩
        else loadHdrs bin ph pd rounds (i + 1) mem regions s
      else .ok ⟨true, mem, regions, s⟩

/-- Nothing is written during the first pass, and `ph` is set before it. -/
def loadImage (kpagedir bin : Nat) : Store → Except Halt (LoadResult × Store) :=
  loadImageWith kpagedir (fun s => proghdrs s.mem bin) (fun s => elfEntry s.mem bin)
    (fun first pd mem s => loadHdrs bin (bin + load32 first.mem (bin + 28)) pd 0x10000 0 mem [] s)

def elf (r : Initrd) (m : Mem) (path : List UInt8) : Option Nat :=
  match r.lookup path with
  | none => none
  | some i => if elfMagic m (r.inode i).addr = elfmagic then some (r.inode i).addr else none

def loadFile (kpagedir : Nat) (r : Initrd) (path : List UInt8) (s : Store) :
    Except Halt (LoadResult × Store) :=
  match elf r s.mem path with
  | none => .ok (.refused, s)
  | some bin => loadImage kpagedir bin s

def loadelf (env : Env) (k : Kernel) (p : Proc) (path : List UInt8) :
    Except Halt (Option Proc × Kernel) :=
  loadelfWith (loadFile env.kpagedir env.initrd path) k p

/-- `sys_execve`: it returns -1, or it gives up the processor and returns nothing. -/
def sysExecve (env : Env) (k : Kernel) (path : List UInt8) : Except Halt (Option Int × Kernel) := do
  let (loaded, k) ← loadelf env k k.proc path
  match loaded with
  | none => return (some (-1), k)
  | some p => do
      let k ← yield (k.setProc k.curthread p)
      return (none, k)

/-! ## The headers of a file -/

def headerBytes (m : Mem) (bin : Nat) : Set Nat :=
  Set.Ico bin (bin + 52) ∪ {x | ∃ i < load16 m (bin + 44),
    x ∈ Set.Ico (u32 (bin + load32 m (bin + 28) + 32 * i))
      (u32 (bin + load32 m (bin + 28) + 32 * i) + 32)}

section Headers

variable {m m' : Mem} {bin : Nat} (kept : ∀ x ∈ headerBytes m bin, m' x = m x)

include kept

theorem phn_kept : load16 m' (bin + 44) = load16 m (bin + 44) := by
  apply load16_congr
  intro x lo hi
  exact kept x (Or.inl ⟨by omega, by omega⟩)

theorem phoff_kept : load32 m' (bin + 28) = load32 m (bin + 28) := by
  apply load32_congr
  intro x lo hi
  exact kept x (Or.inl ⟨by omega, by omega⟩)

theorem proghdr_kept {i : Nat} (lt : i < load16 m (bin + 44)) :
    readProghdr m' (u32 (bin + load32 m (bin + 28) + 32 * i)) =
      readProghdr m (u32 (bin + load32 m (bin + 28) + 32 * i)) := by
  have field : ∀ j ≤ 20, load32 m' (u32 (bin + load32 m (bin + 28) + 32 * i) + j) =
      load32 m (u32 (bin + load32 m (bin + 28) + 32 * i) + j) := by
    intro j small
    generalize start : u32 (bin + load32 m (bin + 28) + 32 * i) = a
    apply load32_congr
    intro x lo hi
    exact kept x (Or.inr ⟨i, lt, by omega, by omega⟩)
  unfold readProghdr
  rw [field 4 (by decide), field 8 (by decide), field 16 (by decide), field 20 (by decide)]
  congr 1
  exact field 0 (by decide)

theorem memsz_kept {i : Nat} (lt : i < load16 m (bin + 44)) :
    load32 m' (u32 (bin + load32 m (bin + 28) + 32 * i) + 20) =
      (readProghdr m (u32 (bin + load32 m (bin + 28) + 32 * i))).memsz := by
  rw [← proghdr_kept kept lt]
  rfl

theorem proghdrs_kept : proghdrs m' bin = proghdrs m bin := by
  unfold proghdrs
  rw [phn_kept kept, phoff_kept kept]
  refine List.map_congr_left fun i mem => ?_
  exact proghdr_kept kept (List.mem_range.mp mem)

end Headers

theorem proghdrs_drop {m : Mem} {bin i : Nat} {ph : Proghdr} {rest : List Proghdr}
    (drop : (proghdrs m bin).drop i = ph :: rest) :
    i < load16 m (bin + 44) ∧ ph = readProghdr m (u32 (bin + load32 m (bin + 28) + 32 * i)) ∧
      (proghdrs m bin).drop (i + 1) = rest := by
  have found : (proghdrs m bin)[i]? = some ph := by
    rw [← List.head?_drop, drop]
    rfl
  obtain ⟨lt, same⟩ := List.getElem?_eq_some_iff.mp found
  refine ⟨?_, ?_, ?_⟩
  · unfold proghdrs at lt
    rw [List.length_map, List.length_range] at lt
    exact lt
  · rw [← same]
    simp only [proghdrs, List.getElem_map, List.getElem_range]
  · rw [← List.tail_drop, drop]
    rfl

theorem proghdrs_drop_nil {m : Mem} {bin i : Nat} (drop : (proghdrs m bin).drop i = []) :
    ¬ i < load16 m (bin + 44) := by
  have short := List.drop_eq_nil_iff.mp drop
  unfold proghdrs at short
  rw [List.length_map, List.length_range] at short
  exact Nat.not_lt_of_le short

/-! ## The second pass sees the same headers -/

section Reading

variable {init : List Block} {m : Mem} {bin pd : Nat} {R : Set Nat} {s s' : Store}

structure Reading (init : List Block) (m : Mem) (R : Set Nat) (pd : Nat) (s : Store) : Prop where
  sound : s.Sound init
  dir : PageDir s pd
  kept : ∀ x ∈ R, s.mem x = m x

structure CopiesSpare (pd : Nat) (R : Set Nat) (segs : List Proghdr) (mem : Nat) : Prop where
  directory : CopiesAvoid pd segs mem
  bytes : ∀ c ∈ copyRanges segs mem, ∀ x ∈ R, x ∉ Set.Ico c.1 (c.1 + c.2)

theorem CopiesSpare.tail {ph : Proghdr} {segs : List Proghdr} {mem : Nat}
    (h : CopiesSpare pd R (ph :: segs) mem) : CopiesSpare pd R segs (u32 (mem + pgRoundup ph.memsz)) :=
  ⟨fun c inRest => h.directory c (List.mem_cons_of_mem _ inRest),
    fun c inRest => h.bytes c (List.mem_cons_of_mem _ inRest)⟩

theorem Reading.copied {dst n : Nat} {src : Nat → UInt8} (h : Reading init m R pd s)
    (directory : ∀ x ∈ page pd, x ∉ Set.Ico dst (dst + n))
    (bytes : ∀ x ∈ R, x ∉ Set.Ico dst (dst + n))
    (moved : s.memmove dst src n = .ok s') : Reading init m R pd s' := by
  unfold Store.memmove at moved
  obtain ⟨_, _, result⟩ := bind_eq_ok.mp moved
  cases result
  have frame := blit_frame s.mem dst n src
  have half := HalfKept.copy h.sound h.dir frame directory
  refine ⟨half.sound, half.dir, fun x inR => ?_⟩
  rw [← h.kept x inR]
  exact frame x (bytes x inR)

theorem Reading.linked {va pa len : Nat} (h : Reading init m R pd s)
    (outside : ∀ x ∈ R, Outside init x) (user : len = 0 ∨ pgRounddown va + pgRoundup len ≤ 0x80000000)
    (linked : allocPt pd va pa len userFlags s = .ok s') : Reading init m R pd s' := by
  have mapping := allocPt_mapping h.sound h.dir user linked
  refine ⟨mapping.sound, mapping.dir, fun x inR => ?_⟩
  rw [← h.kept x inR]
  apply mapping.frame
  intro inTables
  obtain ⟨b, mem, inside⟩ := mapping.dir.mem_block inTables
  exact mapping.sound.outside (outside x inR) b mem inside

theorem Reading.round {ph : Proghdr} {segs : List Proghdr} {mem : Nat} {src : Nat → UInt8} {s₁ : Store}
    (h : Reading init m R pd s) (outside : ∀ x ∈ R, Outside init x) (user : UserPages (ph :: segs))
    (spare : CopiesSpare pd R (ph :: segs) mem)
    (moved : s.memmove (u32 (mem + ph.va % 0x1000)) src ph.filesz = .ok s₁)
    (mapped : allocPt pd ph.va (v2p mem) ph.len userFlags s₁ = .ok s') : Reading init m R pd s' := by
  have copied := h.copied (spare.directory _ List.mem_cons_self) (spare.bytes _ List.mem_cons_self) moved
  exact copied.linked outside (user.range List.mem_cons_self) mapped

variable (outside : ∀ x ∈ R, Outside init x) (covers : headerBytes m bin ⊆ R)

include covers

theorem Reading.headers (h : Reading init m R pd s) : ∀ x ∈ headerBytes m bin, s.mem x = m x :=
  fun x inHeaders => h.kept x (covers inHeaders)

include outside

/-- The second pass gives up at no header that the first pass went by. -/
theorem loadHdrs_ok : ∀ (phs : List Proghdr) (rounds i mem : Nat) (regions : List VmRegion) (s : Store)
    {pass : Pass}, (proghdrs m bin).drop i = phs → (∀ ph ∈ phs, ph.type ≠ 2 ∧ ph.type ≠ 3) →
    UserPages (segments phs) → CopiesSpare pd R (segments phs) mem → Reading init m R pd s →
    loadHdrs bin (bin + load32 m (bin + 28)) pd rounds i mem regions s = .ok pass →
    pass.ok = true ∧ Reading init m R pd pass.store := by
  intro phs
  induction phs with
  | nil =>
      intro rounds i mem regions s pass drop _ _ _ reading done
      cases rounds with
      | zero =>
          cases done
          exact ⟨rfl, reading⟩
      | succ rounds =>
          rw [loadHdrs, phn_kept (reading.headers covers), if_neg (proghdrs_drop_nil drop)] at done
          cases done
          exact ⟨rfl, reading⟩
  | cons ph rest ih =>
      intro rounds i mem regions s pass drop clean user spare reading done
      obtain ⟨lt, header, drop'⟩ := proghdrs_drop drop
      have clean' : ∀ other ∈ rest, other.type ≠ 2 ∧ other.type ≠ 3 := fun other inRest =>
        clean other (List.mem_cons_of_mem _ inRest)
      cases rounds with
      | zero =>
          cases done
          exact ⟨rfl, reading⟩
      | succ rounds =>
          have kept := reading.headers covers
          rw [loadHdrs, phn_kept kept, if_pos lt] at done
          simp only [proghdr_kept kept lt, ← header] at done
          by_cases load : ph.type = 1
          · rw [segments_cons load] at user spare
            rw [if_pos load] at done
            obtain ⟨s₁, moved, afterMove⟩ := bind_eq_ok.mp done
            obtain ⟨s₂, mapped, afterMap⟩ := bind_eq_ok.mp afterMove
            have next := reading.round outside user spare moved mapped
            rw [memsz_kept (next.headers covers) lt, ← header] at afterMap
            exact ih rounds (i + 1) _ _ s₂ drop' clean'
              (fun other inRest => user other (List.mem_cons_of_mem _ inRest)) spare.tail next afterMap
          · have dynamic : ¬ (ph.type = 2 ∨ ph.type = 3) := by
              have head := clean ph List.mem_cons_self
              omega
            rw [segments_cons_of_ne load] at user spare
            rw [if_neg load, if_neg dynamic] at done
            exact ih rounds (i + 1) mem regions s drop' clean' user spare reading done

/-- When the bytes that are copied stay as well, it is the second pass over a file that is kept
apart from memory. -/
theorem loadHdrs_eq : ∀ (phs : List Proghdr) (rounds i mem : Nat) (regions : List VmRegion) (s : Store),
    phs.length < rounds → (proghdrs m bin).drop i = phs → UserPages (segments phs) →
    CopiesSpare pd R (segments phs) mem →
    (∀ ph ∈ segments phs, Set.Ico (u32 (bin + ph.off)) (u32 (bin + ph.off) + ph.filesz) ⊆ R) →
    Reading init m R pd s →
    loadHdrs bin (bin + load32 m (bin + 28)) pd rounds i mem regions s =
      Trunix.loadHdrs m bin pd phs mem regions s := by
  intro phs
  induction phs with
  | nil =>
      intro rounds i mem regions s more drop _ _ _ reading
      obtain ⟨rounds, rfl⟩ := Nat.exists_eq_add_of_lt more
      rw [loadHdrs, phn_kept (reading.headers covers), if_neg (proghdrs_drop_nil drop)]
      rfl
  | cons ph rest ih =>
      intro rounds i mem regions s more drop user spare sources reading
      obtain ⟨lt, header, drop'⟩ := proghdrs_drop drop
      cases rounds with
      | zero => exact absurd more (Nat.not_lt_zero _)
      | succ rounds =>
          have kept := reading.headers covers
          have more' : rest.length < rounds := Nat.lt_of_succ_lt_succ more
          rw [loadHdrs, phn_kept kept, if_pos lt, Trunix.loadHdrs]
          simp only [proghdr_kept kept lt, ← header]
          by_cases load : ph.type = 1
          · rw [segments_cons load] at user spare sources
            rw [if_pos load, if_pos load]
            have same : s.memmove (u32 (mem + ph.va % 0x1000)) (fun x => s.mem (u32 (bin + ph.off) + x))
                ph.filesz = s.memmove (u32 (mem + ph.va % 0x1000)) (fun x => m (u32 (bin + ph.off) + x))
                  ph.filesz := by
              apply Store.memmove_congr
              intro x small
              exact reading.kept _ (sources ph List.mem_cons_self ⟨Nat.le_add_right _ _, by omega⟩)
            rw [same]
            refine bind_congr_ok fun s₁ moved => bind_congr_ok fun s₂ mapped => ?_
            have next := reading.round outside user spare moved mapped
            rw [memsz_kept (next.headers covers) lt, ← header]
            exact ih rounds (i + 1) _ _ s₂ more' drop'
              (fun other inRest => user other (List.mem_cons_of_mem _ inRest)) spare.tail
              (fun other inRest => sources other (List.mem_cons_of_mem _ inRest)) next
          · rw [segments_cons_of_ne load] at user spare sources
            rw [if_neg load, if_neg load]
            split
            · rfl
            · exact ih rounds (i + 1) mem regions s more' drop' user spare sources reading

end Reading

/-! ## The whole of loadelf -/

/-- What `loadelf` writes while it loads the segments spares the bytes of `R`: no copy hits one,
nor the new directory, and every page is mapped below `KERNEL_OFFSET`. -/
structure Keeps (R : Set Nat) (s : Store) (segs : List Proghdr) : Prop where
  user : UserPages segs
  copies : CopiesSpare (s.allocPages 0x1000).1 R segs (blockAt s (blockSize segs))

section Load

variable {init : List Block} {env : Env} {R : Set Nat} {m : Mem} {bin : Nat} {s s' : Store}
  {k k' : Kernel} {path : List UInt8}

theorem Keeps.of_fits {segs : List Proghdr} (sound : s.Sound init) (outside : ∀ x ∈ R, Outside init x)
    (directory : (s.allocPages 0x1000).1 ≠ 0)
    (block : blockSize segs = 0 ∨ blockAt s (blockSize segs) ≠ 0)
    (fits : CopiesFit (blockSize segs) segs 0) (user : UserPages segs) : Keeps R s segs := by
  obtain ⟨s₁, pd, found, sound₁, own₁⟩ : ∃ s₁ pd, s.allocPages 0x1000 = (pd, s₁) ∧ s₁.Sound init ∧
      (⟨pd, 0x1000⟩ : Block) ∈ s₁.given := by
    have alloc := sound.alloc 0x1000
    generalize s.allocPages 0x1000 = result at alloc directory
    cases alloc with
    | none small => exact absurd rfl directory
    | zero a free nothing => cases nothing
    | some a free _ _ sound₁ => exact ⟨_, a, rfl, sound₁, List.mem_cons_self⟩
  unfold blockAt at block
  rw [found] at block
  rcases block_stage sound₁ (blockSize_aligned segs) with
    ⟨some, null, _⟩ | ⟨_, s₂, _, sound₂, own, older, _, _, _⟩
  · exact absurd null (block.resolve_left some)
  have start := sound₁.alloc_lt (blockSize segs)
  have place : blockAt s (blockSize segs) = (s₁.allocPages (blockSize segs)).1 := by
    unfold blockAt
    rw [found]
  generalize (s₁.allocPages (blockSize segs)).1 = blk at own start place
  -- the block is apart from the directory, and none of it is outside
  have bound : blk + blockSize segs ≤ 0x100000000 := by
    rcases own with none | both
    · omega
    · have paged := sound₂.paged both.1
      simp only at paged
      omega
  have apart : ∀ x ∈ Set.Ico blk (blk + blockSize segs), x ∉ page pd ∧ ¬ Outside init x := by
    intro x inBlock
    simp only [Set.mem_Ico] at inBlock
    rcases own with none | ⟨mem, new⟩
    · omega
    · have ne : (⟨blk, blockSize segs⟩ : Block) ≠ ⟨pd, 0x1000⟩ := fun same => new (same ▸ own₁)
      have apart := sound₂.apart_of_ne mem (older _ own₁) ne
      refine ⟨fun inPage => ?_, fun free => ?_⟩
      · simp only [Block.Apart] at apart
        simp only [page, Set.mem_Ico] at inPage
        omega
      · have none := sound₂.outside free _ mem
        simp only at none
        exact none inBlock
  have inside := (copyRanges_inside bound segs 0 rfl (by decide)).mpr fits
  rw [Nat.add_zero, u32_of_lt start] at inside
  have inBlock : ∀ c ∈ copyRanges segs blk, ∀ x ∈ Set.Ico c.1 (c.1 + c.2),
      x ∈ Set.Ico blk (blk + blockSize segs) := by
    intro c mem x inCopy
    have range := inside c mem
    simp only [Set.mem_Ico] at inCopy ⊢
    omega
  refine ⟨user, ?_, ?_⟩
  · rw [place, found]
    exact fun c mem x inPage inCopy => (apart x (inBlock c mem x inCopy)).1 inPage
  · rw [place]
    exact fun c mem x inR inCopy => (apart x (inBlock c mem x inCopy)).2 (outside x inR)

theorem Keeps.of_segsOk {segs : List Proghdr} (sound : s.Sound init) (outside : ∀ x ∈ R, Outside init x)
    (directory : (s.allocPages 0x1000).1 ≠ 0) (block : blockAt s (blockSize segs) ≠ 0)
    (ok : SegsOk segs) : Keeps R s segs := by
  obtain ⟨room, _, bound⟩ := imageSize_room ok
  have fits : CopiesFit (blockSize segs) segs 0 := by
    apply SegsOk.copiesFit bound ok
    omega
  exact .of_fits sound outside directory (Or.inr block) fits ok.userPages

theorem copykvm_kept {kpagedir pd x : Nat} (sound : s.Sound init)
    (copied : copykvm kpagedir s = .ok (pd, s')) (outside : Outside init x) : s'.mem x = s.mem x := by
  obtain ⟨sound', dir, _, _, _, frame⟩ := copykvm_spec sound copied
  apply frame
  intro inPage
  exact sound'.outside outside _ dir.own inPage

theorem reading_begins {kpagedir pd array n : Nat} {segs : List Proghdr} {s₁ s₂ s₃ : Store}
    (sound : s.Sound init) (outside : ∀ x ∈ R, Outside init x) (bytes : ∀ x ∈ R, s.mem x = m x)
    (copied : copykvm kpagedir s = .ok (pd, s₁))
    (cleared : (s₁.allocPages (blockSize segs)).2.memset (s₁.allocPages (blockSize segs)).1 0
      (blockSize segs) = .ok s₂)
    (allocated : s₂.kmalloc n = .ok (array, s₃)) :
    Reading init m R pd s₃ ∧ pd = (s.allocPages 0x1000).1 ∧
      (s₁.allocPages (blockSize segs)).1 = blockAt s (blockSize segs) ∧
      (s.allocPages 0x1000).1 ≠ 0 ∧ (blockSize segs = 0 ∨ blockAt s (blockSize segs) ≠ 0) := by
  have sound₁ := (copykvm_spec sound copied).1
  rcases @copykvm_stage init kpagedir s sound with ⟨_, fault⟩ | ⟨directory, t, copied', free₁⟩
  · rw [fault] at copied
    cases copied
  cases Except.ok.inj (copied'.symm.trans copied)
  rcases block_stage sound₁ (blockSize_aligned segs) with
    ⟨_, _, fault⟩ | ⟨block, t, cleared', sound₂, own, older, _, _, frame₂⟩
  · rw [cleared] at fault
    cases fault
  cases Except.ok.inj (cleared'.symm.trans cleared)
  have begins := passBegins sound copied sound₂ own older frame₂ allocated
  have place : (s₁.allocPages (blockSize segs)).1 = blockAt s (blockSize segs) :=
    (Store.allocPages_same free₁ _).1
  refine ⟨⟨begins.loadable.sound, begins.loadable.dir, fun x inR => ?_⟩, rfl, place, directory, ?_⟩
  · exact (begins.kept (outside x inR)).trans (bytes x inR)
  · rwa [place] at block

/-- The first pass refuses the file, or the second copies nothing past the block and maps only
pages below `KERNEL_OFFSET`. -/
def Loads (s : Store) (bin : Nat) : Prop :=
  (∃ ph ∈ proghdrs s.mem bin, ph.type = 2 ∨ ph.type = 3) ∨
    UserPages (segments (proghdrs s.mem bin)) ∧
      CopiesFit (blockSize (segments (proghdrs s.mem bin))) (segments (proghdrs s.mem bin)) 0

theorem loadImage_cases {kpagedir : Nat} {r : LoadResult} (sound : s.Sound init)
    (outside : ∀ x ∈ headerBytes s.mem bin, Outside init x)
    (loads : Loads s bin)
    (done : loadImage kpagedir bin s = .ok (r, s')) :
    (r = .refused ∧ ∃ pd, copykvm kpagedir s = .ok (pd, s')) ∨
      ∃ cr3 entry base sz regions, r = .loaded cr3 entry base sz regions := by
  rw [loadImage, loadImageWith] at done
  obtain ⟨⟨pd, s₁⟩, copied, afterCopy⟩ := bind_eq_ok.mp done
  have kept₁ : ∀ x ∈ headerBytes s.mem bin, s₁.mem x = s.mem x := fun x inHeaders =>
    copykvm_kept sound copied (outside x inHeaders)
  simp only [proghdrs_kept kept₁, phoff_kept kept₁] at afterCopy
  cases scanned : scanHdrs (proghdrs s.mem bin) 0 0xFFFFFFFF 0 with
  | none =>
      simp only [scanned] at afterCopy
      cases afterCopy
      exact Or.inl ⟨rfl, pd, copied⟩
  | some found =>
      obtain ⟨n, lo, hi⟩ := found
      obtain ⟨bounds, clean⟩ := scanHdrs_some _ _ _ _ scanned
      simp only [Prod.mk.injEq, Nat.zero_add] at bounds
      obtain ⟨rfl, rfl, rfl⟩ := bounds
      have static : ¬ ∃ ph ∈ proghdrs s.mem bin, ph.type = 2 ∨ ph.type = 3 := by
        rintro ⟨ph, mem, dynamic⟩
        have neither := clean ph mem
        omega
      obtain ⟨user, fits⟩ := loads.resolve_left static
      simp only [scanned] at afterCopy
      obtain ⟨s₂, cleared, afterClear⟩ := bind_eq_ok.mp afterCopy
      obtain ⟨⟨array, s₃⟩, allocated, afterAlloc⟩ := bind_eq_ok.mp afterClear
      obtain ⟨_, _, afterTouch⟩ := bind_eq_ok.mp afterAlloc
      obtain ⟨pass, loaded, afterLoad⟩ := bind_eq_ok.mp afterTouch
      obtain ⟨reading, directory, place, dir, block⟩ := reading_begins sound outside (fun x _ => rfl)
        copied cleared allocated
      have keeps : Keeps (headerBytes s.mem bin) s (segments (proghdrs s.mem bin)) :=
        .of_fits sound outside dir block fits user
      have spare := keeps.copies
      rw [← directory, ← place] at spare
      generalize 0x10000 = rounds at loaded
      obtain ⟨passOk, _⟩ := loadHdrs_ok outside subset_rfl (proghdrs s.mem bin) rounds 0 _ [] s₃ List.drop_zero
        clean keeps.user spare reading loaded
      rw [passOk, if_pos rfl] at afterLoad
      obtain ⟨s₄, _, result⟩ := bind_eq_ok.mp afterLoad
      cases result
      exact Or.inr ⟨_, _, _, _, _, rfl⟩

/-! ## A file that is kept apart -/

/-- The file `m` lies in the bytes `R` of memory, with all that is copied from it, and loading it
spares them. -/
structure FileKept (R : Set Nat) (m : Mem) (s : Store) (bin : Nat) : Prop where
  bytes : ∀ x ∈ R, s.mem x = m x
  headers : headerBytes m bin ⊆ R
  sources : ∀ ph ∈ segments (proghdrs m bin),
    Set.Ico (u32 (bin + ph.off)) (u32 (bin + ph.off) + ph.filesz) ⊆ R
  keeps : Keeps R s (segments (proghdrs m bin))

/-- A file that stays as it is may as well be kept apart from memory. -/
theorem loadImage_eq {kpagedir : Nat} (sound : s.Sound init) (outside : ∀ x ∈ R, Outside init x)
    (file : FileKept R m s bin) : loadImage kpagedir bin s = Trunix.loadImage kpagedir m bin s := by
  rw [loadImage, Trunix.loadImage, loadImageWith, loadImageWith]
  refine bind_congr_ok fun dir copied => ?_
  obtain ⟨pd, s₁⟩ := dir
  have kept₁ : ∀ x ∈ headerBytes m bin, s₁.mem x = m x := by
    intro x inHeaders
    have inR := file.headers inHeaders
    rw [copykvm_kept sound copied (outside x inR)]
    exact file.bytes x inR
  simp only [proghdrs_kept kept₁, phoff_kept kept₁]
  cases scanned : scanHdrs (proghdrs m bin) 0 0xFFFFFFFF 0 with
  | none => rfl
  | some found =>
      obtain ⟨n, lo, hi⟩ := found
      obtain ⟨bounds, clean⟩ := scanHdrs_some _ _ _ _ scanned
      simp only [Prod.mk.injEq, Nat.zero_add] at bounds
      obtain ⟨rfl, rfl, rfl⟩ := bounds
      refine bind_congr_ok fun s₂ cleared => bind_congr_ok fun array allocated => bind_congr_ok fun _ _ => ?_
      obtain ⟨array, s₃⟩ := array
      obtain ⟨reading, directory, place, _⟩ := reading_begins sound outside file.bytes copied cleared
        allocated
      have spare := file.keeps.copies
      rw [← directory, ← place] at spare
      have more : (proghdrs m bin).length < 0x10000 := by
        unfold proghdrs
        rw [List.length_map, List.length_range]
        exact loadLE_lt m 2 (bin + 44)
      generalize 0x10000 = rounds at more ⊢
      have same := loadHdrs_eq outside file.headers (proghdrs m bin) rounds 0 _ [] s₃ more List.drop_zero
        file.keeps.user spare file.sources reading
      rw [blockSize] at same
      simp only
      rw [same]
      refine bind_congr_ok fun pass loaded => ?_
      rw [← same] at loaded
      obtain ⟨_, after⟩ := loadHdrs_ok outside file.headers (proghdrs m bin) rounds 0 _ [] s₃
        List.drop_zero clean file.keeps.user spare reading loaded
      have entry : elfEntry pass.store.mem bin = elfEntry m bin := by
        apply load32_congr
        intro x lo hi
        exact after.kept x (file.headers (Or.inl ⟨by omega, by omega⟩))
      rw [entry]

theorem loadFile_eq {kpagedir : Nat} {r : Initrd} (sound : s.Sound init)
    (outside : ∀ x ∈ R, Outside init x)
    (file : ∀ i, r.lookup path = some i → FileKept R r.bytes s (r.inode i).addr) :
    loadFile kpagedir r path s = Trunix.loadFile kpagedir r path s := by
  unfold loadFile Trunix.loadFile elf
  cases found : r.lookup path with
  | none => rfl
  | some i =>
      have kept := file i found
      have magic : elfMagic s.mem (r.inode i).addr = elfMagic r.bytes (r.inode i).addr := by
        apply load32_congr
        intro x lo hi
        exact kept.bytes x (kept.headers (Or.inl ⟨by omega, by omega⟩))
      simp only [magic]
      by_cases starts : elfMagic r.bytes (r.inode i).addr = elfmagic
      · rw [if_pos starts, if_neg (not_not.mpr starts)]
        exact loadImage_eq sound outside kept
      · rw [if_neg starts, if_pos starts]

theorem loadelf_eq {p : Proc} (sound : k.store.Sound init) (outside : ∀ x ∈ R, Outside init x)
    (file : ∀ i, env.initrd.lookup path = some i →
      FileKept R env.initrd.bytes k.store (env.initrd.inode i).addr) :
    loadelf env k p path = Trunix.loadelf env k p path := by
  unfold loadelf Trunix.loadelf loadelfWith
  exact congrArg (fun read => read >>= _) (loadFile_eq sound outside file)

theorem sysExecve_eq (sound : k.store.Sound init) (outside : ∀ x ∈ R, Outside init x)
    (file : ∀ i, env.initrd.lookup path = some i →
      FileKept R env.initrd.bytes k.store (env.initrd.inode i).addr) :
    (sysExecve env k path).map Prod.snd = Trunix.sysExecve env k path := by
  unfold sysExecve Trunix.sysExecve
  rw [loadelf_eq sound outside file]
  cases Trunix.loadelf env k k.proc path with
  | error e => rfl
  | ok r =>
      obtain ⟨loaded, k₁⟩ := r
      cases loaded with
      | none => rfl
      | some p =>
          simp only [ok_bind]
          cases yield (k₁.setProc k₁.curthread p) <;> rfl

/-! ## What a refusal leaves -/

/-- A `sys_execve` that returns -1 changes nothing, or it leaves a new directory behind. -/
theorem sysExecve_fails (sound : k.store.Sound init)
    (outside : ∀ bin, elf env.initrd k.store.mem path = some bin →
      ∀ x ∈ headerBytes k.store.mem bin, Outside init x)
    (loads : ∀ bin, elf env.initrd k.store.mem path = some bin → Loads k.store bin)
    (failed : sysExecve env k path = .ok (some (-1), k')) :
    ∃ s, loadFile env.kpagedir env.initrd path k.store = .ok (.refused, s) ∧ k' = { k with store := s } ∧
      (s = k.store ∨ ∃ pd, copykvm env.kpagedir k.store = .ok (pd, s)) := by
  unfold sysExecve at failed
  obtain ⟨⟨loaded, k₁⟩, done, afterLoad⟩ := bind_eq_ok.mp failed
  cases loaded with
  | some p =>
      -- the process is in the run queue, and nothing is returned
      obtain ⟨k₂, _, result⟩ := bind_eq_ok.mp afterLoad
      cases result
  | none =>
      cases afterLoad
      rw [loadelf, loadelfWith] at done
      obtain ⟨⟨result, s⟩, read, after⟩ := bind_eq_ok.mp done
      have cases : (result = .refused ∧ (s = k.store ∨ ∃ pd, copykvm env.kpagedir k.store = .ok (pd, s))) ∨
          ∃ cr3 entry base sz regions, result = .loaded cr3 entry base sz regions := by
        unfold loadFile at read
        cases file : elf env.initrd k.store.mem path with
        | none =>
            rw [file] at read
            cases read
            exact Or.inl ⟨rfl, Or.inl rfl⟩
        | some bin =>
            rw [file] at read
            rcases loadImage_cases sound (outside bin file) (loads bin file) read with ⟨refused, copied⟩ | loaded
            · exact Or.inl ⟨refused, Or.inr copied⟩
            · exact Or.inr loaded
      rcases cases with ⟨rfl, left⟩ | ⟨cr3, entry, base, sz, regions, rfl⟩
      · cases after
        exact ⟨s, read, rfl, left⟩
      · cases after

end Load

/-! ## The caller -/

structure Occupied (init : List Block) (k : Kernel) : Prop where
  dir : PageDir k.store (k.dir k.curthread)
  held : ∀ m ∈ k.regions k.curthread, ∀ x ∈ m.bytes, k.store.Held init x

/-- Every process struct, trap frame and region list, and the page directory and the memory of
the running process are what they were. -/
structure Untouched (k k' : Kernel) : Prop where
  curthread : k'.curthread = k.curthread
  procs : k'.procs = k.procs
  frames : k'.frames = k.frames
  memtab : k'.memtab = k.memtab
  tables : ∀ x ∈ k.tables k.curthread, k'.store.mem x = k.store.mem x
  walks : ∀ x < 0x80000000,
    walk k'.store.mem (k.dir k.curthread) x = walk k.store.mem (k.dir k.curthread) x
  memory : ∀ m ∈ k.regions k.curthread, ∀ x ∈ m.bytes, k'.store.mem x = k.store.mem x

section Caller

variable {init : List Block} {env : Env} {k k' : Kernel} {s : Store} {path : List UInt8}

/-- Processes that share no memory occupy theirs, as in every run in which pages are accounted
for. -/
theorem occupied_of_separate (h : Separate init k) (mem : k.curthread ∈ k.created) : Occupied init k :=
  ⟨h.dirs _ mem, fun m listed => h.held _ mem m listed⟩

theorem Occupied.copykvm (h : Occupied init k) (sound : k.store.Sound init) {kpagedir pd : Nat}
    (copied : Trunix.copykvm kpagedir k.store = .ok (pd, s)) : Untouched k { k with store := s } := by
  obtain ⟨sound₁, dir, _, _, given, frame⟩ := copykvm_spec sound copied
  have split : s.given = [⟨pd, 0x1000⟩] ++ k.store.given := given
  have older : ∀ b ∈ k.store.given, b ∈ s.given := by
    intro b mem
    rw [given]
    exact List.mem_cons_of_mem _ mem
  have fresh : ∀ x, k.store.Held init x → x ∉ page pd := by
    intro x held inPage
    have new : (⟨pd, 0x1000⟩ : Block) ∉ k.store.given :=
      sound₁.not_mem_of_new split (List.mem_singleton.mpr rfl)
    exact sound₁.newBytes_not_held older ⟨_, dir.own, new, inPage⟩ held
  have tables : ∀ x ∈ k.tables k.curthread, x ∉ page pd := fun x inTables =>
    fresh x (Or.inl (h.dir.mem_block inTables))
  refine ⟨rfl, rfl, rfl, rfl, fun x inTables => ?_, fun x low => ?_, fun m listed x inMemory => ?_⟩
  · exact frame x (tables x inTables)
  · exact walk_of_frame frame low tables
  · exact frame x (fresh x (h.held m listed x inMemory))

/-- When `sys_execve` returns -1, the file was refused by the first pass or before, and the caller
is untouched: for every state whose running process occupies its memory, and every path to a
file whose headers are no memory of the allocator and which is not loaded past its block. -/
theorem execve_untouched (sound : k.store.Sound init) (occupied : Occupied init k)
    (outside : ∀ bin, elf env.initrd k.store.mem path = some bin →
      ∀ x ∈ headerBytes k.store.mem bin, Outside init x)
    (loads : ∀ bin, elf env.initrd k.store.mem path = some bin → Loads k.store bin)
    (failed : sysExecve env k path = .ok (some (-1), k')) :
    (∃ s, loadFile env.kpagedir env.initrd path k.store = .ok (.refused, s)) ∧ Untouched k k' := by
  obtain ⟨s, refused, rfl, left⟩ := sysExecve_fails sound outside loads failed
  refine ⟨⟨s, refused⟩, ?_⟩
  rcases left with rfl | ⟨pd, copied⟩
  · exact ⟨rfl, rfl, rfl, rfl, fun x _ => rfl, fun x _ => rfl, fun m _ x _ => rfl⟩
  · exact occupied.copykvm sound copied

end Caller

/-! ## A small machine with its ramdisk in memory -/

def writeProghdr (m : Mem) (a : Nat) (ph : Proghdr) : Mem :=
  let m := store32 m a ph.type
  let m := store32 m (a + 4) ph.off
  let m := store32 m (a + 8) ph.va
  let m := store32 m (a + 16) ph.filesz
  store32 m (a + 20) ph.memsz

def writeElf (m : Mem) (bin : Nat) (phs : List Proghdr) : Mem :=
  let m := store32 m bin elfmagic
  let m := store32 m (bin + 24) 0x400000
  let m := store32 m (bin + 28) 52
  let m := store16 m (bin + 44) phs.length
  phs.zipIdx.foldl (fun m h => writeProghdr m (bin + 52 + 32 * h.2) h.1) m

theorem headerBytes_behind {m : Mem} {bin n : Nat} (count : load16 m (bin + 44) = n)
    (first : load32 m (bin + 28) = 52) (bound : bin + 52 + 32 * n ≤ 0x100000000) :
    headerBytes m bin ⊆ Set.Ico bin (bin + 52 + 32 * n) := by
  rintro x (inElf | ⟨i, lt, inHeader⟩)
  · simp only [Set.mem_Ico] at inElf ⊢
    omega
  · rw [first, u32_of_lt (by omega)] at inHeader
    simp only [Set.mem_Ico] at inHeader ⊢
    omega

def crowdedFree (pages : Nat) : List Block := [⟨0x80400000, pages * 0x1000⟩, ⟨0x80600000, 0x100000⟩]

def ramdisk (pages : Nat) : Nat := 0x80400000 + pages * 0x1000

/-- Three segments that overlap; the third is one word, and a header that is not used yet
follows.  The block has three pages, and the third segment is copied to the fifth. -/
def overlappingSegments : List Proghdr :=
  [⟨1, 0, 0x400000, 0, 0x2000⟩, ⟨1, 0, 0x400000, 0, 0x2000⟩, ⟨1, 180, 0x400294, 4, 4⟩, ⟨0, 0, 0, 0, 0⟩]

def dynamicSegments : List Proghdr := [⟨1, 116, 0x400000, 8, 0x1000⟩, ⟨3, 0, 0, 0, 0⟩]

def crowdedMem (pages : Nat) : Mem :=
  let r := ramdisk pages
  let m : Mem := fun _ => 0
  let m := writeElf m (r + 0x200) overlappingSegments
  let m := store32 m (r + 0x200 + 180) 2
  let m := writeElf m (r + 0x400) dynamicSegments
  writeElf m (r + 0x600) [alignedSegment]

def crowdedEnv (pages : Nat) : Env where
  initrd := {
    bytes := crowdedMem pages
    names := [pathBytes "/sbin/init", pathBytes "/dev/console", pathBytes "/dev/fb",
      pathBytes "/bin/overlap", pathBytes "/bin/dynamic"]
    inode := fun i =>
      if i = 2 then ⟨0, ramdisk pages + 0x600⟩
      else if i = 5 then ⟨0, ramdisk pages + 0x200⟩
      else if i = 6 then ⟨0, ramdisk pages + 0x400⟩
      else ⟨i - 3, 0⟩ }
  kpagedir := 0x80101000
  framebuffer := 0xE0000000

def crowdedKernel (pages : Nat) : Kernel :=
  { smallKernel with
    store := ⟨crowdedMem pages, crowdedFree pages, [⟨0x80200000, 0x10000⟩], []⟩ }

def crowdedBoot (pages : Nat) : Except Halt Kernel := do
  let k ← initsys (crowdedEnv pages) (crowdedKernel pages)
  initSched k 0

theorem crowded_outside {m : Mem} {bin n : Nat} (lo : 0x80410000 ≤ bin) (hi : bin + 52 + 32 * n ≤ 0x80500000)
    (count : load16 m (bin + 44) = n) (first : load32 m (bin + 28) = 52) :
    ∀ x ∈ headerBytes m bin, Outside (crowdedFree 16) x := by
  intro x inHeaders b mem inside
  have range := headerBytes_behind count first (by omega) inHeaders
  simp only [Set.mem_Ico] at range
  rcases List.mem_cons.mp mem with rfl | mem
  · simp only at inside
    omega
  · rw [List.mem_singleton.mp mem] at inside
    simp only at inside
    omega

theorem crowdedKernel_atBoot : AtBoot (crowdedFree 16) (crowdedKernel 16) := by
  refine ⟨⟨⟨?_, ?_, ?_⟩, ?_⟩, rfl, rfl, rfl, rfl⟩
  · intro b mem
    rcases List.mem_cons.mp mem with rfl | mem
    · constructor <;> decide
    · rw [List.mem_singleton.mp mem]
      constructor <;> decide
  · intro b mem
    exact ⟨b, by simpa [crowdedKernel] using mem, Nat.le_refl _, Nat.le_refl _⟩
  · simp [crowdedKernel, crowdedFree, Block.Apart]
  · decide

theorem crowdedEnv_segments :
    (crowdedEnv 16).initrd.program (pathBytes "/sbin/init") = some 0x80410600 ∧
      (crowdedEnv 16).initrd.segments 0x80410600 = [alignedSegment] := by
  constructor <;> decide +kernel

theorem crowdedKernel_tables : TablesAtBoot (crowdedEnv 16) (crowdedKernel 16) := by
  obtain ⟨found, segs⟩ := crowdedEnv_segments
  exact ⟨fun _ _ _ => rfl, segsOk_program found segs (by decide) (by decide)⟩

theorem crowdedEnv_gapless : GaplessInit (crowdedEnv 16) := by
  obtain ⟨found, segs⟩ := crowdedEnv_segments
  intro bin file
  rw [found] at file
  cases file
  rw [segs]
  decide

/-- The first process asks for a program with an interpreter, and goes on as before. -/
theorem execve_untouched_dynamic : ∃ k k', crowdedBoot 16 = .ok k ∧
    elf (crowdedEnv 16).initrd k.store.mem (pathBytes "/bin/dynamic") = some 0x80410400 ∧
    sysExecve (crowdedEnv 16) k (pathBytes "/bin/dynamic") = .ok (some (-1), k') ∧ Untouched k k' := by
  have all : (crowdedBoot 16 >>= fun k => sysExecve (crowdedEnv 16) k (pathBytes "/bin/dynamic") >>= fun r =>
      (.ok (decide (r.1 = some (-1) ∧
        elf (crowdedEnv 16).initrd k.store.mem (pathBytes "/bin/dynamic") = some 0x80410400 ∧
        load16 k.store.mem (0x80410400 + 44) = 2 ∧ load32 k.store.mem (0x80410400 + 28) = 52 ∧
        proghdrs k.store.mem 0x80410400 = dynamicSegments)) : Except Halt Bool)) = .ok true :=
    ok_of_toOption (by decide +kernel)
  obtain ⟨k, boot, all⟩ := bind_eq_ok.mp all
  obtain ⟨⟨r, k'⟩, failed, values⟩ := bind_eq_ok.mp all
  obtain ⟨minus, file, count, first, headers⟩ := of_decide_eq_true (Except.ok.inj values)
  simp only at minus
  rw [minus] at failed
  obtain ⟨k₁, booted, scheduled⟩ := bind_eq_ok.mp boot
  have started := boot_started crowdedKernel_atBoot booted scheduled
  obtain ⟨root, sched⟩ := started.scheduled
  have accounted := started.accounted crowdedKernel_atBoot crowdedKernel_tables crowdedEnv_gapless
  have occupied := occupied_of_separate accounted.ledger.separate sched.mem_created
  refine ⟨k, k', boot, file, failed, ?_⟩
  refine (execve_untouched sched.sound occupied ?_ ?_ failed).2
  · intro bin found
    rw [file] at found
    cases found
    exact crowded_outside (by decide) (by decide) count first
  · intro bin found
    rw [file] at found
    cases found
    refine Or.inl ⟨⟨3, 0, 0, 0, 0⟩, ?_, Or.inr rfl⟩
    rw [headers]
    decide

/-- The third segment is copied over the type of the fourth header, in the ramdisk: the second
pass gives up there, and the caller has the regions of a program that was not loaded. -/
theorem execve_gives_up_late : ∃ k k', crowdedBoot 16 = .ok k ∧
    elf (crowdedEnv 16).initrd k.store.mem (pathBytes "/bin/overlap") = some 0x80410200 ∧
    (∀ ph ∈ segments (proghdrs k.store.mem 0x80410200), ph.filesz ≤ ph.memsz) ∧
    (∀ x ∈ headerBytes k.store.mem 0x80410200, Outside (crowdedFree 16) x) ∧
    sysExecve (crowdedEnv 16) k (pathBytes "/bin/overlap") = .ok (some (-1), k') ∧
    ¬ Untouched k k' := by
  have all : (crowdedBoot 16 >>= fun k => sysExecve (crowdedEnv 16) k (pathBytes "/bin/overlap") >>= fun r =>
      (.ok (decide (r.1 = some (-1) ∧
        elf (crowdedEnv 16).initrd k.store.mem (pathBytes "/bin/overlap") = some 0x80410200 ∧
        (∀ ph ∈ segments (proghdrs k.store.mem 0x80410200), ph.filesz ≤ ph.memsz) ∧
        load16 k.store.mem (0x80410200 + 44) = 4 ∧ load32 k.store.mem (0x80410200 + 28) = 52 ∧
        r.2.memtab k.proc.pid ≠ k.memtab k.proc.pid)) : Except Halt Bool)) = .ok true :=
    ok_of_toOption (by decide +kernel)
  obtain ⟨k, boot, all⟩ := bind_eq_ok.mp all
  obtain ⟨⟨r, k'⟩, failed, values⟩ := bind_eq_ok.mp all
  obtain ⟨minus, file, sizes, count, first, changed⟩ := of_decide_eq_true (Except.ok.inj values)
  simp only at minus changed
  rw [minus] at failed
  refine ⟨k, k', boot, file, sizes, crowded_outside (by decide) (by decide) count first, failed, fun same => ?_⟩
  exact changed (congrFun same.memtab k.proc.pid)

/-- With more memory the same program is loaded, and its second region reaches into free memory:
a refused program then takes a page of the caller for its directory. -/
theorem execve_clears_caller : ∃ k k₁ k₂ k', crowdedBoot 14 = .ok k ∧
    sysExecve (crowdedEnv 14) k (pathBytes "/bin/overlap") = .ok (none, k₁) ∧
    k₁.Allowed (.write 0x80603000 1) ∧ k₁.step (crowdedEnv 14) (.write 0x80603000 1) = .ok k₂ ∧
    sysExecve (crowdedEnv 14) k₂ (pathBytes "/bin/dynamic") = .ok (some (-1), k') ∧
    ¬ Untouched k₂ k' := by
  have all : (crowdedBoot 14 >>= fun k => sysExecve (crowdedEnv 14) k (pathBytes "/bin/overlap") >>= fun r =>
      r.2.step (crowdedEnv 14) (.write 0x80603000 1) >>= fun k₂ =>
      sysExecve (crowdedEnv 14) k₂ (pathBytes "/bin/dynamic") >>= fun r' =>
      (.ok (decide (r.1 = none ∧ r'.1 = some (-1) ∧
        ⟨0x400000, 0x602000, 0x2000⟩ ∈ (r.2.memtab r.2.proc.pid).regions ∧
        ⟨0x400000, 0x602000, 0x2000⟩ ∈ k₂.regions k₂.curthread ∧
        r'.2.store.mem 0x80603000 ≠ k₂.store.mem 0x80603000)) : Except Halt Bool)) = .ok true :=
    ok_of_toOption (by decide +kernel)
  obtain ⟨k, boot, all⟩ := bind_eq_ok.mp all
  obtain ⟨⟨r, k₁⟩, loaded, all⟩ := bind_eq_ok.mp all
  obtain ⟨k₂, wrote, all⟩ := bind_eq_ok.mp all
  obtain ⟨⟨r', k'⟩, failed, values⟩ := bind_eq_ok.mp all
  obtain ⟨yields, minus, mine, listed, cleared⟩ := of_decide_eq_true (Except.ok.inj values)
  simp only at yields minus mine cleared wrote
  rw [yields] at loaded
  rw [minus] at failed
  refine ⟨k, k₁, k₂, k', boot, loaded, ?_, wrote, failed, fun same => ?_⟩
  · exact ⟨_, mine, 0x1000, by decide, by decide, by decide⟩
  · exact cleared (same.memory _ listed 0x80603000 ⟨0x1000, by decide, by decide, by decide⟩)

end InPlace

end Trunix
