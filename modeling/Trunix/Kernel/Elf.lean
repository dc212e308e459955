import Trunix.Kernel.Paging
import Trunix.Lib.Spans

/-!
# Loading an executable

The part of `loadelf` in `kernel/proc.c` that works on memory: from the file in the
ramdisk to a page directory and a list of regions.  The ramdisk is a module of the boot
loader that `init_trunix` cuts out of the memory map, so its bytes are kept apart from
the store and never change.  The two passes over the program headers are two recursions
over the list of headers.
-/

set_option autoImplicit false

namespace Trunix

open Trunix.Lib

def stackSize : Nat := 0x1000

def mmapLimit : Nat := kernelOffset - stackSize

def elfmagic : Nat := 0x464C457F

structure VmRegion where
  va : Nat
  pa : Nat
  len : Nat
  deriving DecidableEq, Repr

structure Inode where
  major : Nat
  addr : Nat
  deriving DecidableEq, Repr

/-- The ramdisk: its bytes, and the names and inodes that `load_initrd` found in it, from
`ROOT_INO` on. -/
structure Initrd where
  bytes : Mem
  names : List (List UInt8)
  inode : Nat → Inode

def rootIno : Nat := 2

/-- The search for a path, which `loadelf`, `sys_open` and `file_open` share. -/
def Initrd.lookup (r : Initrd) (path : List UInt8) : Option Nat :=
  (r.names.findIdx? (· == path)).map (· + rootIno)

/-- The fields of a program header that `loadelf` reads. -/
structure Proghdr where
  type : Nat
  off : Nat
  va : Nat
  filesz : Nat
  memsz : Nat
  deriving DecidableEq, Repr

def readProghdr (m : Mem) (a : Nat) : Proghdr :=
  ⟨load32 m a, load32 m (a + 4), load32 m (a + 8), load32 m (a + 16), load32 m (a + 20)⟩

def elfMagic (m : Mem) (bin : Nat) : Nat := load32 m bin

def elfEntry (m : Mem) (bin : Nat) : Nat := load32 m (bin + 24)

def proghdrs (m : Mem) (bin : Nat) : List Proghdr :=
  (List.range (load16 m (bin + 44))).map fun i =>
    readProghdr m (u32 (bin + load32 m (bin + 28) + 32 * i))

/-- The first pass: the number of segments and the pages they span.  A header of type 2
or 3 makes `loadelf` give up. -/
def scanHdrs : List Proghdr → Nat → Nat → Nat → Option (Nat × Nat × Nat)
  | [], n, min, max => some (n, min, max)
  | ph :: rest, n, min, max =>
      if ph.type = 1 then
        let start := pgRounddown ph.va
        let stop := pgRoundup (u32 (ph.va + ph.memsz))
        scanHdrs rest (n + 1) (if start < min then start else min) (if max < stop then stop else max)
      else if ph.type = 2 ∨ ph.type = 3 then none
      else scanHdrs rest n min max

structure Pass where
  ok : Bool
  mem : Nat
  regions : List VmRegion
  store : Store

def segmentRegion (ph : Proghdr) (mem : Nat) : VmRegion :=
  ⟨ph.va, v2p mem, pgRoundup (u32 (ph.memsz + ph.va % 0x1000))⟩

/-- The second pass: every segment is copied to the next free place of the block and
mapped. -/
def loadHdrs (m : Mem) (bin pd : Nat) : List Proghdr → Nat → List VmRegion → Store →
    Except Halt Pass
  | [], mem, regions, s => .ok ⟨true, mem, regions, s⟩
  | ph :: rest, mem, regions, s =>
      if ph.type = 1 then do
        let r := segmentRegion ph mem
        let s ← s.memmove (u32 (mem + ph.va % 0x1000)) (fun i => m (u32 (bin + ph.off) + i)) ph.filesz
        let s ← allocPt pd r.va r.pa r.len userFlags s
        loadHdrs m bin pd rest (u32 (mem + pgRoundup ph.memsz)) (r :: regions) s
      else if ph.type = 2 ∨ ph.type = 3 then .ok ⟨false, mem, regions, s⟩
      else loadHdrs m bin pd rest mem regions s

inductive LoadResult where
  /-- it returned -1 before it changed anything of the process -/
  | refused
  /-- it returned -1 in the second pass -/
  | abandoned (mmapBase sz : Nat) (regions : List VmRegion)
  | loaded (cr3 entry mmapBase sz : Nat) (regions : List VmRegion)

def imageSize (min max : Nat) : Nat := pgRoundup (u32 (u32 (max + 0x100000000 - min) + stackSize))

/-- `loadelf` from the first pass on, for the headers and the entry as a store shows them.
`second` is the second pass, for the store of the first pass, the directory and the block. -/
def loadImageWith (kpagedir : Nat) (phs : Store → List Proghdr) (entry : Store → Nat)
    (second : Store → Nat → Nat → Store → Except Halt Pass) (s : Store) :
    Except Halt (LoadResult × Store) := do
  let (pd, first) ← copykvm kpagedir s
  match scanHdrs (phs first) 0 0xFFFFFFFF 0 with
  | none => return (.refused, first)
  | some (n, min, max) =>
      let sz := imageSize min max
      let (mem, s) := first.allocPages sz
      let s ← s.memset mem 0 sz
      let (regions, s) ← s.kmalloc (16 * (n + 1))
      touch regions 16
      let pass ← second first pd mem s
      if pass.ok then
        let stack : VmRegion := ⟨kernelOffset - stackSize, v2p pass.mem, stackSize⟩
        let s ← allocPt pd stack.va stack.pa stack.len userFlags pass.store
        return (.loaded (v2p pd) (entry pass.store) max sz (stack :: pass.regions), s)
      else return (.abandoned max sz pass.regions, pass.store)

/-- The file is `m`, which stays as it is. -/
def loadImage (kpagedir : Nat) (m : Mem) (bin : Nat) (s : Store) :
    Except Halt (LoadResult × Store) :=
  loadImageWith kpagedir (fun _ => proghdrs m bin) (fun _ => elfEntry m bin)
    (fun _ pd mem s => loadHdrs m bin pd (proghdrs m bin) mem [] s) s

/-- `loadelf` up to what it writes into the process: the result of the search and of the
test for the magic number, and then of `loadImage`. -/
def loadFile (kpagedir : Nat) (r : Initrd) (path : List UInt8) (s : Store) :
    Except Halt (LoadResult × Store) :=
  match r.lookup path with
  | none => .ok (.refused, s)
  | some i =>
      let bin := (r.inode i).addr
      if elfMagic r.bytes bin ≠ elfmagic then .ok (.refused, s)
      else loadImage kpagedir r.bytes bin s

/-! ## The two passes -/

def segments (phs : List Proghdr) : List Proghdr := phs.filter fun ph => ph.type = 1

def lowest (segs : List Proghdr) (lo : Nat) : Nat :=
  segs.foldl (fun lo ph => min lo (pgRounddown ph.va)) lo

def highest (segs : List Proghdr) (hi : Nat) : Nat :=
  segs.foldl (fun hi ph => max hi (pgRoundup (u32 (ph.va + ph.memsz)))) hi

def layout : List Proghdr → Nat → List VmRegion
  | [], _ => []
  | ph :: rest, mem => segmentRegion ph mem :: layout rest (u32 (mem + pgRoundup ph.memsz))

def layoutEnd (segs : List Proghdr) (mem : Nat) : Nat :=
  segs.foldl (fun mem ph => u32 (mem + pgRoundup ph.memsz)) mem

theorem segments_cons {ph : Proghdr} {rest : List Proghdr} (load : ph.type = 1) :
    segments (ph :: rest) = ph :: segments rest := by
  simp [segments, load]

theorem segments_cons_of_ne {ph : Proghdr} {rest : List Proghdr} (load : ¬ ph.type = 1) :
    segments (ph :: rest) = segments rest := by
  simp [segments, load]

theorem scanHdrs_some : ∀ (phs : List Proghdr) (n lo hi : Nat) {r : Nat × Nat × Nat},
    scanHdrs phs n lo hi = some r →
    r = (n + (segments phs).length, lowest (segments phs) lo, highest (segments phs) hi) ∧
      ∀ ph ∈ phs, ph.type ≠ 2 ∧ ph.type ≠ 3 := by
  intro phs
  induction phs with
  | nil =>
      intro n lo hi r scanned
      cases scanned
      exact ⟨rfl, fun ph mem => absurd mem List.not_mem_nil⟩
  | cons ph rest ih =>
      intro n lo hi r scanned
      by_cases load : ph.type = 1
      · simp only [scanHdrs, if_pos load] at scanned
        obtain ⟨result, clean⟩ := ih _ _ _ scanned
        refine ⟨?_, fun other mem => ?_⟩
        · rw [result, segments_cons load]
          have lower : (if pgRounddown ph.va < lo then pgRounddown ph.va else lo) =
              min lo (pgRounddown ph.va) := by
            split <;> omega
          have upper : (if hi < pgRoundup (u32 (ph.va + ph.memsz)) then
              pgRoundup (u32 (ph.va + ph.memsz)) else hi) =
              max hi (pgRoundup (u32 (ph.va + ph.memsz))) := by
            split <;> omega
          simp only [lowest, highest, List.foldl_cons, lower, upper, List.length_cons]
          congr 1
          omega
        · rcases List.mem_cons.mp mem with rfl | inRest
          · omega
          · exact clean other inRest
      · by_cases dynamic : ph.type = 2 ∨ ph.type = 3
        · simp [scanHdrs, load, dynamic] at scanned
        · simp only [scanHdrs, if_neg load, if_neg dynamic] at scanned
          obtain ⟨result, clean⟩ := ih _ _ _ scanned
          refine ⟨by rw [result, segments_cons_of_ne load], fun other mem => ?_⟩
          rcases List.mem_cons.mp mem with rfl | inRest
          · omega
          · exact clean other inRest

/-- The second pass never gives up where the first did not, and goes through the same
segments. -/
theorem loadHdrs_segments {m : Mem} {bin pd : Nat} : ∀ (phs : List Proghdr) (mem : Nat)
    (regions : List VmRegion) (s : Store), (∀ ph ∈ phs, ph.type ≠ 2 ∧ ph.type ≠ 3) →
    loadHdrs m bin pd phs mem regions s = loadHdrs m bin pd (segments phs) mem regions s := by
  intro phs
  induction phs with
  | nil => intro mem regions s _; rfl
  | cons ph rest ih =>
      intro mem regions s clean
      have restClean : ∀ other ∈ rest, other.type ≠ 2 ∧ other.type ≠ 3 := fun other inRest =>
        clean other (List.mem_cons_of_mem _ inRest)
      by_cases load : ph.type = 1
      · rw [segments_cons load]
        simp only [loadHdrs, if_pos load]
        congr 1
        funext s₁
        congr 1
        funext s₂
        exact ih _ _ _ restClean
      · have headClean := clean ph List.mem_cons_self
        have dynamic : ¬ (ph.type = 2 ∨ ph.type = 3) := by omega
        rw [segments_cons_of_ne load]
        simp only [loadHdrs, if_neg load, if_neg dynamic]
        exact ih _ _ _ restClean

theorem loadHdrs_ok {m : Mem} {bin pd : Nat} : ∀ (segs : List Proghdr) (mem : Nat)
    (regions : List VmRegion) (s : Store) {pass : Pass}, (∀ ph ∈ segs, ph.type = 1) →
    loadHdrs m bin pd segs mem regions s = .ok pass →
    pass.ok = true ∧ pass.mem = layoutEnd segs mem ∧
      pass.regions = (layout segs mem).reverse ++ regions := by
  intro segs
  induction segs with
  | nil =>
      intro mem regions s pass _ done
      cases done
      exact ⟨rfl, rfl, rfl⟩
  | cons ph rest ih =>
      intro mem regions s pass load done
      have first := load ph List.mem_cons_self
      simp only [loadHdrs, if_pos first] at done
      obtain ⟨s₁, _, done⟩ := bind_eq_ok.mp done
      obtain ⟨s₂, _, done⟩ := bind_eq_ok.mp done
      obtain ⟨ok, memEq, regionsEq⟩ := ih _ _ _
        (fun other mem => load other (List.mem_cons_of_mem _ mem)) done
      refine ⟨ok, memEq, ?_⟩
      rw [regionsEq, layout, List.reverse_cons, List.append_assoc]
      rfl

theorem segments_load (phs : List Proghdr) : ∀ ph ∈ segments phs, ph.type = 1 := by
  intro ph mem
  simpa using (List.mem_filter.mp mem).2

/-- The stages of a `loadelf` that accepts the file. -/
theorem loadImage_stages {kpagedir : Nat} {m : Mem} {bin cr3 entry base sz : Nat}
    {regions : List VmRegion} {s s' : Store}
    (done : loadImage kpagedir m bin s = .ok (.loaded cr3 entry base sz regions, s')) :
    ∃ pd s₁ s₂ array s₃ pass, copykvm kpagedir s = .ok (pd, s₁) ∧
      (∀ ph ∈ proghdrs m bin, ph.type ≠ 2 ∧ ph.type ≠ 3) ∧
      base = highest (segments (proghdrs m bin)) 0 ∧
      sz = imageSize (lowest (segments (proghdrs m bin)) 0xFFFFFFFF) base ∧
      (s₁.allocPages sz).2.memset (s₁.allocPages sz).1 0 sz = .ok s₂ ∧
      s₂.kmalloc (16 * ((segments (proghdrs m bin)).length + 1)) = .ok (array, s₃) ∧
      loadHdrs m bin pd (segments (proghdrs m bin)) (s₁.allocPages sz).1 [] s₃ = .ok pass ∧
      allocPt pd 0x7FFFF000 (v2p pass.mem) 0x1000 userFlags pass.store = .ok s' ∧
      cr3 = v2p pd ∧ entry = elfEntry m bin ∧
      regions = ⟨0x7FFFF000, v2p pass.mem, 0x1000⟩ :: pass.regions := by
  rw [loadImage, loadImageWith] at done
  obtain ⟨⟨pd, s₁⟩, copied, afterCopy⟩ := bind_eq_ok.mp done
  cases scanned : scanHdrs (proghdrs m bin) 0 0xFFFFFFFF 0 with
  | none =>
      simp only [scanned] at afterCopy
      cases afterCopy
  | some found =>
      obtain ⟨n, lo, hi⟩ := found
      obtain ⟨bounds, clean⟩ := scanHdrs_some _ _ _ _ scanned
      simp only [Prod.mk.injEq, Nat.zero_add] at bounds
      obtain ⟨rfl, rfl, rfl⟩ := bounds
      simp only [scanned] at afterCopy
      obtain ⟨s₂, cleared, afterClear⟩ := bind_eq_ok.mp afterCopy
      obtain ⟨⟨array, s₃⟩, allocated, afterAlloc⟩ := bind_eq_ok.mp afterClear
      obtain ⟨_, _, afterTouch⟩ := bind_eq_ok.mp afterAlloc
      obtain ⟨pass, loaded, afterLoad⟩ := bind_eq_ok.mp afterTouch
      rw [loadHdrs_segments _ _ _ _ clean] at loaded
      obtain ⟨passOk, _, _⟩ := loadHdrs_ok _ _ _ _ (segments_load _) loaded
      simp only [passOk, if_true] at afterLoad
      obtain ⟨s₄, linked, result⟩ := bind_eq_ok.mp afterLoad
      cases result
      exact ⟨pd, s₁, s₂, array, s₃, pass, copied, clean, rfl, rfl, cleared, allocated, loaded, linked,
        rfl, rfl, rfl⟩

end Trunix
