import Trunix.Kernel.Load
import Trunix.Kernel.Proc

/-!
# The program of a process

`loadelf` as the rest of `kernel/proc.c` sees it: it refuses a file and leaves at most a
new page directory behind, or it loads it and replaces the regions of the process.  It
does not give up halfway, since its two passes look at the same headers.
-/

set_option autoImplicit false

namespace Trunix

open Trunix.Lib

/-! ## The results of loadelf -/

theorem loadImage_cases {kpagedir : Nat} {m : Mem} {bin : Nat} {s s' : Store} {r : LoadResult}
    (done : loadImage kpagedir m bin s = .ok (r, s')) :
    (r = .refused ∧ scanHdrs (proghdrs m bin) 0 0xFFFFFFFF 0 = none ∧
        ∃ pd, copykvm kpagedir s = .ok (pd, s')) ∨
      (scanHdrs (proghdrs m bin) 0 0xFFFFFFFF 0).isSome = true ∧
        ∃ cr3 entry base sz regions, r = .loaded cr3 entry base sz regions := by
  rw [loadImage, loadImageWith] at done
  obtain ⟨⟨pd, s₁⟩, copied, afterCopy⟩ := bind_eq_ok.mp done
  cases scanned : scanHdrs (proghdrs m bin) 0 0xFFFFFFFF 0 with
  | none =>
      simp only [scanned] at afterCopy
      cases afterCopy
      exact Or.inl ⟨rfl, rfl, pd, copied⟩
  | some found =>
      obtain ⟨n, lo, hi⟩ := found
      obtain ⟨_, clean⟩ := scanHdrs_some _ _ _ _ scanned
      simp only [scanned] at afterCopy
      obtain ⟨s₂, _, afterClear⟩ := bind_eq_ok.mp afterCopy
      obtain ⟨⟨array, s₃⟩, _, afterAlloc⟩ := bind_eq_ok.mp afterClear
      obtain ⟨_, _, afterTouch⟩ := bind_eq_ok.mp afterAlloc
      obtain ⟨pass, loaded, afterLoad⟩ := bind_eq_ok.mp afterTouch
      -- the second pass cannot give up, because the first did not
      rw [loadHdrs_segments _ _ _ _ clean] at loaded
      obtain ⟨passOk, _, _⟩ := loadHdrs_ok _ _ _ _ (segments_load _) loaded
      simp only [passOk, if_true] at afterLoad
      obtain ⟨s₄, _, result⟩ := bind_eq_ok.mp afterLoad
      cases result
      exact Or.inr ⟨rfl, _, _, _, _, _, rfl⟩

def Initrd.elf (r : Initrd) (path : List UInt8) : Option Nat :=
  match r.lookup path with
  | none => none
  | some i => if elfMagic r.bytes (r.inode i).addr = elfmagic then some (r.inode i).addr else none

theorem loadFile_eq (kpagedir : Nat) (r : Initrd) (path : List UInt8) (s : Store) :
    loadFile kpagedir r path s =
      match r.elf path with
      | none => .ok (.refused, s)
      | some bin => loadImage kpagedir r.bytes bin s := by
  cases found : r.lookup path with
  | none => simp only [loadFile, Initrd.elf, found]
  | some i =>
      by_cases magic : elfMagic r.bytes (r.inode i).addr = elfmagic
      · simp [loadFile, Initrd.elf, found, magic]
      · simp [loadFile, Initrd.elf, found, magic]

/-- The file of a path, when `loadelf` does not refuse it. -/
def Initrd.program (r : Initrd) (path : List UInt8) : Option Nat :=
  (r.elf path).filter fun bin => (scanHdrs (proghdrs r.bytes bin) 0 0xFFFFFFFF 0).isSome

theorem Initrd.elf_of_program {r : Initrd} {path : List UInt8} {bin : Nat}
    (h : r.program path = some bin) : r.elf path = some bin := (Option.filter_eq_some_iff.mp h).1

def Initrd.segments (r : Initrd) (bin : Nat) : List Proghdr := Trunix.segments (proghdrs r.bytes bin)

/-- What `loadelf` does when it refuses: nothing, or it leaves a directory behind. -/
def Refused (env : Env) (path : List UInt8) (s s' : Store) : Prop :=
  (env.initrd.elf path = none ∧ s' = s) ∨
    ∃ bin pd, env.initrd.elf path = some bin ∧ copykvm env.kpagedir s = .ok (pd, s')

theorem loadelf_cases {env : Env} {k k' : Kernel} {p : Proc} {path : List UInt8} {r : Option Proc}
    (done : loadelf env k p path = .ok (r, k')) :
    (r = none ∧ env.initrd.program path = none ∧
        ∃ s, Refused env path k.store s ∧ k' = { k with store := s }) ∨
      ∃ bin cr3 entry base sz regions s, env.initrd.program path = some bin ∧
        loadImage env.kpagedir env.initrd.bytes bin k.store =
          .ok (.loaded cr3 entry base sz regions, s) ∧
        r = some { p with mmapBase := base, cr3 := cr3 } ∧
        k' = (Kernel.setMemtab { k with store := s } p.pid ⟨regions, sz⟩).setFrame p.tf
          { k.frames p.tf with eip := entry, esp := kernelOffset } := by
  rw [loadelf, loadelfWith, loadFile_eq] at done
  cases found : env.initrd.elf path with
  | none =>
      simp only [found, ok_bind] at done
      cases done
      have none : env.initrd.program path = none := by simp [Initrd.program, found]
      exact Or.inl ⟨rfl, none, k.store, Or.inl ⟨found, rfl⟩, rfl⟩
  | some bin =>
      simp only [found] at done
      obtain ⟨⟨result, s⟩, loaded, after⟩ := bind_eq_ok.mp done
      rcases loadImage_cases loaded with
        ⟨rfl, dynamic, pd, copied⟩ | ⟨static, cr3, entry, base, sz, regions, rfl⟩
      · cases after
        have none : env.initrd.program path = none := by
          simp [Initrd.program, found, dynamic]
        exact Or.inl ⟨rfl, none, s, Or.inr ⟨bin, pd, found, copied⟩, rfl⟩
      · cases after
        have some : env.initrd.program path = some bin := by
          simp [Initrd.program, found, static]
        exact Or.inr ⟨bin, cr3, entry, base, sz, regions, s, some, loaded, rfl, rfl⟩

/-! ## The loaded image -/

theorem loadelf_loadedAt {init : List Block} {env : Env} {k k' : Kernel} {p p' : Proc}
    {path : List UInt8} {bin : Nat} (sound : k.store.Sound init)
    (file : env.initrd.elf path = some bin) (ok : SegsOk (env.initrd.segments bin))
    (accepted : loadelf env k p path = .ok (some p', k')) :
    ∃ blk regions sz, LoadedAt init env.initrd.bytes bin (env.initrd.segments bin) (p2v p'.cr3) blk
      regions p'.mmapBase sz k'.store := by
  rcases loadelf_cases accepted with ⟨none, _⟩ | ⟨bin', cr3, entry, base, sz, regions, s, file', loaded,
    some, rfl⟩
  · cases none
  · have same := Initrd.elf_of_program file'
    rw [file] at same
    cases same
    cases some
    obtain ⟨blk, at'⟩ := loadImage_loaded sound ok loaded
    exact ⟨blk, regions, sz, at'⟩

/-- A file with well-formed segments is loaded faithfully exactly when its segments pack. -/
theorem loadelf_faithful_iff {init : List Block} {env : Env} {k k' : Kernel} {p p' : Proc}
    {path : List UInt8} {bin : Nat} (sound : k.store.Sound init)
    (file : env.initrd.elf path = some bin) (ok : SegsOk (env.initrd.segments bin))
    (accepted : loadelf env k p path = .ok (some p', k')) :
    Faithful env.initrd.bytes bin (env.initrd.segments bin) (p2v p'.cr3) k'.store.mem ↔
      Packs env.initrd.bytes bin (env.initrd.segments bin) := by
  obtain ⟨blk, regions, sz, loaded⟩ := loadelf_loadedAt sound file ok accepted
  exact loaded.faithful_iff ok

/-! ## A small machine -/

def oneSegment (bin : Nat) (ph : Proghdr) : Mem :=
  let m : Mem := fun _ => 0
  let m := store32 m bin elfmagic
  let m := store32 m (bin + 24) ph.va
  let m := store32 m (bin + 28) 52
  let m := store16 m (bin + 44) 1
  let m := store32 m (bin + 52) ph.type
  let m := store32 m (bin + 56) ph.off
  let m := store32 m (bin + 60) ph.va
  let m := store32 m (bin + 68) ph.filesz
  store32 m (bin + 72) ph.memsz

def smallEnv (ph : Proghdr) : Env where
  initrd := {
    bytes := oneSegment 0x80300000 ph
    names := [pathBytes "/sbin/init", pathBytes "/dev/console", pathBytes "/dev/fb"]
    inode := fun i => if i = 2 then ⟨0, 0x80300000⟩ else ⟨i - 3, 0⟩ }
  kpagedir := 0x80101000
  framebuffer := 0xE0000000

def smallFree : List Block := [⟨0x80001000, 0x9E000⟩, ⟨0x80400000, 0x100000⟩]

def smallKernel : Kernel where
  store := ⟨fun _ => 0, smallFree, [⟨0x80200000, 0x10000⟩], []⟩
  procs := fun _ => .zero
  frames := fun _ => .zero
  files := fun _ => ⟨0, 0⟩
  fbdevs := fun _ => 0
  memtab := fun _ => ⟨[], 0⟩
  pid := 1
  tqhFirst := 0
  tqhLast := .head
  curthread := 0
  idle := 0
  dispatched := 0
  cr3 := 0
  esp0 := 0
  created := []

theorem smallKernel_sound : smallKernel.store.Sound smallFree := by
  refine ⟨⟨?_, ?_, ?_⟩, ?_⟩
  · intro b mem
    rcases List.mem_cons.mp mem with rfl | mem
    · constructor <;> decide
    · rw [List.mem_singleton.mp mem]
      constructor <;> decide
  · intro b mem
    exact ⟨b, by simpa [smallKernel] using mem, Nat.le_refl _, Nat.le_refl _⟩
  · simp [smallKernel, smallFree, Block.Apart]
  · decide

def accepts (r : Except Halt (Option Proc × Kernel)) : Bool :=
  match r with
  | .ok (some _, _) => true
  | _ => false

theorem exists_of_accepts {r : Except Halt (Option Proc × Kernel)} (h : accepts r = true) :
    ∃ p k, r = .ok (some p, k) := by
  match r, h with
  | .ok (some p, k), _ => exact ⟨p, k, rfl⟩

theorem segsOk_singleton {ph : Proghdr} (file : ph.filesz ≤ ph.memsz)
    (below : ph.va + ph.memsz ≤ mmapLimit) : SegsOk [ph] :=
  ⟨by simpa using file, by simpa using below, List.pairwise_singleton _ _⟩

def alignedSegment : Proghdr := ⟨1, 84, 0x400000, 8, 0x2000⟩

def straddlingSegment : Proghdr := ⟨1, 84, 0x400800, 8, 0x1000⟩

theorem smallEnv_segments : (smallEnv alignedSegment).initrd.segments 0x80300000 = [alignedSegment] := by
  decide +kernel

theorem loadelf_faithful_aligned : ∃ p k,
    loadelf (smallEnv alignedSegment) smallKernel .zero (pathBytes "/sbin/init") = .ok (some p, k) ∧
      Faithful (smallEnv alignedSegment).initrd.bytes 0x80300000 [alignedSegment] (p2v p.cr3)
        k.store.mem := by
  have segs := smallEnv_segments
  obtain ⟨p, k, done⟩ := exists_of_accepts
    (r := loadelf (smallEnv alignedSegment) smallKernel .zero (pathBytes "/sbin/init"))
    (by decide +kernel)
  have packs : Packs (smallEnv alignedSegment).initrd.bytes 0x80300000 [alignedSegment] := by
    refine ⟨fun p memP q memQ x _ _ => ?_, by decide⟩
    rw [List.mem_singleton.mp memP, List.mem_singleton.mp memQ]
  have iff := loadelf_faithful_iff smallKernel_sound (by decide +kernel)
    (segs ▸ segsOk_singleton (by decide) (by decide)) done
  rw [segs] at iff
  exact ⟨p, k, done, iff.mpr packs⟩

/-- The segment is mapped over two pages, but the loop advances by one: the second page
is the stack as well. -/
theorem loadelf_straddling_unfaithful : ∃ p k,
    loadelf (smallEnv straddlingSegment) smallKernel .zero (pathBytes "/sbin/init") =
        .ok (some p, k) ∧
      (smallEnv straddlingSegment).initrd.segments 0x80300000 = [straddlingSegment] ∧
      SegsOk [straddlingSegment] ∧
      ¬ Faithful (smallEnv straddlingSegment).initrd.bytes 0x80300000 [straddlingSegment] (p2v p.cr3)
        k.store.mem := by
  have segs : (smallEnv straddlingSegment).initrd.segments 0x80300000 = [straddlingSegment] := by
    decide +kernel
  have ok : SegsOk [straddlingSegment] := segsOk_singleton (by decide) (by decide)
  obtain ⟨p, k, done⟩ := exists_of_accepts
    (r := loadelf (smallEnv straddlingSegment) smallKernel .zero (pathBytes "/sbin/init"))
    (by decide +kernel)
  obtain ⟨blk, regions, sz, loaded⟩ := loadelf_loadedAt smallKernel_sound
    (show (smallEnv straddlingSegment).initrd.elf (pathBytes "/sbin/init") = some 0x80300000 by
      decide +kernel) (segs ▸ ok) done
  rw [segs] at loaded
  refine ⟨p, k, done, segs, ok, fun faithful => ?_⟩
  have packs := (loaded.faithful_iff ok).mp faithful
  have inside := packs.inside ⟨straddlingSegment, 0⟩ List.mem_cons_self
  revert inside
  decide

theorem segsOk_program {r : Initrd} {path : List UInt8} {bin : Nat} {ph : Proghdr}
    (found : r.program path = some bin) (segs : r.segments bin = [ph]) (file : ph.filesz ≤ ph.memsz)
    (below : ph.va + ph.memsz ≤ mmapLimit) :
    ∀ bin', r.program path = some bin' → SegsOk (r.segments bin') := by
  intro bin' found'
  rw [found] at found'
  cases found'
  rw [segs]
  exact segsOk_singleton file below

theorem smallEnv_program :
    (smallEnv alignedSegment).initrd.program (pathBytes "/sbin/init") = some 0x80300000 := by
  decide +kernel

end Trunix
