import Trunix.Kernel.Exec

/-!
# The calls only take memory

None of the calls of a process gives a block back to `alloc_pages`: what was handed out
before a call is still handed out behind it.  Where a call does not return, it stops at
an assertion or at a fault of its own; the two ways the scheduler can hang are left to
the scheduler.
-/

set_option autoImplicit false

namespace Trunix

open Trunix.Lib

/-- A stop other than the endless loops of the scheduler. -/
def Halt.InCall : Halt → Prop
  | .loops => False
  | .idle => False
  | _ => True

/-! ## What the allocators and the writes respect -/

/-- A relation between stores that holds over the calls of the allocators. -/
structure Taking (R : Store → Store → Prop) : Prop where
  refl : ∀ s, R s s
  trans : ∀ {s t u}, R s t → R t u → R s u
  pages : ∀ s sz, R s (s.allocPages sz).2
  heap : ∀ {s s' sz p}, s.kmalloc sz = .ok (p, s') → R s s'

/-- A relation that holds over everything the kernel does to a store: it takes memory and
writes bytes. -/
structure Respected (R : Store → Store → Prop) : Prop extends Taking R where
  bytes : ∀ {s s'}, s'.free = s.free → s'.given = s.given → s'.heap = s.heap → R s s'

theorem touch_stops (addr n : Nat) : Returns Halt.InCall (fun _ => True) (touch addr n) := by
  rw [touch]
  split <;> trivial

theorem kmalloc_stops (s : Store) (sz : Nat) : Returns Halt.InCall (fun _ => True) (s.kmalloc sz) := by
  rw [Store.kmalloc]
  split
  · trivial
  · split <;> trivial

section Respected

variable {R : Store → Store → Prop} (h : Respected R)

include h

theorem Respected.kmalloc (s : Store) (sz : Nat) :
    Returns Halt.InCall (fun r => R s r.2) (s.kmalloc sz) :=
  (kmalloc_stops s sz).intro fun _ done => h.heap done

theorem Respected.memset (s : Store) (addr : Nat) (b : UInt8) (n : Nat) :
    Returns Halt.InCall (R s) (s.memset addr b n) :=
  (touch_stops addr n).bind fun _ _ => h.bytes rfl rfl rfl

theorem Respected.memmove (s : Store) (addr : Nat) (src : Nat → UInt8) (n : Nat) :
    Returns Halt.InCall (R s) (s.memmove addr src n) :=
  (touch_stops addr n).bind fun _ _ => h.bytes rfl rfl rfl

theorem Respected.copykvm (s : Store) (kpagedir : Nat) :
    Returns Halt.InCall (fun r => R s r.2) (copykvm kpagedir s) := by
  have alloc := h.pages s 0x1000
  rw [Trunix.copykvm]
  revert alloc
  generalize s.allocPages 0x1000 = r
  generalize kernelOffset / 0x400000 = half
  obtain ⟨pd, s₀⟩ := r
  intro alloc
  refine (h.memset _ _ _ _).bind fun s₁ cleared => ?_
  refine (h.memmove _ _ _ _).bind fun s₂ copied => ?_
  exact h.trans (h.trans alloc cleared) copied

theorem Respected.tableFor (s : Store) (pd pde flags : Nat) :
    Returns Halt.InCall (fun r => R s r.2) (tableFor pd pde flags s) := by
  rw [Trunix.tableFor]
  split
  · have alloc := h.pages s 0x1000
    refine (h.memset _ _ _ _).bind fun s₁ cleared => ?_
    exact h.trans (h.trans alloc cleared) (h.bytes rfl rfl rfl)
  · exact h.bytes rfl rfl rfl

theorem Respected.mapPages {pd flags : Nat} : ∀ (n va pa : Nat) (s : Store),
    Returns Halt.InCall (R s) (mapPages pd flags n va pa s) := by
  intro n
  induction n with
  | zero => intro va pa s; exact h.refl s
  | succ n ih =>
      intro va pa s
      rw [Trunix.mapPages, mapPage, bind_assoc]
      refine (h.tableFor _ _ _ _).bind fun r ready => ?_
      have written : R s { r.2 with
          mem := store32 r.2.mem (r.1 + 4 * (va / 0x1000 % 0x400)) (frameOf pa ||| flags) } :=
        h.trans ready (h.bytes rfl rfl rfl)
      have rest := ih (u32 (va + 0x1000)) (u32 (pa + 0x1000)) { r.2 with
        mem := store32 r.2.mem (r.1 + 4 * (va / 0x1000 % 0x400)) (frameOf pa ||| flags) }
      exact rest.mono fun s' later => h.trans written later

theorem Respected.allocPt (s : Store) (pd va pa len flags : Nat) :
    Returns Halt.InCall (R s) (allocPt pd va pa len flags s) :=
  h.mapPages _ _ _ _

theorem Respected.loadHdrs {m : Mem} {bin pd : Nat} : ∀ (phs : List Proghdr) (mem : Nat)
    (regions : List VmRegion) (s : Store),
    Returns Halt.InCall (fun pass => R s pass.store) (loadHdrs m bin pd phs mem regions s) := by
  intro phs
  induction phs with
  | nil => intro mem regions s; exact h.refl s
  | cons ph rest ih =>
      intro mem regions s
      rw [Trunix.loadHdrs]
      split
      · refine (h.memmove _ _ _ _).bind fun s₁ moved => ?_
        refine (h.allocPt _ _ _ _ _ _).bind fun s₂ linked => ?_
        exact (ih _ _ s₂).mono fun pass later => h.trans (h.trans moved linked) later
      · split
        · exact h.refl s
        · exact ih _ _ s

theorem Respected.loadImage (s : Store) (kpagedir : Nat) (m : Mem) (bin : Nat) :
    Returns Halt.InCall (fun r => R s r.2) (loadImage kpagedir m bin s) := by
  rw [Trunix.loadImage, loadImageWith]
  refine (h.copykvm _ _).bind fun r copied => ?_
  obtain ⟨pd, s₁⟩ := r
  simp only
  split
  · exact copied
  · rename_i n lo hi _
    have alloc := h.pages s₁ (imageSize lo hi)
    revert alloc
    generalize s₁.allocPages (imageSize lo hi) = r
    obtain ⟨mem, s₀⟩ := r
    intro alloc
    generalize imageSize lo hi = sz
    refine (h.memset _ _ _ _).bind fun s₂ cleared => ?_
    refine (h.kmalloc _ _).bind fun r array => ?_
    refine (touch_stops _ _).bind fun _ _ => ?_
    refine (h.loadHdrs _ _ _ _).bind fun pass loaded => ?_
    have taken := h.trans (h.trans (h.trans (h.trans copied alloc) cleared) array) loaded
    split
    · refine (h.allocPt _ _ _ _ _ _).bind fun s₃ linked => ?_
      exact h.trans taken linked
    · exact taken

theorem Respected.loadFile (s : Store) (kpagedir : Nat) (r : Initrd) (path : List UInt8) :
    Returns Halt.InCall (fun r => R s r.2) (loadFile kpagedir r path s) := by
  rw [loadFile_eq]
  cases r.elf path with
  | none => exact h.refl s
  | some bin => exact h.loadImage _ _ _ _

end Respected

/-! ## Growing -/

structure Store.Grows (init : List Block) (s s' : Store) : Prop where
  sound : s'.Sound init
  given : ∀ b ∈ s.given, b ∈ s'.given

theorem Store.Grows.refl {init : List Block} {s : Store} (sound : s.Sound init) :
    s.Grows init s := ⟨sound, fun _ mem => mem⟩

theorem Store.Grows.trans {init : List Block} {s₁ s₂ s₃ : Store} (h : s₁.Grows init s₂)
    (h' : s₂.Grows init s₃) : s₁.Grows init s₃ :=
  ⟨h'.sound, fun b mem => h'.given b (h.given b mem)⟩

theorem Store.Grows.write {init : List Block} {s s' s'' : Store} (h : s.Grows init s')
    (free : s''.free = s'.free) (given : s''.given = s'.given) : s.Grows init s'' :=
  ⟨h.sound.write free given, fun b mem => given ▸ h.given b mem⟩

theorem Store.allocPages_grows {init : List Block} {s : Store} (sound : s.Sound init) (sz : Nat) :
    s.Grows init (s.allocPages sz).2 := by
  have alloc := sound.alloc sz
  revert alloc
  generalize s.allocPages sz = result
  intro alloc
  cases alloc with
  | none _ => exact .refl sound
  | zero a free _ _ sound' => exact ⟨sound', fun _ mem => mem⟩
  | some a free _ _ sound' => exact ⟨sound', fun _ mem => List.mem_cons_of_mem _ mem⟩

theorem grows_respected (init : List Block) :
    Respected fun s s' => s.Sound init → s.Grows init s' where
  refl _ sound := .refl sound
  trans first second sound := (first sound).trans (second (first sound).sound)
  pages _ sz sound := Store.allocPages_grows sound sz
  heap done sound := by
    obtain ⟨_, free, given⟩ := Store.kmalloc_heap done
    exact (Store.Grows.refl sound).write free given
  bytes free given _ sound := (Store.Grows.refl sound).write free given

section Grows

variable {init : List Block} {s : Store} (sound : s.Sound init)

include sound

theorem Store.kmalloc_grows (sz : Nat) :
    Returns Halt.InCall (fun r => s.Grows init r.2) (s.kmalloc sz) :=
  ((grows_respected init).kmalloc s sz).mono fun _ grows => grows sound

theorem Store.memset_grows (addr : Nat) (b : UInt8) (n : Nat) :
    Returns Halt.InCall (s.Grows init) (s.memset addr b n) :=
  ((grows_respected init).memset s addr b n).mono fun _ grows => grows sound

theorem copykvm_grows (kpagedir : Nat) :
    Returns Halt.InCall (fun r => s.Grows init r.2) (copykvm kpagedir s) :=
  ((grows_respected init).copykvm s kpagedir).mono fun _ grows => grows sound

theorem tableFor_grows (pd pde flags : Nat) :
    Returns Halt.InCall (fun r => s.Grows init r.2) (tableFor pd pde flags s) :=
  ((grows_respected init).tableFor s pd pde flags).mono fun _ grows => grows sound

theorem allocPt_grows (pd va pa len flags : Nat) :
    Returns Halt.InCall (s.Grows init) (allocPt pd va pa len flags s) :=
  ((grows_respected init).allocPt s pd va pa len flags).mono fun _ grows => grows sound

theorem loadImage_grows (kpagedir : Nat) (m : Mem) (bin : Nat) :
    Returns Halt.InCall (fun r => s.Grows init r.2) (loadImage kpagedir m bin s) :=
  ((grows_respected init).loadImage s kpagedir m bin).mono fun _ grows => grows sound

theorem loadFile_grows (kpagedir : Nat) (r : Initrd) (path : List UInt8) :
    Returns Halt.InCall (fun r => s.Grows init r.2) (loadFile kpagedir r path s) :=
  ((grows_respected init).loadFile s kpagedir r path).mono fun _ grows => grows sound

end Grows

end Trunix
