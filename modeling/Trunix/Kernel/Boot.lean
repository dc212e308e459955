import Trunix.Kernel.Fork

/-!
# The first process

`initsys` makes the first process, loads `/sbin/init` into it and opens its console.
-/

set_option autoImplicit false

namespace Trunix

open Trunix.Lib

/-! ## Opening a file -/

theorem Taking.cdevOpen {R : Store → Store → Prop} (h : Taking R) {env : Env} : ∀ (fuel : Nat)
    (k : Kernel) (f : Nat) {k' : Kernel}, cdevOpen env fuel k f = .ok k' →
    R k.store k'.store ∧
      k' = { k with store := k'.store, files := k'.files, fbdevs := k'.fbdevs } := by
  intro fuel
  induction fuel with
  | zero => intro k f k' done; cases done
  | succ fuel ih =>
      intro k f k' done
      rw [Trunix.cdevOpen] at done
      split at done
      · obtain ⟨⟨data, s₁⟩, allocated, afterData⟩ := bind_eq_ok.mp done
        obtain ⟨_, _, afterTouch⟩ := bind_eq_ok.mp afterData
        have taken := h.trans (h.heap allocated) (h.pages s₁ 0x1000)
        simp only at afterTouch
        cases found : env.initrd.lookup (pathBytes "/dev/fb") with
        | none =>
            rw [found] at afterTouch
            cases afterTouch
        | some i =>
            rw [found] at afterTouch
            obtain ⟨⟨fb, s₃⟩, allocated', afterFile⟩ := bind_eq_ok.mp afterTouch
            have taken' := h.trans taken (h.heap allocated')
            simp only at afterFile
            split at afterFile
            · cases afterFile
            · obtain ⟨later, same⟩ := ih _ _ afterFile
              exact ⟨h.trans taken' later, same⟩
      · obtain ⟨⟨fb, s₁⟩, allocated, afterData⟩ := bind_eq_ok.mp done
        obtain ⟨_, _, result⟩ := bind_eq_ok.mp afterData
        cases result
        exact ⟨h.heap allocated, rfl⟩
      · cases done

theorem sameBytes_taking : Taking fun s s' => s'.mem = s.mem where
  refl _ := rfl
  trans first second := second.trans first
  pages s sz := (Store.allocPages_mem s sz).1
  heap done := (Store.kmalloc_heap done).1

theorem Taking.sysOpen {R : Store → Store → Prop} (h : Taking R) {env : Env} {k k' : Kernel}
    {path : List UInt8} {r : Int} (done : sysOpen env k path = .ok (r, k')) :
    R k.store k'.store ∧ ∃ ofile, k' = { k with
      store := k'.store
      procs := Function.update k.procs k.curthread { k.proc with ofile := ofile }
      files := k'.files
      fbdevs := k'.fbdevs } := by
  have unchanged : k = { k with
      procs := Function.update k.procs k.curthread { k.proc with ofile := k.proc.ofile } } := by
    have self : Function.update k.procs k.curthread k.proc = k.procs := Function.update_eq_self _ _
    rw [self]
  rw [Trunix.sysOpen] at done
  split at done
  · cases done
    exact ⟨h.refl k.store, _, unchanged⟩
  · split at done
    · split at done
      · cases done
      · cases done
        exact ⟨h.refl k.store, _, unchanged⟩
    · obtain ⟨⟨f, s⟩, allocated, afterAlloc⟩ := bind_eq_ok.mp done
      obtain ⟨_, _, afterTouch⟩ := bind_eq_ok.mp afterAlloc
      obtain ⟨k₁, opened, result⟩ := bind_eq_ok.mp afterTouch
      cases result
      obtain ⟨later, same⟩ := h.cdevOpen 16 _ _ opened
      exact ⟨h.trans (h.heap allocated) later, _, same⟩

/-- No byte that a process can see changes when a file is opened. -/
theorem sysOpen_spec {init : List Block} {env : Env} {k k' : Kernel} {path : List UInt8} {r : Int}
    (sound : k.store.Sound init) (done : sysOpen env k path = .ok (r, k')) :
    k.store.Grows init k'.store ∧ k'.store.mem = k.store.mem ∧
      ∃ ofile, k' = { k with
        store := k'.store
        procs := Function.update k.procs k.curthread { k.proc with ofile := ofile }
        files := k'.files
        fbdevs := k'.fbdevs } := by
  obtain ⟨grows, same⟩ := (grows_respected init).toTaking.sysOpen done
  exact ⟨grows sound, (sameBytes_taking.sysOpen done).1, same⟩

/-! ## The boot -/

inductive Booted (init : List Block) (env : Env) (k : Kernel) : Kernel → Prop where
  | mk (kstack bin cr3 entry base sz : Nat) (regions : List VmRegion) (ofile : Fin maxfiles → Nat)
      (s₁ s₂ s₃ : Store) (frames : Nat → Trapframe) (files : Nat → File) (fbdevs : Nat → Nat)
      (k₁ : Kernel) (took : k.store.Took init kstack s₁)
      (file : env.initrd.program (pathBytes "/sbin/init") = some bin)
      (loaded : loadImage env.kpagedir env.initrd.bytes bin s₁ =
        .ok (.loaded cr3 entry base sz regions, s₂))
      (before : ∃ k₀, initproc env k = .ok k₀ ∧ k₀.store = s₂)
      (grown : s₂.Grows init s₃) (bytes : s₃.mem = s₂.mem)
      (queued : enqueue { k with
        store := s₃
        procs := Function.update k.procs (kstack + 3992) { newProc kstack with
          pid := k.pid, mmapBase := base, cr3 := cr3, ofile := ofile }
        frames := frames
        files := files
        fbdevs := fbdevs
        memtab := Function.update k.memtab k.pid ⟨regions, sz⟩
        pid := u32 (k.pid + 1)
        curthread := kstack + 3992 } (kstack + 3992) = .ok k₁) :
      Booted init env k { k₁ with created := k₁.created ++ [kstack + 3992] }

theorem initproc_spec {init : List Block} {env : Env} {k k' : Kernel} (sound : k.store.Sound init)
    (done : initproc env k = .ok k') :
    ∃ kstack bin cr3 entry base sz regions s, k.store.Took init kstack s ∧
      env.initrd.program (pathBytes "/sbin/init") = some bin ∧
      loadImage env.kpagedir env.initrd.bytes bin s =
        .ok (.loaded cr3 entry base sz regions, k'.store) ∧
      k' = { k with
        store := k'.store
        procs := Function.update k.procs (kstack + 3992) { newProc kstack with
          pid := k.pid, mmapBase := base, cr3 := cr3 }
        frames := k'.frames
        memtab := Function.update k.memtab k.pid ⟨regions, sz⟩
        pid := u32 (k.pid + 1)
        curthread := kstack + 3992 } := by
  rw [initproc] at done
  obtain ⟨⟨p, k₁⟩, created, afterCreate⟩ := bind_eq_ok.mp done
  obtain ⟨kstack, s, took, rfl, same⟩ := procCreate_spec sound created
  rw [same] at afterCreate
  generalize k₁.frames = frames at afterCreate
  simp only [Kernel.setProc, Kernel.proc, Function.update_self, Function.update_idem] at afterCreate
  obtain ⟨⟨r, k₂⟩, loaded, afterLoad⟩ := bind_eq_ok.mp afterCreate
  rcases loadelf_cases loaded with ⟨rfl, _⟩ |
    ⟨bin, cr3, entry, base, sz, regions, s₂, file, image, rfl, same₂⟩
  · cases afterLoad
  · rw [same₂] at afterLoad
    simp only [Kernel.setMemtab, Kernel.setFrame, Function.update_idem] at afterLoad
    cases afterLoad
    exact ⟨kstack, bin, cr3, entry, base, sz, regions, s, took, file, image, rfl⟩

theorem initsys_cases {init : List Block} {env : Env} {k k' : Kernel} (sound : k.store.Sound init)
    (done : initsys env k = .ok k') : Booted init env k k' := by
  rw [initsys] at done
  obtain ⟨k₂, made, afterMade⟩ := bind_eq_ok.mp done
  obtain ⟨kstack, bin, cr3, entry, base, sz, regions, s₁, took, file, image, same₂⟩ :=
    initproc_spec sound made
  obtain ⟨⟨fd₁, k₃⟩, opened₁, afterFirst⟩ := bind_eq_ok.mp afterMade
  obtain ⟨⟨fd₂, k₄⟩, opened₂, afterSecond⟩ := bind_eq_ok.mp afterFirst
  obtain ⟨⟨fd₃, k₅⟩, opened₃, afterThird⟩ := bind_eq_ok.mp afterSecond
  obtain ⟨k₆, queued, result⟩ := bind_eq_ok.mp afterThird
  have grown := (loadImage_grows took.sound env.kpagedir env.initrd.bytes bin).of_ok image
  obtain ⟨grown₁, bytes₁, ofile₁, same₃⟩ := sysOpen_spec grown.sound opened₁
  obtain ⟨grown₂, bytes₂, ofile₂, same₄⟩ := sysOpen_spec grown₁.sound opened₂
  obtain ⟨grown₃, bytes₃, ofile₃, same₅⟩ := sysOpen_spec grown₂.sound opened₃
  rw [same₂] at same₃
  simp only [Kernel.proc, Function.update_self, Function.update_idem] at same₃
  rw [same₃] at same₄
  simp only [Kernel.proc, Function.update_self, Function.update_idem] at same₄
  rw [same₄] at same₅
  simp only [Kernel.proc, Function.update_self, Function.update_idem] at same₅
  have current : k₅.curthread = kstack + 3992 := by rw [same₅]
  have current' : k₆.curthread = kstack + 3992 := by
    obtain ⟨q, _, rfl⟩ := enqueue_proc queued
    exact current
  rw [current, same₅] at queued
  have boot : Booted init env k { k₆ with created := k₆.created ++ [kstack + 3992] } :=
    .mk kstack bin cr3 entry base sz regions ofile₃ s₁ k₂.store k₅.store _ k₅.files k₅.fbdevs k₆ took
      file image ⟨k₂, made, rfl⟩ ((grown₁.trans grown₂).trans grown₃)
      (bytes₃.trans (bytes₂.trans bytes₁)) queued
  rw [← current'] at boot
  cases result
  exact boot

end Trunix
