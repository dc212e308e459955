import Trunix.Kernel.Ram
import Trunix.Mem.Init
import Trunix.Kernel.Offspring

/-!
# An address space on real memory

`copykvm`, `alloc_pt` and the loop of `sys_fork` over the regions, as programs on memory.
On the store they are the functions of the model.  They read what was written and write to
pages that were handed out, so on memory, where the free lists lie in the headers of the
blocks, they build the same tables and copy the same bytes.
-/

set_option autoImplicit false

namespace Trunix

open Trunix.Lib

abbrev Memory := Prog MemOp MemOp.Answer

namespace Memory

def allocPages (sz : Nat) : Memory Nat := .call (.allocPages sz) .done

def kmalloc (sz : Nat) : Memory Nat := .call (.kmalloc sz) .done

def load (a : Nat) : Memory Nat := .call (.load a) .done

def store (a v : Nat) : Memory Unit := .call (.store a v) .done

def memset (a : Nat) (b : UInt8) (n : Nat) : Memory Unit := .call (.memset a b n) .done

def memmove (dst src n : Nat) : Memory Unit := .call (.memmove dst src n) .done

def touch (a n : Nat) : Memory Unit := .call (.touch a n) .done

def copykvm (kpagedir : Nat) : Memory Nat := do
  let pd ← allocPages 0x1000
  memset pd 0 (4 * 1024)
  let half := kernelOffset / 0x400000
  memmove (pd + 4 * half) (kpagedir + 4 * half) (4 * (1024 - half))
  return pd

def tableFor (pd pde flags : Nat) : Memory Nat := do
  let entry ← load (pd + 4 * pde)
  if entry % 2 = 0 then
    let pt ← allocPages 0x1000
    memset pt 0 (4 * 1024)
    store (pd + 4 * pde) (frameOf (v2p pt) ||| flags)
    return pt
  else
    store (pd + 4 * pde) (entry ||| flags)
    return p2v (frameOf entry)

def mapPage (pd va pa flags : Nat) : Memory Unit := do
  let pde := va / 0x400000
  let pte := va / 0x1000 % 0x400
  let pt ← tableFor pd pde flags
  store (pt + 4 * pte) (frameOf pa ||| flags)

def mapPages (pd flags : Nat) : Nat → Nat → Nat → Memory Unit
  | 0, _, _ => return
  | n + 1, va, pa => do
      mapPage pd va pa flags
      mapPages pd flags n (u32 (va + 0x1000)) (u32 (pa + 0x1000))

def allocPt (pd va pa len flags : Nat) : Memory Unit :=
  mapPages pd flags (pgRoundup len / 0x1000) (pgRounddown va) (pgRounddown pa)

def copyRegions (pd : Nat) : List VmRegion → Nat → List VmRegion → Memory (List VmRegion)
  | [], _, regions => return regions
  | m1 :: rest, mem, regions => do
      let addr ← kmalloc 16
      touch addr 16
      let m2 : VmRegion := ⟨m1.va, v2p mem, m1.len⟩
      allocPt pd m2.va m2.pa m2.len userFlags
      memmove mem (p2v m1.pa) m1.len
      copyRegions pd rest (u32 (mem + pgRoundup m2.len)) (m2 :: regions)

/-- The directory of a child, and the copies of the regions from the block at `blk` on. -/
def forkSpace (kpagedir blk : Nat) (old regions : List VmRegion) : Memory (Nat × List VmRegion) := do
  let pd ← copykvm kpagedir
  let regions ← copyRegions pd old blk regions
  return (pd, regions)

end Memory

/-! ## On the store -/

theorem map_bind {ε α β γ : Type} (x : Except ε α) (f : α → β) (g : β → Except ε γ) :
    (x.map f >>= g) = x >>= fun a => g (f a) := by
  cases x <;> rfl

section OnStore

variable (s : Store)

@[simp] theorem run_allocPages (sz : Nat) :
    (Memory.allocPages sz).run Store.serve s = .ok (s.allocPages sz) := rfl

@[simp] theorem run_kmalloc (sz : Nat) : (Memory.kmalloc sz).run Store.serve s = s.kmalloc sz := by
  change (s.kmalloc sz >>= fun r => .ok (r.1, r.2)) = _
  cases s.kmalloc sz <;> rfl

@[simp] theorem run_load (a : Nat) : (Memory.load a).run Store.serve s = .ok (load32 s.mem a, s) := rfl

@[simp] theorem run_store (a v : Nat) :
    (Memory.store a v).run Store.serve s = .ok ((), { s with mem := store32 s.mem a v }) := rfl

@[simp] theorem run_memset (a : Nat) (b : UInt8) (n : Nat) :
    (Memory.memset a b n).run Store.serve s = (s.memset a b n).map ((), ·) := by
  change ((s.memset a b n).map ((), ·) >>= fun r => .ok (r.1, r.2)) = _
  cases s.memset a b n <;> rfl

@[simp] theorem run_memmove (dst src n : Nat) : (Memory.memmove dst src n).run Store.serve s =
    (s.memmove dst (fun i => s.mem (src + i)) n).map ((), ·) := by
  change ((s.memmove dst (fun i => s.mem (src + i)) n).map ((), ·) >>= fun r => .ok (r.1, r.2)) = _
  cases s.memmove dst (fun i => s.mem (src + i)) n <;> rfl

@[simp] theorem run_touch (a n : Nat) :
    (Memory.touch a n).run Store.serve s = (touch a n).map fun _ => ((), s) := by
  change ((touch a n).map (fun _ => ((), s)) >>= fun r => .ok (r.1, r.2)) = _
  cases touch a n <;> rfl

theorem copykvm_onStore (kpagedir : Nat) :
    (Memory.copykvm kpagedir).run Store.serve s = copykvm kpagedir s := by
  simp only [Memory.copykvm, copykvm, Prog.run_bind, run_allocPages, run_memset, run_memmove, ok_bind,
    map_bind, Prog.run_pure]
  rfl

theorem tableFor_onStore (pd pde flags : Nat) :
    (Memory.tableFor pd pde flags).run Store.serve s = tableFor pd pde flags s := by
  simp only [Memory.tableFor, tableFor, Prog.run_bind, run_load, ok_bind]
  split
  · simp only [Prog.run_bind, run_allocPages, run_memset, run_store, ok_bind, map_bind, Prog.run_pure]
    rfl
  · simp only [Prog.run_bind, run_store, ok_bind, Prog.run_pure]

theorem mapPage_onStore (pd va pa flags : Nat) :
    (Memory.mapPage pd va pa flags).run Store.serve s = (mapPage pd va pa flags s).map ((), ·) := by
  simp only [Memory.mapPage, mapPage, Prog.run_bind, tableFor_onStore, run_store]
  cases tableFor pd (va / 0x400000) flags s <;> rfl

theorem mapPages_onStore (pd flags : Nat) : ∀ (n va pa : Nat) (s : Store),
    (Memory.mapPages pd flags n va pa).run Store.serve s = (mapPages pd flags n va pa s).map ((), ·) := by
  intro n
  induction n with
  | zero => intro va pa s; rfl
  | succ n ih =>
      intro va pa s
      simp only [Memory.mapPages, mapPages, Prog.run_bind, mapPage_onStore, map_bind, ih]
      cases mapPage pd va pa flags s <;> rfl

theorem allocPt_onStore (pd va pa len flags : Nat) :
    (Memory.allocPt pd va pa len flags).run Store.serve s = (allocPt pd va pa len flags s).map ((), ·) :=
  mapPages_onStore pd flags _ _ _ s

theorem copyRegions_onStore (pd : Nat) : ∀ (old : List VmRegion) (mem : Nat) (regions : List VmRegion)
    (s : Store), (Memory.copyRegions pd old mem regions).run Store.serve s =
      copyRegions pd old mem regions s := by
  intro old
  induction old with
  | nil => intro mem regions s; rfl
  | cons m1 rest ih =>
      intro mem regions s
      simp only [Memory.copyRegions, copyRegions, Prog.run_bind, run_kmalloc, run_touch, allocPt_onStore,
        run_memmove, map_bind, ih]

end OnStore

/-! ## Calls that are allowed -/

/-- The record of the written bytes does not change what the store does. -/
theorem seen_simulates (V : Set Nat) : Simulates Store.serve Seen.serve (fun _ _ => True)
    fun t st => t.store = st ∧ V ⊆ t.seen := by
  rintro i t _ ⟨rfl, grown⟩ _
  rw [Seen.serve]
  cases Store.serve i t.store with
  | error e => exact .error e
  | ok r => exact .ok ⟨rfl, grown.trans Set.subset_union_left⟩

theorem seen_agrees {α : Type} (p : Memory α) (s : Seen) :
    Agree (fun t st => t.store = st ∧ s.seen ⊆ t.seen) (p.run Seen.serve s) (p.run Store.serve s.store) :=
  (seen_simulates s.seen).run p ⟨rfl, le_refl s.seen⟩ (p.meets_true s.store)

theorem run_seen {α : Type} {p : Memory α} {s s' : Seen} {a : α} (run : p.run Seen.serve s = .ok (a, s')) :
    p.run Store.serve s.store = .ok (a, s'.store) ∧ s.seen ⊆ s'.seen := by
  have agree := seen_agrees p s
  rw [run] at agree
  obtain ⟨st, done, equal, grown⟩ := agree.of_ok_left
  exact ⟨by rw [done, equal], grown⟩

theorem exists_seen {α : Type} {p : Memory α} {s : Seen} {a : α} {st : Store}
    (run : p.run Store.serve s.store = .ok (a, st)) : ∃ seen, p.run Seen.serve s = .ok (a, ⟨st, seen⟩) := by
  have agree := seen_agrees p s
  rw [run] at agree
  obtain ⟨t, done, equal, _⟩ := agree.of_ok
  exact ⟨t.seen, by rw [done, ← equal]⟩

theorem Store.Sound.clear_of_given {freelist heap base : Nat} {init : List Block} {s : Store} {b : Block}
    (h : s.Sound init) (layout : RamLayout freelist heap base init) (mem : b ∈ s.given) :
    ∀ x, b.addr ≤ x → x < b.addr + b.sz → x ∉ s.hidden freelist heap base := by
  obtain ⟨c, memC, inside⟩ := h.tidy.inside b (List.mem_append_right _ mem)
  have cell := layout.freeApart c memC
  have cell' := layout.heapApart c memC
  have heaps := layout.baseApart c memC
  simp only [Block.Inside] at inside
  rintro x lo hi (⟨lo', hi'⟩ | ⟨lo', hi'⟩ | ⟨lo', hi'⟩ | ⟨d, memD, lo', hi'⟩)
  · omega
  · omega
  · omega
  · have apart := (List.pairwise_append.mp h.tidy.apart).2.2 d memD b mem
    simp only [Block.Apart] at apart
    omega

section Rules

variable {freelist heap base : Nat} {s : Seen} {β : Type} {Q : β → Seen → Prop}

theorem Seen.quiet (s : Seen) : (⟨s.store, s.seen ∪ ∅⟩ : Seen) = s := by rw [Set.union_empty]

theorem meets_allocPages {sz : Nat} {f : Nat → Memory β}
    (next : (f (s.store.allocPages sz).1).Meets Seen.serve (MemOp.Allowed freelist heap base) Q
      ⟨(s.store.allocPages sz).2, s.seen⟩) :
    (Memory.allocPages sz >>= f).Meets Seen.serve (MemOp.Allowed freelist heap base) Q s := by
  refine ⟨trivial, fun r answer => ?_⟩
  cases answer
  rw [← Seen.quiet ⟨(s.store.allocPages sz).2, s.seen⟩] at next
  exact next

theorem meets_kmalloc {sz : Nat} {f : Nat → Memory β} (small : sz ≤ 0xFFFFFFF6)
    (next : ∀ p st, s.store.kmalloc sz = .ok (p, st) →
      (f p).Meets Seen.serve (MemOp.Allowed freelist heap base) Q ⟨st, s.seen⟩) :
    (Memory.kmalloc sz >>= f).Meets Seen.serve (MemOp.Allowed freelist heap base) Q s := by
  refine ⟨small, fun r answer => ?_⟩
  change (s.store.kmalloc sz).map _ = _ at answer
  cases taken : s.store.kmalloc sz with
  | error e =>
      rw [taken] at answer
      cases answer
  | ok got =>
      rw [taken] at answer
      cases answer
      have later := next got.1 got.2 taken
      rw [← Seen.quiet ⟨got.2, s.seen⟩] at later
      exact later

theorem meets_load {a : Nat} {f : Nat → Memory β} (read : ∀ x, a ≤ x → x < a + 4 → x ∈ s.seen)
    (next : (f (load32 s.store.mem a)).Meets Seen.serve (MemOp.Allowed freelist heap base) Q s) :
    (Memory.load a >>= f).Meets Seen.serve (MemOp.Allowed freelist heap base) Q s := by
  refine ⟨read, fun r answer => ?_⟩
  cases answer
  rw [← Seen.quiet s] at next
  exact next

theorem meets_store {a v : Nat} {f : Unit → Memory β}
    (clear : ∀ x, a ≤ x → x < a + 4 → x ∉ s.store.hidden freelist heap base)
    (next : (f ()).Meets Seen.serve (MemOp.Allowed freelist heap base) Q
      ⟨{ s.store with mem := store32 s.store.mem a v }, s.seen ∪ Set.Ico a (a + 4)⟩) :
    (Memory.store a v >>= f).Meets Seen.serve (MemOp.Allowed freelist heap base) Q s := by
  refine ⟨clear, fun r answer => ?_⟩
  cases answer
  exact next

theorem meets_touch {a n : Nat} {f : Unit → Memory β}
    (next : (f ()).Meets Seen.serve (MemOp.Allowed freelist heap base) Q s) :
    (Memory.touch a n >>= f).Meets Seen.serve (MemOp.Allowed freelist heap base) Q s := by
  refine ⟨trivial, fun r answer => ?_⟩
  change ((touch a n).map fun _ => ((), s.store)).map _ = _ at answer
  cases mapped : touch a n with
  | error e =>
      rw [mapped] at answer
      cases answer
  | ok u =>
      rw [mapped] at answer
      cases answer
      rw [← Seen.quiet s] at next
      exact next

theorem meets_memset {a n : Nat} {b : UInt8} {f : Unit → Memory β}
    (next : (n = 0 ∨ 0x1000 ≤ a) → (∀ x, a ≤ x → x < a + n → x ∉ s.store.hidden freelist heap base) ∧
      (f ()).Meets Seen.serve (MemOp.Allowed freelist heap base) Q
        ⟨{ s.store with mem := fill s.store.mem a n b }, s.seen ∪ Set.Ico a (a + n)⟩) :
    (Memory.memset a b n >>= f).Meets Seen.serve (MemOp.Allowed freelist heap base) Q s := by
  refine ⟨fun low => (next (.inr low)).1, fun r answer => ?_⟩
  change ((s.store.memset a b n).map ((), ·)).map _ = _ at answer
  rw [Store.memset] at answer
  cases mapped : touch a n with
  | error e =>
      rw [mapped] at answer
      cases answer
  | ok u =>
      rw [mapped] at answer
      cases answer
      exact (next (touch_eq_ok mapped)).2

theorem meets_memmove {dst src n : Nat} {f : Unit → Memory β}
    (next : (n = 0 ∨ 0x1000 ≤ dst) → (∀ x, src ≤ x → x < src + n → x ∈ s.seen) ∧
      (∀ x, dst ≤ x → x < dst + n → x ∉ s.store.hidden freelist heap base) ∧
      (f ()).Meets Seen.serve (MemOp.Allowed freelist heap base) Q
        ⟨{ s.store with mem := blit s.store.mem dst n fun i => s.store.mem (src + i) },
          s.seen ∪ Set.Ico dst (dst + n)⟩) :
    (Memory.memmove dst src n >>= f).Meets Seen.serve (MemOp.Allowed freelist heap base) Q s := by
  refine ⟨fun low => ⟨(next (.inr low)).1, (next (.inr low)).2.1⟩, fun r answer => ?_⟩
  change ((s.store.memmove dst (fun i => s.store.mem (src + i)) n).map ((), ·)).map _ = _ at answer
  rw [Store.memmove] at answer
  cases mapped : touch dst n with
  | error e =>
      rw [mapped] at answer
      cases answer
  | ok u =>
      rw [mapped] at answer
      cases answer
      exact (next (touch_eq_ok mapped)).2.2

end Rules

/-! ## The programs keep to them -/

structure Seen.HasDir (init : List Block) (pd : Nat) (s : Seen) : Prop where
  sound : s.store.Sound init
  dir : PageDir s.store pd
  bytes : tableBytes s.store.mem pd ⊆ s.seen

theorem Seen.HasDir.write {init : List Block} {pd : Nat} {s : Seen} {mem : Mem} {W : Set Nat}
    (h : s.HasDir init pd) (frame : Frame s.store.mem mem W) (avoid : ∀ x ∈ page pd, x ∉ W) :
    Seen.HasDir init pd ⟨{ s.store with mem := mem }, s.seen ∪ W⟩ ∧
      tableBytes mem pd = tableBytes s.store.mem pd := by
  have kept : PageDir { s.store with mem := mem } pd ∧
      ∀ i < 1024, load32 mem (pd + 4 * i) = load32 s.store.mem (pd + 4 * i) :=
    h.dir.of_frame (fun _ mem => mem) frame avoid
  have same := tableBytes_congr kept.2
  refine ⟨⟨h.sound.write rfl rfl, kept.1, ?_⟩, same⟩
  change tableBytes mem pd ⊆ _
  rw [same]
  exact h.bytes.trans Set.subset_union_left

section Meets

variable {freelist heap base : Nat} {init : List Block} (layout : RamLayout freelist heap base init)
  {s : Seen} {pd : Nat}

include layout

theorem copykvm_meets (sound : s.store.Sound init) {kpagedir : Nat}
    (half : ∀ x, kpagedir + 2048 ≤ x → x < kpagedir + 4096 → x ∈ s.seen) :
    (Memory.copykvm kpagedir).Meets Seen.serve (MemOp.Allowed freelist heap base)
      (fun pd s' => s'.HasDir init pd) s := by
  have written : (Memory.copykvm kpagedir).Meets Seen.serve (MemOp.Allowed freelist heap base)
      (fun pd s' => page pd ⊆ s'.seen) s := by
    apply meets_allocPages
    have alloc := sound.alloc 0x1000
    generalize s.store.allocPages 0x1000 = result at alloc
    cases alloc with
    | none small =>
        apply meets_memset
        intro low
        rcases low with nothing | mapped
        · cases nothing
        · cases mapped
    | zero a free nothing => cases nothing
    | some a free pos fits sound₁ =>
        have size : pgRoundup 0x1000 = 0x1000 := by decide
        rw [size] at sound₁ ⊢
        have clear := sound₁.clear_of_given layout List.mem_cons_self
        have upper : kernelOffset / 0x400000 = 512 := by decide
        apply meets_memset
        intro low
        refine ⟨clear, ?_⟩
        simp only [upper]
        apply meets_memmove
        intro low'
        refine ⟨fun x lo hi => ?_, fun x lo hi => clear x (by simp only; omega) (by simp only; omega), ?_⟩
        · exact .inl (half x (by omega) (by omega))
        · intro x inside
          exact .inl (.inr inside)
  refine written.mono fun pd s' run bytes => ?_
  have done := (run_seen run).1
  rw [copykvm_onStore] at done
  obtain ⟨sound', dir, empty, _⟩ := copykvm_spec sound done
  refine ⟨sound', dir, ?_⟩
  rintro x (own | ⟨i, lt, here, _⟩)
  · exact bytes own
  · exact absurd here (empty i lt)

theorem tableFor_meets (h : s.HasDir init pd) {pde : Nat} (slot : pde < 512) :
    (Memory.tableFor pd pde userFlags).Meets Seen.serve (MemOp.Allowed freelist heap base)
      (fun pt s' => s'.HasDir init pd ∧ s.seen ⊆ s'.seen ∧ ⟨pt, 0x1000⟩ ∈ s'.store.given ∧ pt ≠ pd) s := by
  have inPage : ∀ x, pd + 4 * pde ≤ x → x < pd + 4 * pde + 4 → x ∈ page pd := by
    intro x lo hi
    simp only [page, Set.mem_Ico]
    omega
  have written : (Memory.tableFor pd pde userFlags).Meets Seen.serve (MemOp.Allowed freelist heap base)
      (fun pt s' => ¬ present s.store.mem pd pde → page pt ⊆ s'.seen) s := by
    apply meets_load fun x lo hi => h.bytes (.inl (inPage x lo hi))
    split
    · apply meets_allocPages
      have alloc := h.sound.alloc 0x1000
      generalize s.store.allocPages 0x1000 = result at alloc
      cases alloc with
      | none small =>
          apply meets_memset
          intro low
          rcases low with nothing | mapped
          · cases nothing
          · cases mapped
      | zero a free nothing => cases nothing
      | some a free pos fits sound₁ =>
          have size : pgRoundup 0x1000 = 0x1000 := by decide
          rw [size] at sound₁ ⊢
          apply meets_memset
          intro low
          refine ⟨sound₁.clear_of_given layout List.mem_cons_self, ?_⟩
          apply meets_store
          · intro x lo hi
            have inside := inPage x lo hi
            exact sound₁.clear_of_given layout (List.mem_cons_of_mem _ h.dir.own) x inside.1 inside.2
          · intro _ x inside
            exact .inl (.inr inside)
    · rename_i odd
      apply meets_store
      · intro x lo hi
        have inside := inPage x lo hi
        exact h.sound.clear_of_given layout h.dir.own x inside.1 inside.2
      · intro absent
        refine absurd ?_ absent
        rw [present]
        omega
  refine written.mono fun pt s' run fresh => ?_
  obtain ⟨done, grown⟩ := run_seen run
  rw [tableFor_onStore] at done
  have ready := tableFor_ready h.sound h.dir slot done
  obtain ⟨own, differ⟩ := ready.mapping.dir.tables pde slot ready.here
  rw [ready.isTable] at own differ
  refine ⟨⟨ready.mapping.sound, ready.mapping.dir, ?_⟩, grown, own, differ⟩
  rintro x (inDir | ⟨i, lt, here, inside⟩)
  · exact grown (h.bytes (.inl inDir))
  · by_cases before : present s.store.mem pd i
    · rw [(ready.mapping.keeps i lt before).2] at inside
      exact grown (h.bytes (.inr ⟨i, lt, before, inside⟩))
    · -- the slot was filled by this call
      have same : i = pde := by
        by_contra other
        apply before
        rw [present, ← ready.others i lt (.inr other)]
        exact here
      subst same
      rw [ready.isTable] at inside
      exact fresh before inside

theorem mapPage_meets (h : s.HasDir init pd) {va pa : Nat} (user : va < 0x80000000) :
    (Memory.mapPage pd va pa userFlags).Meets Seen.serve (MemOp.Allowed freelist heap base)
      (fun _ s' => s'.HasDir init pd ∧ s.seen ⊆ s'.seen) s := by
  apply Prog.Meets.bind
  have slot : va / 0x400000 < 512 := by omega
  refine (tableFor_meets layout h slot).mono fun pt s₁ _ found => ?_
  obtain ⟨h₁, grown, own, differ⟩ := found
  refine ⟨fun x lo hi => ?_, fun r answer => ?_⟩
  · exact h₁.sound.clear_of_given layout own x (by simp only; omega) (by simp only; omega)
  · cases answer
    have apart := h₁.sound.pages_apart own h₁.dir.own differ
    refine ⟨(h₁.write (store32_frame _ _ _) fun x inside out => ?_).1, grown.trans Set.subset_union_left⟩
    simp only [page, Set.mem_Ico] at inside out
    omega

theorem mapPages_meets : ∀ (n va pa : Nat) (s : Seen), s.HasDir init pd → va + n * 0x1000 ≤ 0x80000000 →
    (Memory.mapPages pd userFlags n va pa).Meets Seen.serve (MemOp.Allowed freelist heap base)
      (fun _ s' => s'.HasDir init pd ∧ s.seen ⊆ s'.seen) s := by
  intro n
  induction n with
  | zero => intro va pa s h _; exact ⟨h, le_refl _⟩
  | succ n ih =>
      intro va pa s h user
      apply Prog.Meets.bind
      refine (mapPage_meets layout h (by omega)).mono fun _ s₁ _ first => ?_
      rw [u32_of_lt (show va + 0x1000 < 0x100000000 by omega)]
      refine (ih (va + 0x1000) (u32 (pa + 0x1000)) s₁ first.1 (by omega)).mono fun _ s₂ _ later => ?_
      exact ⟨later.1, first.2.trans later.2⟩

theorem allocPt_meets (h : s.HasDir init pd) {va pa len : Nat}
    (user : pgRounddown va + pgRoundup len ≤ 0x80000000) :
    (Memory.allocPt pd va pa len userFlags).Meets Seen.serve (MemOp.Allowed freelist heap base)
      (fun _ s' => s'.HasDir init pd ∧ s.seen ⊆ s'.seen) s := by
  have whole : pgRoundup len / 0x1000 * 0x1000 = pgRoundup len := by
    have := pgRoundup_mod len
    omega
  exact mapPages_meets layout _ _ _ s h (by rw [whole]; exact user)

/-- The loop of `sys_fork` reads the regions of the parent, and writes those of the child. -/
theorem copyRegions_meets {blk sz : Nat} : ∀ (old : List VmRegion) (off : Nat) (regions : List VmRegion)
    (s : Seen), s.HasDir init pd → ⟨blk, sz⟩ ∈ s.store.given →
    (∀ x ∈ tableBytes s.store.mem pd, x ∉ Set.Ico blk (blk + sz)) → (∀ m ∈ old, m.User) →
    (∀ m ∈ old, ∀ x, p2v m.pa ≤ x → x < p2v m.pa + m.len → x ∈ s.seen) → off + span old ≤ sz →
    (Memory.copyRegions pd old (u32 (blk + off)) regions).Meets Seen.serve (MemOp.Allowed freelist heap base)
      (fun _ s' => s'.HasDir init pd ∧ ∀ x, blk + off ≤ x → x < blk + (off + span old) → x ∈ s'.seen) s := by
  intro old
  induction old with
  | nil =>
      intro off regions s h _ _ _ _ _
      refine ⟨h, fun x lo hi => ?_⟩
      simp only [span, List.map_nil, List.sum_nil] at hi
      omega
  | cons m rest ih =>
      intro off regions s h own clear users source room
      have user := users m List.mem_cons_self
      have spanEq : span (m :: rest) = m.len + span rest := by
        simp only [span, List.map_cons, List.sum_cons, user.rounded]
      have next : u32 (u32 (blk + off) + pgRoundup m.len) = u32 (blk + (off + m.len)) := by
        rw [u32_add, user.rounded, Nat.add_assoc]
      have range : pgRounddown m.va + pgRoundup m.len ≤ 0x80000000 := by
        rw [user.rounded]
        exact user.2
      have paged := h.sound.paged own
      simp only at paged
      apply meets_kmalloc (by decide)
      intro node st taken
      obtain ⟨bytes, free, given⟩ := Store.kmalloc_heap taken
      have dir : PageDir st pd :=
        (h.dir.of_frame (fun b mem => given ▸ mem) (by rw [bytes]; exact Frame.refl _ ∅) fun _ _ => id).1
      have h₁ : Seen.HasDir init pd ⟨st, s.seen⟩ := by
        refine ⟨h.sound.write free given, dir, ?_⟩
        rw [bytes]
        exact h.bytes
      apply meets_touch
      apply Prog.Meets.bind
      refine (allocPt_meets layout h₁ range).mono fun _ s₂ run mapped => ?_
      have linked := (run_seen run).1
      rw [allocPt_onStore] at linked
      -- the directory got tables only, and the block of the child is still apart from them
      have filling : Mapping init pd st s₂.store := by
        cases result : allocPt pd m.va (v2p (u32 (blk + off))) m.len userFlags st with
        | error e =>
            rw [result] at linked
            cases linked
        | ok s₃ =>
            rw [result] at linked
            cases linked
            exact (allocPt_spec h₁.sound h₁.dir (v2p_lt _) range result).1
      have own₁ : ⟨blk, sz⟩ ∈ st.given := given ▸ own
      have own₂ : ⟨blk, sz⟩ ∈ s₂.store.given := filling.mem_given own₁
      have clear₂ : ∀ x ∈ tableBytes s₂.store.mem pd, x ∉ Set.Ico blk (blk + sz) := by
        have before : ∀ x ∈ tableBytes st.mem pd, x ∉ Set.Ico blk (blk + sz) := by
          rw [bytes]
          exact clear
        exact filling.clear own₁ before
      apply meets_memmove
      intro low
      have place : ∀ x ∈ Set.Ico (u32 (blk + off)) (u32 (blk + off) + m.len), blk ≤ x ∧ x < blk + sz := by
        intro x inside
        simp only [Set.mem_Ico] at inside
        rw [u32_of_lt (by omega)] at inside
        omega
      refine ⟨fun x lo hi => mapped.2 (source m List.mem_cons_self x lo hi), fun x lo hi => ?_, ?_⟩
      · have within := place x ⟨lo, hi⟩
        exact mapped.1.sound.clear_of_given layout own₂ x within.1 within.2
      · have frame := blit_frame s₂.store.mem (u32 (blk + off)) m.len
          (fun i => s₂.store.mem (p2v m.pa + i))
        have apart : ∀ x ∈ page pd, x ∉ Set.Ico (u32 (blk + off)) (u32 (blk + off) + m.len) :=
          fun x inDir inside => clear₂ x (.inl inDir) (place x inside)
        obtain ⟨h₃, same⟩ := mapped.1.write frame apart
        rw [next]
        refine (ih (off + m.len) _ _ h₃ own₂ ?_ (fun other mem => users other (List.mem_cons_of_mem _ mem))
          (fun other mem x lo hi => .inl (mapped.2 (source other (List.mem_cons_of_mem _ mem) x lo hi)))
          (by omega)).mono ?_
        · intro x inTables
          change x ∈ tableBytes (blit _ _ _ _) pd at inTables
          rw [same] at inTables
          exact clear₂ x inTables
        · intro _ s₄ later done
          refine ⟨done.1, fun x lo hi => ?_⟩
          by_cases here : x < blk + (off + m.len)
          · apply (run_seen later).2
            right
            rw [Set.mem_Ico, u32_of_lt (by omega)]
            omega
          · exact done.2 x (by omega) (by omega)

end Meets

/-! ## On memory -/

/-- The walk finds in memory what it finds in the store. -/
theorem HoldsStore.walk_eq {freelist heap base : Nat} {init : List Block} {m : Mem} {s : Seen} {pd x : Nat}
    (h : HoldsStore freelist heap base init m s) (dir : s.HasDir init pd) (user : x < 0x80000000) :
    walk m pd x = walk s.store.mem pd x := by
  have frame : Frame s.store.mem m { x | x ∉ s.seen } := fun y out => h.same y (not_not.mp out)
  exact walk_of_frame frame user fun y inTables out => out (dir.bytes inTables)

theorem forall₂_imp_mem {α β : Type} {R R' : α → β → Prop} {L : List α} {L' : List β}
    (all : List.Forall₂ R L L') (imp : ∀ a ∈ L, ∀ b ∈ L', R a b → R' a b) : List.Forall₂ R' L L' := by
  induction all with
  | nil => exact .nil
  | cons first rest ih =>
      exact .cons (imp _ List.mem_cons_self _ List.mem_cons_self first)
        (ih fun a memA b memB => imp a (List.mem_cons_of_mem _ memA) b (List.mem_cons_of_mem _ memB))

/-- Two implementations of one interface: whatever program runs, and however it goes on
with the answers, as long as it reads what was written and keeps off the data of the allocators, the
allocators in memory give it the addresses and bytes that the lists of the store give it, or
stop it with the same error, and memory still holds the store. -/
theorem ram_refines_store {freelist heap base : Nat} {init : List Block}
    (layout : RamLayout freelist heap base init) {m : Mem} {s : Seen}
    (holds : HoldsStore freelist heap base init m s)
    {α : Type} (p : Memory α) {Q : α → Seen → Prop}
    (meets : p.Meets Seen.serve (MemOp.Allowed freelist heap base) Q s) :
    Agree (HoldsStore freelist heap base init) (p.run (ramServe freelist heap) m) (p.run Seen.serve s) ∧
    (p.run (ramServe freelist heap) m).map Prod.fst = (p.run Store.serve s.store).map Prod.fst := by
  have agree := (ram_simulates layout).run p holds meets
  refine ⟨agree, ?_⟩
  have twin := seen_agrees p s
  generalize p.run (ramServe freelist heap) m = x at agree
  generalize p.run Seen.serve s = y at agree twin
  generalize p.run Store.serve s.store = z at twin
  cases agree with
  | ok _ => cases twin with | ok _ => rfl
  | error e => cases twin with | error _ => rfl

/-- `sys_fork` on memory, from `copykvm` to the end of the loop over the regions: when the block for
the child has room for the regions of the parent, the code builds in memory the directory and
the tables that map every region of the child to its part of the block, with the bytes of the
parent in it, and leaves both free lists in order. -/
theorem fork_space_on_ram {freelist heap base : Nat} {init B : List Block}
    (layout : RamLayout freelist heap base init) {m : Mem} {s : Seen}
    (holds : HoldsStore freelist heap base init m s)
    {kpagedir blk sz pd : Nat} {old regions child : List VmRegion} {s' : Store}
    (half : ∀ x, kpagedir + 2048 ≤ x → x < kpagedir + 4096 → x ∈ s.seen)
    (own : ⟨blk, sz⟩ ∈ s.store.given) (parents : ∀ b ∈ B, b ∈ s.store.given ∧ b ≠ ⟨blk, sz⟩)
    (inside : ∀ r ∈ old, ∃ b ∈ B, b.addr ≤ p2v r.pa ∧ p2v r.pa + r.len ≤ b.addr + b.sz)
    (source : ∀ r ∈ old, ∀ x, p2v r.pa ≤ x → x < p2v r.pa + r.len → x ∈ s.seen)
    (users : ∀ r ∈ old, r.User) (disjoint : (old.map VmRegion.range).Pairwise Disjoint)
    (room : span old ≤ sz)
    (done : (Memory.forkSpace kpagedir blk old regions).run Store.serve s.store = .ok ((pd, child), s')) :
    ∃ m' seen, (Memory.forkSpace kpagedir blk old regions).run (ramServe freelist heap) m =
        .ok ((pd, child), m') ∧
      HoldsStore freelist heap base init m' ⟨s', seen⟩ ∧
      child = (copies old blk).reverse ++ regions ∧ List.Forall₂ (Cloned m m' pd) old (copies old blk) := by
  have paged := holds.sound.paged own
  simp only at paged
  have start : u32 (blk + 0) = blk := by
    by_cases low : blk < 0x100000000
    · exact u32_of_lt low
    · omega
  -- what the store does
  have result := done
  simp only [Memory.forkSpace, Prog.run_bind, copykvm_onStore, copyRegions_onStore] at result
  obtain ⟨⟨pd', s₁⟩, copied, afterCopy⟩ := bind_eq_ok.mp result
  obtain ⟨⟨child', s₂⟩, filled, final⟩ := bind_eq_ok.mp afterCopy
  obtain ⟨⟨rfl, rfl⟩, rfl⟩ : (pd = pd' ∧ child = child') ∧ s' = s₂ := by
    cases final
    exact ⟨⟨rfl, rfl⟩, rfl⟩
  obtain ⟨sound₁, dir₁, empty, _, given₁, frame₁⟩ := copykvm_spec holds.sound copied
  have fresh : ∀ b ∈ s.store.given, ∀ x, b.addr ≤ x → x < b.addr + b.sz → x ∉ page pd := by
    intro b mem x lo hi inPage
    have apart := sound₁.apart
    rw [given₁] at apart
    have this := (List.pairwise_cons.mp apart).1 b mem
    simp only [page, Set.mem_Ico] at inPage
    simp only [Block.Apart] at this
    omega
  have onlyDir : ∀ x ∈ tableBytes s₁.mem pd, x ∈ page pd := by
    rintro x (inDir | ⟨i, lt, here, _⟩)
    · exact inDir
    · exact absurd here (empty i lt)
  have own₁ : ⟨blk, sz⟩ ∈ s₁.given := given₁ ▸ List.mem_cons_of_mem _ own
  have clear₁ : ∀ x ∈ tableBytes s₁.mem pd, x ∉ Set.Ico blk (blk + sz) := fun x inTables within =>
    fresh _ own x within.1 within.2 (onlyDir x inTables)
  have cloning : ∀ b ∈ B, Cloning init pd blk sz b s.store.mem s₁ := by
    intro b mem
    obtain ⟨given, differ⟩ := parents b mem
    refine ⟨sound₁, dir₁, own₁, clear₁, given₁ ▸ List.mem_cons_of_mem _ given, differ, ?_, ?_⟩
    · exact fun x inTables within => fresh b given x within.1 within.2 (onlyDir x inTables)
    · exact fun x lo hi => frame₁ x (fresh b given x lo hi)
  have list := copyRegions_regions _ _ _ _ filled
  have clones := Cloning.run_blocks old 0 regions s₁ cloning users inside disjoint (by decide) (by omega)
    (by rw [start]; exact filled)
  have places := copies_inside paged.2.2.2.1 (show blk + span old ≤ 0x100000000 by omega) old 0
    (fun m listed => (users m listed).light) (by omega)
  rw [start] at places
  -- what the programs may do
  have meets : (Memory.forkSpace kpagedir blk old regions).Meets Seen.serve
      (MemOp.Allowed freelist heap base)
      (fun r s' => s'.HasDir init r.1 ∧ ∀ x, blk ≤ x → x < blk + span old → x ∈ s'.seen) s := by
    apply Prog.Meets.bind
    refine (copykvm_meets layout holds.sound half).mono fun pd' t run dir => ?_
    obtain ⟨copied', grown⟩ := run_seen run
    rw [copykvm_onStore, copied] at copied'
    obtain ⟨rfl, rfl⟩ : pd = pd' ∧ s₁ = t.store := by
      cases copied'
      exact ⟨rfl, rfl⟩
    apply Prog.Meets.bind
    have loop := copyRegions_meets layout old 0 regions t dir own₁ clear₁ users
      (fun r mem x lo hi => grown (source r mem x lo hi)) (by omega)
    rw [start] at loop
    refine loop.mono fun r t' _ post => ⟨post.1, fun x lo hi => post.2 x (by omega) (by omega)⟩
  obtain ⟨agree, _⟩ := ram_refines_store layout holds _ meets
  obtain ⟨seen, run⟩ := exists_seen done
  obtain ⟨dir, written⟩ := meets.of_run run
  rw [run] at agree
  obtain ⟨m', ran, holds'⟩ := agree.of_ok
  refine ⟨m', seen, ran, holds', list, ?_⟩
  have cloned := clones.cloned
  rw [start] at cloned
  refine forall₂_imp_mem cloned fun r memR c memC clone => ?_
  refine ⟨clone.range, clone.first, clone.len, fun x within => ?_, fun i lt => ?_⟩
  · rw [holds'.walk_eq dir ((users r memR).below within)]
    exact clone.mapped x within
  · have nonempty : c.len ≠ 0 := by
      rw [clone.len]
      omega
    have place := places c memC nonempty
    have lenEq := clone.len
    rw [holds'.same _ (written _ (by omega) (by omega)), clone.bytes i lt]
    exact (holds.same _ (source r memR _ (by omega) (by omega))).symm

def spacedBlocks : Mem :=
  initHeap 0x80480010 (store32 (store32 (store32 (store32 (store32 (store32 (store32 (fun _ => 0)
    0x80480000 0x80001000) 0x80001000 0x1000) 0x80001004 0x80003000) 0x80001008 0x80480000)
    0x80003000 0x1000) 0x80003004 0) 0x80003008 0x80001004) 0x80010000

def twoPages : Store :=
  ⟨spacedBlocks, [⟨0x80001000, 0x1000⟩, ⟨0x80003000, 0x1000⟩], [⟨0x80010000, 0x10000⟩],
    [⟨0x80004000, 0x1000⟩, ⟨0x80005000, 0x1000⟩]⟩

theorem twoPages_layout :
    RamLayout 0x80480000 0x80480010 0x80010000 [⟨0x80001000, 0x1000⟩, ⟨0x80003000, 0x3000⟩] := by
  refine ⟨⟨?_, ?_, ?_, ?_, ?_⟩, ?_, ?_, ?_, ?_, ?_, ?_⟩ <;> decide

theorem twoPages_holds : HoldsStore 0x80480000 0x80480010 0x80010000
    [⟨0x80001000, 0x1000⟩, ⟨0x80003000, 0x3000⟩] twoPages.mem ⟨twoPages, Set.Ico 0x80004000 0x80005000 ∪ Set.Ico 0x80300000 0x80301000⟩ := by
  have blocks : ∀ b ∈ twoPages.free ++ twoPages.given,
      b ∈ [⟨0x80001000, 0x1000⟩, ⟨0x80003000, 0x1000⟩, ⟨0x80004000, 0x1000⟩, ⟨0x80005000, 0x1000⟩] :=
    fun b mem => mem
  refine ⟨⟨⟨fun b mem => ?_, ?_, ?_⟩, by decide⟩, by decide +kernel,
    ⟨[], HeapArena.start_sound _ twoPages_layout.place⟩, fun x _ => rfl, ?_⟩
  · have all := blocks b mem
    simp only [List.mem_cons, List.not_mem_nil, or_false] at all
    rcases all with rfl | rfl | rfl | rfl <;> constructor <;> decide
  · have inside : ∀ b ∈ twoPages.free ++ twoPages.given,
        ∃ c ∈ [(⟨0x80001000, 0x1000⟩ : Block), ⟨0x80003000, 0x3000⟩],
          c.addr ≤ b.addr ∧ b.addr + b.sz ≤ c.addr + c.sz := by decide
    exact inside
  · have apart : (twoPages.free ++ twoPages.given).Pairwise fun b c =>
        b.addr + b.sz ≤ c.addr ∨ c.addr + c.sz ≤ b.addr := by decide
    exact apart
  · intro x seen
    simp only [Set.mem_union, Set.mem_Ico] at seen
    rintro (cell | cell | inHeap | ⟨b, mem, lo, hi⟩)
    · omega
    · omega
    · omega
    · have all := blocks b (List.mem_append_left _ mem)
      simp only [twoPages, List.mem_cons, List.not_mem_nil, or_false] at mem
      rcases mem with rfl | rfl <;> simp only at lo hi <;> omega

/-- The two free pages become the directory of the child and its table. -/
theorem fork_space_on_ram_two_pages : ∃ pd child m',
    (Memory.forkSpace 0x80300000 0x80005000 [⟨0x10000, 0x4000, 0x1000⟩] []).run
        (ramServe 0x80480000 0x80480010) twoPages.mem = .ok ((pd, child), m') ∧
      child = [⟨0x10000, 0x5000, 0x1000⟩] ∧
      List.Forall₂ (Cloned twoPages.mem m' pd) [⟨0x10000, 0x4000, 0x1000⟩] [⟨0x10000, 0x5000, 0x1000⟩] := by
  have runs : ((Memory.forkSpace 0x80300000 0x80005000 [⟨0x10000, 0x4000, 0x1000⟩] []).run Store.serve
      twoPages).toOption.isSome = true := by decide +kernel
  cases done : (Memory.forkSpace 0x80300000 0x80005000 [⟨0x10000, 0x4000, 0x1000⟩] []).run Store.serve
      twoPages with
  | error e =>
      rw [done] at runs
      cases runs
  | ok r =>
      obtain ⟨⟨pd, child⟩, s'⟩ := r
      have parents : ∀ b ∈ [(⟨0x80004000, 0x1000⟩ : Block)],
          b ∈ twoPages.given ∧ b ≠ ⟨0x80005000, 0x1000⟩ := by
        decide
      have user : ∀ r ∈ [(⟨0x10000, 0x4000, 0x1000⟩ : VmRegion)], r.User := by
        intro r mem
        rw [List.mem_singleton.mp mem]
        exact ⟨by decide, by decide⟩
      obtain ⟨m', _, ran, _, list, cloned⟩ := fork_space_on_ram twoPages_layout twoPages_holds
        (fun x lo hi => .inr ⟨by omega, by omega⟩) (show ⟨0x80005000, 0x1000⟩ ∈ twoPages.given by decide)
        parents (by decide) (fun r mem x lo hi => by
          rw [List.mem_singleton.mp mem] at lo hi
          exact .inl ⟨lo, hi⟩)
        user (List.pairwise_singleton _ _) (by decide) done
      exact ⟨pd, child, m', ran, list, cloned⟩

end Trunix
