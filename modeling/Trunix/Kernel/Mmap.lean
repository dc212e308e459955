import Trunix.Kernel.Grows

/-!
# New mappings

What `sys_mmap` does to the kernel: nothing, or nothing but take a list node, or it
maps pages behind `mmap_base` and adds a region to the list of the process.
-/

set_option autoImplicit false

namespace Trunix

open Trunix.Lib

def deviceAddr (k : Kernel) (f mem : Nat) : Nat :=
  if (k.files f).data = 0 then load32 k.store.mem (mem + 4) else k.fbdevs (k.files f).data

inductive Backed (k : Kernel) (len flags fd mem : Nat) : Nat → Store → Prop where
  | anon (page : Nat) (s s' : Store) (asked : flags &&& mapAnon ≠ 0)
      (taken : k.store.allocPages len = (page, s)) (cleared : s.memset page 0 (pgRoundup len) = .ok s') :
      Backed k len flags fd mem (v2p page) s'
  | device (fd' : Fin maxfiles) (asked : flags &&& mapAnon = 0) (number : fd'.val = fd)
      (opened : k.proc.ofile fd' ≠ 0) :
      Backed k len flags fd mem (deviceAddr k (k.proc.ofile fd') mem) k.store

theorem backing_cases {env : Env} {k k' : Kernel} {len flags fd mem pa : Nat}
    (done : backing env k len flags fd mem = .ok (some (pa, k'))) :
    ∃ s, Backed k len flags fd mem pa s ∧ k' = { k with store := s } := by
  rw [backing] at done
  split at done
  · rename_i asked
    obtain ⟨_, _, afterTouch⟩ := bind_eq_ok.mp done
    obtain ⟨s, cleared, result⟩ := bind_eq_ok.mp afterTouch
    cases result
    exact ⟨s, .anon _ _ s asked rfl cleared, rfl⟩
  · rename_i asked
    split at done
    · rename_i inside
      simp only at done
      split at done
      · cases done
      · rename_i opened
        split at done
        · cases done
        · obtain ⟨_, _, result⟩ := bind_eq_ok.mp done
          cases result
          exact ⟨k.store, .device ⟨fd, inside⟩ (not_not.mp asked) rfl opened, rfl⟩
        · cases done
    · cases done

inductive Mapped (k : Kernel) (flags fd len : Nat) : Nat × Kernel → Prop where
  | refused : Mapped k flags fd len (0, k)
  | unopened (s : Store) (bytes : s.mem = k.store.mem) (free : s.free = k.store.free)
      (given : s.given = k.store.given) : Mapped k flags fd len (0xFFFFFFFF, { k with store := s })
  | region (mem pa : Nat) (s s₁ s₂ : Store) (limit : u32 (k.proc.mmapBase + len) < mmapLimit)
      (bytes : s.mem = k.store.mem) (free : s.free = k.store.free) (given : s.given = k.store.given)
      (backed : Backed { k with store := s } len flags fd mem pa s₁)
      (linked : allocPt (p2v k.proc.cr3) k.proc.mmapBase pa len userFlags s₁ = .ok s₂) :
      Mapped k flags fd len (k.proc.mmapBase, { k with
        store := s₂
        procs := Function.update k.procs k.curthread
          { k.proc with mmapBase := u32 (k.proc.mmapBase + len) }
        memtab := Function.update k.memtab k.proc.pid { k.memtab k.proc.pid with
          regions := ⟨k.proc.mmapBase, pa, len⟩ :: (k.memtab k.proc.pid).regions } })

theorem sysMmap_cases {env : Env} {k : Kernel} {len flags fd : Nat} {r : Nat × Kernel}
    (done : sysMmap env k len flags fd = .ok r) :
    (len = 0 ∧ r = (0, k)) ∨ len ≠ 0 ∧ Mapped k flags fd (pgRoundup len) r := by
  rw [sysMmap] at done
  by_cases zero : len = 0
  · rw [if_pos zero] at done
    cases done
    exact Or.inl ⟨zero, rfl⟩
  · rw [if_neg zero] at done
    refine Or.inr ⟨zero, ?_⟩
    simp only at done
    by_cases full : mmapLimit ≤ u32 (k.proc.mmapBase + pgRoundup len)
    · rw [if_pos full] at done
      cases done
      exact .refused
    · rw [if_neg full] at done
      obtain ⟨⟨mem, s⟩, allocated, afterAlloc⟩ := bind_eq_ok.mp done
      obtain ⟨bytes, free, given⟩ := Store.kmalloc_heap allocated
      obtain ⟨backed, found, afterBacking⟩ := bind_eq_ok.mp afterAlloc
      cases backed with
      | none =>
          cases afterBacking
          exact .unopened s bytes free given
      | some pair =>
          obtain ⟨pa, k₁⟩ := pair
          obtain ⟨s₁, backing, rfl⟩ := backing_cases found
          obtain ⟨s₂, linked, result⟩ := bind_eq_ok.mp afterBacking
          cases result
          exact .region mem pa s s₁ s₂ (Nat.lt_of_not_le full) bytes free given backing linked

/-! ## Where the call may stop -/

theorem Respected.backed {R : Store → Store → Prop} (h : Respected R) {k : Kernel}
    {len flags fd mem pa : Nat} {s : Store} (b : Backed k len flags fd mem pa s) : R k.store s := by
  cases b with
  | anon page s₁ s₂ asked taken cleared =>
      have alloc := h.pages k.store len
      rw [taken] at alloc
      exact h.trans alloc ((h.memset _ _ _ _).of_ok cleared)
  | device fd' asked number opened => exact h.refl k.store

theorem Respected.sysMmap {R : Store → Store → Prop} (h : Respected R) {env : Env} {k : Kernel}
    {len flags fd : Nat} {r : Nat × Kernel} (done : sysMmap env k len flags fd = .ok r) :
    R k.store r.2.store := by
  rw [Trunix.sysMmap] at done
  split at done
  · cases done
    exact h.refl k.store
  · simp only at done
    split at done
    · cases done
      exact h.refl k.store
    · obtain ⟨⟨mem, s⟩, allocated, afterAlloc⟩ := bind_eq_ok.mp done
      obtain ⟨backed, found, afterBacking⟩ := bind_eq_ok.mp afterAlloc
      have node := h.heap allocated
      cases backed with
      | none =>
          cases afterBacking
          exact node
      | some pair =>
          obtain ⟨pa, k₁⟩ := pair
          obtain ⟨s₁, backing, rfl⟩ := backing_cases found
          obtain ⟨s₂, linked, result⟩ := bind_eq_ok.mp afterBacking
          cases result
          have taken : R s s₁ := h.backed backing
          exact h.trans (h.trans node taken) ((h.allocPt _ _ _ _ _ _).of_ok linked)

theorem Backed.grows {init : List Block} {k : Kernel} {len flags fd mem pa : Nat} {s : Store}
    (sound : k.store.Sound init) (b : Backed k len flags fd mem pa s) : k.store.Grows init s :=
  (grows_respected init).backed b sound

theorem Mapped.grows {init : List Block} {k : Kernel} {flags fd len : Nat} {r : Nat × Kernel}
    (sound : k.store.Sound init) (h : Mapped k flags fd len r) : k.store.Grows init r.2.store := by
  cases h with
  | refused => exact .refl sound
  | unopened s bytes free given => exact (Store.Grows.refl sound).write free given
  | region mem pa s s₁ s₂ limit bytes free given backed linked =>
      have node := (Store.Grows.refl sound).write free given
      have taken := backed.grows node.sound
      exact (node.trans taken).trans ((allocPt_grows taken.sound _ _ _ _ _).of_ok linked)

theorem backing_stops {init : List Block} {env : Env} {k : Kernel} {len flags fd mem : Nat}
    (sound : k.store.Sound init) :
    Returns Halt.InCall (fun r => ∀ pa k', r = some (pa, k') → k'.store.Sound init)
      (backing env k len flags fd mem) := by
  have stops : Returns Halt.InCall (fun _ => True) (backing env k len flags fd mem) := by
    rw [backing]
    split
    · refine (touch_stops _ _).bind fun _ _ => ?_
      exact (Store.memset_grows (Store.allocPages_grows sound _).sound _ _ _).bind fun _ _ => trivial
    · split
      · simp only
        split
        · trivial
        · split
          · trivial
          · exact (touch_stops _ _).bind fun _ _ => trivial
          · trivial
      · trivial
  refine stops.intro fun r done pa k' same => ?_
  rw [same] at done
  obtain ⟨s, backed, rfl⟩ := backing_cases done
  exact (backed.grows sound).sound

theorem sysMmap_stops {init : List Block} {env : Env} {k : Kernel} {len flags fd : Nat}
    (sound : k.store.Sound init) :
    Returns Halt.InCall (fun _ => True) (sysMmap env k len flags fd) := by
  rw [sysMmap]
  split
  · trivial
  · simp only
    split
    · trivial
    · refine (Store.kmalloc_grows sound _).bind fun r node => ?_
      refine (backing_stops (k := { k with store := r.2 }) node.sound).bind fun b sound₁ => ?_
      cases b with
      | none => trivial
      | some pair =>
          obtain ⟨pa, k₁⟩ := pair
          exact (allocPt_grows (sound₁ pa k₁ rfl) _ _ _ _ _).bind fun _ _ => trivial

end Trunix
