import Trunix.Kernel.Copy
import Trunix.Kernel.Image

/-!
# Steps that go astray

The kernel of the model keeps the headers of free memory, the processes and the region
lists beside the bytes, and it stops at an access through `NULL`.  The code has all of that
in memory and does not stop in two cases: a copy that is longer than the block it was made
for runs over whatever lies behind, and where the first page is mapped (by a segment at
address 0, or by the first `sys_mmap` of a forked child) `NULL` is an address like any
other.  From such a step on the model no longer says what the code does.  Both cases are
properties of the state and the call.
-/

set_option autoImplicit false

namespace Trunix

open Trunix.Lib

def maxprocs : Nat := 128

/-! ## Programs that stay in their block -/

/-- The pages that are mapped for the segments, and the one for the stack behind them, lie
in the block, in which the first segment starts at `off`. -/
def PagesFit (sz : Nat) : List Proghdr → Nat → Prop
  | [], off => off + stackSize ≤ sz
  | ph :: rest, off =>
      (ph.len = 0 ∨ off + ph.len ≤ sz) ∧ PagesFit sz rest (u32 (off + pgRoundup ph.memsz))

/-- `loadelf` copies and maps nothing outside the block it takes for these segments, and no
page at or above `KERNEL_OFFSET`. -/
structure LoadFits (segs : List Proghdr) : Prop where
  user : UserPages segs
  copies : CopiesFit (imageSize (lowest segs 0xFFFFFFFF) (highest segs 0)) segs 0
  pages : PagesFit (imageSize (lowest segs 0xFFFFFFFF) (highest segs 0)) segs 0

theorem SegsOk.pagesFit {sz : Nat} (bound : sz ≤ 0x80000000) : ∀ {segs : List Proghdr} {off : Nat},
    SegsOk segs → off + (segs.map Proghdr.len).sum + 0x1000 ≤ sz → PagesFit sz segs off := by
  intro segs
  induction segs with
  | nil => intro off _ room; exact room
  | cons ph rest ih =>
      intro off ok room
      obtain ⟨_, _, _, _, strideLe, _, _, _⟩ := ok.spans (List.mem_cons_self : ph ∈ ph :: rest)
      rw [List.map_cons, List.sum_cons] at room
      refine ⟨Or.inr (by omega), ?_⟩
      rw [u32_of_lt (by omega)]
      exact ih ok.tail (by omega)

theorem SegsOk.loadFits {segs : List Proghdr} (ok : SegsOk segs) : LoadFits segs := by
  obtain ⟨room, _, bound⟩ := imageSize_room ok
  exact ⟨ok.userPages, ok.copiesFit bound (by omega), ok.pagesFit bound (by omega)⟩

def InitFits (env : Env) : Prop :=
  ∀ bin, env.initrd.program (pathBytes "/sbin/init") = some bin → LoadFits (env.initrd.segments bin)

/-! ## The steps -/

/-- What `alloc_pages` answers in a fork, after the page for the kernel stack, when it is
asked for the memory of the child. -/
def Kernel.childMem (k : Kernel) : Nat :=
  ((k.store.allocPages kstackSize).2.allocPages (k.memtab k.proc.pid).sz).1

def Kernel.NullMapped (k : Kernel) : Prop := (walk k.store.mem (p2v k.cr3) 0).isSome = true

instance (k : Kernel) : Decidable k.NullMapped := instDecidableEqBool _ _

/-- When the call makes an access through `NULL`, the first page is or may be mapped:
`sys_mmap` maps it itself where `mmap_base` is 0. -/
def Kernel.NullMappedIn (k : Kernel) : Call → Prop
  | .mmap _ _ _ => k.NullMapped ∨ k.proc.mmapBase < 0x1000
  | _ => k.NullMapped

/-- Where the model ends and the code goes on: at `NULL` when that is mapped, and past the
end of an array. -/
def Halt.GoesOn (null : Prop) : Halt → Prop
  | .fault => null
  | .bounds => True
  | _ => False

/-- A call that writes behind the memory it took: a fork that has more to copy than the
recorded size, or no slot for the child; a program that does not stay in its block; and a
mapping whose end wraps. -/
def Kernel.Overruns (env : Env) (k : Kernel) : Call → Prop
  | .fork => k.childMem ≠ 0 ∧
      (pgRoundup (k.memtab k.proc.pid).sz < span (k.memtab k.proc.pid).regions ∨ maxprocs < k.pid)
  | .execve path => ∃ bin, env.initrd.program path = some bin ∧ ¬ LoadFits (env.initrd.segments bin)
  | .mmap len _ _ => len ≠ 0 ∧ u32 (k.proc.mmapBase + pgRoundup len) < mmapLimit ∧
      mmapLimit ≤ k.proc.mmapBase + pgRoundup len
  | _ => False

def Kernel.Astray (env : Env) (k : Kernel) (c : Call) : Prop :=
  k.Overruns env c ∨ ∃ h, k.step env c = .error h ∧ h.GoesOn (k.NullMappedIn c)

/-- A device that is mapped is none of the memory. -/
def Kernel.DeviceHigh (k : Kernel) : Call → Prop
  | .mmap len flags fd => flags &&& mapAnon = 0 → ∀ fd' : Fin maxfiles, fd'.val = fd →
      k.proc.ofile fd' ≠ 0 → (k.files (k.proc.ofile fd')).data ≠ 0 ∧
        (⟨k.proc.mmapBase, k.fbdevs (k.files (k.proc.ofile fd')).data, pgRoundup len⟩ :
          VmRegion).bytes = ∅
  | _ => True

/-- The steps for which the model speaks: the process writes to its own pages, the code does
not go astray, and no device is mapped that is memory. -/
structure Kernel.Careful (env : Env) (k : Kernel) (c : Call) : Prop where
  allowed : k.Allowed c
  device : k.DeviceHigh c
  steady : ¬ k.Astray env c

theorem Kernel.not_astray {env : Env} {k k' : Kernel} {c : Call} (done : k.step env c = .ok k')
    (inside : ¬ k.Overruns env c) : ¬ k.Astray env c := by
  rintro (beyond | ⟨h, stopped, _⟩)
  · exact inside beyond
  · rw [done] at stopped
    cases stopped

theorem Kernel.not_overruns_fork {env : Env} {k : Kernel} (slot : k.pid ≤ maxprocs)
    (room : span (k.memtab k.proc.pid).regions ≤ pgRoundup (k.memtab k.proc.pid).sz) :
    ¬ k.Overruns env .fork := by
  rintro ⟨_, beyond | none⟩
  · omega
  · omega

theorem Kernel.not_overruns_execve {env : Env} {k : Kernel} {path : List UInt8}
    (fits : ∀ bin, env.initrd.program path = some bin → LoadFits (env.initrd.segments bin)) :
    ¬ k.Overruns env (.execve path) := by
  rintro ⟨bin, found, beyond⟩
  exact beyond (fits bin found)

end Trunix
