import Trunix.Mem.Pages
import Trunix.Lib.Run

/-!
# Runs of the page allocator

An arena is the memory together with a ledger: the extents of the blocks that are
free, and the allocations that are out.  The ledger is kept from what the calls
return, never from the headers in memory, so that the two can be compared.  Clients
may write the bytes of their own allocations between calls.
-/

set_option autoImplicit false

namespace Trunix

open Trunix.Lib

structure Arena where
  mem : Mem
  /-- the extents of the free blocks -/
  free : List Block
  /-- the address and the size asked for of every outstanding allocation -/
  live : List Block

inductive PageCall where
  | alloc (sz : Nat)
  | free (addr sz : Nat)
  | write (addr : Nat) (byte : UInt8)

def Block.extent (b : Block) : Block := ⟨b.addr, pgRoundup b.sz⟩

def carve (a r : Nat) (free : List Block) : List Block :=
  match free.find? (fun b => b.addr = a) with
  | none => free
  | some b => splitRest r b (free.erase b)

def Arena.step (freelist : Nat) (s : Arena) : PageCall → Except Halt Arena
  | .alloc sz => do
      let (addr, m) ← allocPages freelist s.mem sz
      if addr = 0 then return { s with mem := m }
      else return ⟨m, carve addr (pgRoundup sz) s.free, ⟨addr, sz⟩ :: s.live⟩
  | .free addr sz => do
      let m ← freePages freelist s.mem addr sz
      return ⟨m, putBack (Block.extent ⟨addr, sz⟩) s.free, s.live.erase ⟨addr, sz⟩⟩
  | .write addr byte => .ok { s with mem := fun x => if x = addr then byte else s.mem x }

/-- A request is for at least one byte, only outstanding allocations are given back,
and only their bytes are written. -/
def Arena.Allowed (s : Arena) : PageCall → Prop
  | .alloc sz => 1 ≤ sz
  | .free addr sz => ⟨addr, sz⟩ ∈ s.live
  | .write addr _ => ∃ b ∈ s.live, b.extent.addr ≤ addr ∧ addr < b.extent.addr + b.extent.sz

def Arena.blocks (s : Arena) : List Block := s.free ++ s.live.map Block.extent

/-- The ledger names the block that first fit takes, by its address alone. -/
theorem carve_eq {init free rest : List Block} {sz r : Nat} {b : Block} (tidy : Tidy 0x1000 init free)
    (taken : takeFit sz free = some (b, rest)) : carve b.addr r free = splitRest r b rest := by
  obtain ⟨pre, post, rfl, rfl, _, _⟩ := takeFit_split taken
  have distinct : ∀ c ∈ pre, c.addr ≠ b.addr := by
    intro c mem same
    have apart : c.Apart b := (List.pairwise_append.mp tidy.apart).2.2 c mem b (by simp)
    have nonemptyB := (tidy.grained b (by simp)).nonempty
    have nonemptyC := (tidy.grained c (by simp [mem])).nonempty
    simp only [Block.Apart] at apart
    omega
  have found : (pre ++ b :: post).find? (fun c => decide (c.addr = b.addr)) = some b := by
    rw [List.find?_append, List.find?_eq_none.mpr]
    · simp
    · intro c mem
      simpa using distinct c mem
  have notMem : b ∉ pre := fun mem => distinct b mem rfl
  have erased : (pre ++ b :: post).erase b = pre ++ post := by
    rw [List.erase_append_right _ notMem, List.erase_cons_head]
  simp only [carve, found, erased]

/-! ## One call -/

/-- The list in memory is the ledger's, header for header, and its blocks and the
outstanding allocations are disjoint parts of the memory that was free at the start. -/
structure Arena.Sound (freelist : Nat) (init : List Block) (s : Arena) : Prop where
  list : FreeListAt freelist s.mem s.free
  tidy : Tidy 0x1000 init s.blocks

theorem freeListAt_of_tidy {freelist : Nat} {m : Mem} {init free live : List Block}
    (linked : Linked m freelist free) (tidy : Tidy 0x1000 init (free ++ live))
    (headBound : freelist + 4 ≤ 0x100000000)
    (headApart : ∀ c ∈ init, freelist + 4 ≤ c.addr ∨ c.addr + c.sz ≤ freelist) :
    FreeListAt freelist m free := by
  have sub : free.Sublist (free ++ live) := List.sublist_append_left _ _
  refine ⟨linked, fun b mem => tidy.grained b (sub.subset mem), tidy.apart.sublist sub, headBound,
    fun b mem => ?_⟩
  obtain ⟨c, memC, inside⟩ := tidy.inside b (sub.subset mem)
  have apart := headApart c memC
  simp only [Block.Inside] at inside
  omega

/-- Whether a call keeps all memory, in terms of the free list it finds. -/
def keepsAll (free : List Block) : PageCall → Prop
  | .alloc sz => ∀ b, free = [b] → sz ≤ b.sz → pgRoundup sz = b.sz
  | .free _ _ => free ≠ []
  | .write _ _ => True

theorem keepsAll_alloc_iff {free rest : List Block} {sz : Nat} {b : Block}
    (taken : takeFit sz free = some (b, rest)) (le : pgRoundup sz ≤ b.sz) :
    keepsAll free (.alloc sz) ↔ (rest ≠ [] ∨ ¬ pgRoundup sz < b.sz) := by
  have perm := takeFit_perm taken
  obtain ⟨_, _, _, _, fit, _⟩ := takeFit_split taken
  constructor
  · intro keeps
    by_cases empty : rest = []
    · rw [empty, List.perm_singleton] at perm
      have exact := keeps b perm fit
      exact Or.inr (by omega)
    · exact Or.inl empty
  · intro kept c only _
    rw [only] at perm
    obtain ⟨same, empty⟩ := List.cons.inj (List.singleton_perm.mp perm)
    have := kept.resolve_left (fun nonempty => nonempty empty.symm)
    rw [same]
    omega

section Step

variable {freelist : Nat} {init : List Block} {s : Arena}
  (headApart : ∀ c ∈ init, freelist + 4 ≤ c.addr ∨ c.addr + c.sz ≤ freelist)

include headApart

theorem Arena.step_alloc (sound : s.Sound freelist init) {sz : Nat} (pos : 1 ≤ sz) :
    ∃ s', s.step freelist (.alloc sz) = .ok s' ∧ s'.Sound freelist init ∧
      total s'.blocks ≤ total s.blocks ∧
      (total s'.blocks = total s.blocks ↔ keepsAll s.free (.alloc sz)) := by
  cases taken : takeFit sz s.free with
  | none =>
      have small := takeFit_eq_none.mp taken
      refine ⟨s, ?_, sound, Nat.le_refl _, iff_of_true rfl ?_⟩
      · simp only [Arena.step, allocPages_none sound.list.memList taken]
        rfl
      · intro b only fits
        have := small b (by simp [only])
        omega
  | some found =>
      obtain ⟨b, rest⟩ := found
      have pagedB := sound.list.paged b ((takeFit_perm taken).mem_iff.mpr (by simp))
      have fit : sz ≤ b.sz := by
        obtain ⟨_, _, _, _, fit, _⟩ := takeFit_split taken
        exact fit
      have boundB := pagedB.bound
      have nonnullB := pagedB.nonnull
      have wholeB := pagedB.whole
      have le := pagedB.pgRoundup_le fit
      have posR : 0 < pgRoundup sz := pgRoundup_pos (by omega) pos
      obtain ⟨m', done, linked, _⟩ := allocPages_linked sound.list.memList taken
      have tidyFree : Tidy 0x1000 init s.free := sound.tidy.subperm (List.sublist_append_left _ _).subperm
      have carved : carve b.addr (pgRoundup sz) s.free = splitRest (pgRoundup sz) b rest :=
        carve_eq tidyFree taken
      let s' : Arena := ⟨m', splitRest (pgRoundup sz) b rest, ⟨b.addr, sz⟩ :: s.live⟩
      have oldPerm : s.blocks.Perm (b :: (rest ++ s.live.map Block.extent)) :=
        (takeFit_perm taken).append_right _
      have newPerm : s'.blocks.Perm ((⟨b.addr, pgRoundup sz⟩ ::
          splitRest (pgRoundup sz) b rest) ++ s.live.map Block.extent) := List.perm_middle
      have newSub : s'.blocks.Subperm
          (pieces (pgRoundup sz) b ++ (rest ++ s.live.map Block.extent)) := by
        rw [← List.append_assoc]
        exact newPerm.subperm_right.mpr ((List.subperm_append_right _).mpr (split_subperm _ b rest))
      have tidyPieces := (sound.tidy.subperm oldPerm.symm.subperm).pieces posR
        (Nat.dvd_of_mod_eq_zero (pgRoundup_mod sz)) le
      have tidy' : Tidy 0x1000 init s'.blocks := tidyPieces.subperm newSub
      refine ⟨s', ?_, ⟨?_, tidy'⟩, ?_⟩
      · simp only [Arena.step, done, ok_bind, if_neg nonnullB, carved]
        rfl
      · exact freeListAt_of_tidy linked tidy' sound.list.headBound headApart
      · have oldTotal := total_perm oldPerm
        have newTotal := total_perm newPerm
        rw [total_cons, total_append] at oldTotal
        rw [total_append] at newTotal
        obtain ⟨bounded, iff⟩ := split_total rest le
        refine ⟨by omega, ?_⟩
        rw [keepsAll_alloc_iff taken le, ← iff]
        constructor <;> intro <;> omega

theorem Arena.step_free (sound : s.Sound freelist init) {addr sz : Nat}
    (mem : ⟨addr, sz⟩ ∈ s.live) :
    ∃ s', s.step freelist (.free addr sz) = .ok s' ∧ s'.Sound freelist init ∧
      total s'.blocks ≤ total s.blocks ∧
      (total s'.blocks = total s.blocks ↔ keepsAll s.free (.free addr sz)) := by
  let n : Block := Block.extent ⟨addr, sz⟩
  have livePerm := (List.perm_cons_erase mem).map Block.extent
  have oldPerm : s.blocks.Perm (n :: (s.free ++ (s.live.erase ⟨addr, sz⟩).map Block.extent)) :=
    (livePerm.append_left s.free).trans List.perm_middle
  have tidyN := sound.tidy.subperm oldPerm.symm.subperm
  have pagedN : n.Paged := tidyN.grained n (by simp)
  have apartN := (List.pairwise_cons.mp tidyN.apart).1
  have fits : Fits n freelist s.free := by
    refine ⟨pagedN.nonnull, ?_, pagedN.bound, fun b inFree => apartN b (by simp [inFree]), ?_⟩
    · have whole := pagedN.whole
      have nonempty := pagedN.nonempty
      omega
    · obtain ⟨c, memC, inside⟩ := tidyN.inside n (by simp)
      have apart := headApart c memC
      simp only [Block.Inside] at inside
      omega
  obtain ⟨m', done, linked, _⟩ := freePages_linked sz sound.list.linked sound.list.spaced fits
    (Nat.mod_eq_zero_of_dvd pagedN.aligned) rfl
  let s' : Arena := ⟨m', putBack n s.free, s.live.erase ⟨addr, sz⟩⟩
  have newSub : s'.blocks.Subperm
      (n :: (s.free ++ (s.live.erase ⟨addr, sz⟩).map Block.extent)) :=
    (List.subperm_append_right _).mpr (putBack_subperm n s.free)
  have tidy' : Tidy 0x1000 init s'.blocks := tidyN.subperm newSub
  refine ⟨s', ?_, ⟨freeListAt_of_tidy linked tidy' sound.list.headBound headApart, tidy'⟩, ?_⟩
  · have call : freePages freelist s.mem addr sz = .ok m' := done
    simp only [Arena.step, call]
    rfl
  · have oldTotal := total_perm oldPerm
    have newTotal : total s'.blocks = total (putBack n s.free) +
        total ((s.live.erase ⟨addr, sz⟩).map Block.extent) := total_append _ _
    rw [total_cons, total_append] at oldTotal
    obtain ⟨bounded, iff⟩ := putBack_total s.free pagedN.nonempty
    refine ⟨by omega, ?_⟩
    rw [keepsAll, ← iff]
    constructor <;> intro <;> omega

theorem Arena.step_write (sound : s.Sound freelist init) {addr : Nat} {byte : UInt8}
    (owned : s.Allowed (.write addr byte)) :
    ∃ s', s.step freelist (.write addr byte) = .ok s' ∧ s'.Sound freelist init ∧
      s'.blocks = s.blocks := by
  refine ⟨_, rfl, ⟨?_, sound.tidy⟩, rfl⟩
  obtain ⟨b, memB, lo, hi⟩ := owned
  have written : Frame s.mem (fun x => if x = addr then byte else s.mem x) {addr} := by
    intro x out
    exact if_neg out
  have apartB : ∀ c ∈ s.free, c.Apart b.extent := fun c memC =>
    (List.pairwise_append.mp sound.tidy.apart).2.2 c memC b.extent (List.mem_map_of_mem memB)
  refine { sound.list with linked := sound.list.linked.frame written ?_ }
  intro x inList same
  rw [Set.mem_singleton_iff] at same
  subst same
  rcases inList with ⟨lo', hi'⟩ | ⟨c, memC, lo', hi'⟩
  · obtain ⟨d, memD, inside⟩ := sound.tidy.inside b.extent
      (List.mem_append_right _ (List.mem_map_of_mem memB))
    have apart := headApart d memD
    simp only [Block.Inside] at inside
    omega
  · have apart := apartB c memC
    have size := sound.list.spaced.size c memC
    simp only [Block.Apart] at apart
    omega

/-- Every allowed call returns, keeps the arena sound and loses memory exactly when
it does not meet `keepsAll`. -/
theorem Arena.step_sound (sound : s.Sound freelist init) (c : PageCall) (allowed : s.Allowed c) :
    ∃ s', s.step freelist c = .ok s' ∧ s'.Sound freelist init ∧
      total s'.blocks ≤ total s.blocks ∧
      (total s'.blocks = total s.blocks ↔ keepsAll s.free c) := by
  cases c with
  | alloc sz => exact step_alloc headApart sound allowed
  | free addr sz => exact step_free headApart sound allowed
  | write addr byte =>
      obtain ⟨s', done, sound', same⟩ := step_write headApart sound allowed
      exact ⟨s', done, sound', by rw [same], iff_of_true (by rw [same]) trivial⟩

end Step

/-! ## Runs -/

def Arena.start (m : Mem) (init : List Block) : Arena := ⟨m, init, []⟩

theorem Arena.start_sound {freelist : Nat} {m : Mem} {init : List Block}
    (h : FreeListAt freelist m init) : (Arena.start m init).Sound freelist init := by
  refine ⟨h, ?_⟩
  have blocks : (Arena.start m init).blocks = init := List.append_nil init
  rw [blocks]
  exact ⟨h.paged, fun b mem => ⟨b, mem, Nat.le_refl _, Nat.le_refl _⟩, h.apart⟩

theorem Arena.run_sound {freelist : Nat} {m : Mem} {init : List Block} {s : Arena}
    (h : FreeListAt freelist m init)
    (run : Runs (Arena.step freelist) Arena.Allowed (Arena.start m init) s) :
    s.Sound freelist init := by
  apply run.invariant _ (start_sound h)
  intro t c t' sound allowed done
  obtain ⟨t'', done', sound', _⟩ := step_sound h.headApart sound c allowed
  rw [done] at done'
  cases done'
  exact sound'

/-- At every point of every run the free list in memory can be walked, every header
on it records the real extent of its block, the free blocks and the outstanding
allocations are page aligned, pairwise disjoint and inside the memory that was free
at the start, and every further call returns. -/
theorem page_allocator_invariant {freelist : Nat} {m : Mem} {init : List Block} {s : Arena}
    (h : FreeListAt freelist m init)
    (run : Runs (Arena.step freelist) Arena.Allowed (Arena.start m init) s) :
    freeBlocks freelist s.mem = .ok s.free ∧
      (s.free ++ s.live.map Block.extent).Pairwise Block.Apart ∧
      (∀ b ∈ s.free ++ s.live.map Block.extent,
        b.addr % 0x1000 = 0 ∧ b.sz % 0x1000 = 0 ∧ 0 < b.sz ∧ ∃ c ∈ init, b.Inside c) ∧
      ∀ c, s.Allowed c → ∃ s', s.step freelist c = .ok s' := by
  have sound := Arena.run_sound h run
  refine ⟨sound.list.freeBlocks_eq, sound.tidy.apart, fun b mem => ?_, fun c allowed => ?_⟩
  · have paged := sound.tidy.grained b mem
    exact ⟨Nat.mod_eq_zero_of_dvd paged.aligned, Nat.mod_eq_zero_of_dvd paged.whole,
      paged.nonempty, sound.tidy.inside b mem⟩
  · obtain ⟨s', done, _⟩ := Arena.step_sound h.headApart sound c allowed
    exact ⟨s', done⟩

def oneBlock : Mem :=
  store32 (store32 (store32 (store32 (fun _ => 0) 0x80480000 0x80001000) 0x80001000 0x2000)
    0x80001004 0) 0x80001008 0x80480000

theorem oneBlock_list : FreeListAt 0x80480000 oneBlock [⟨0x80001000, 0x2000⟩] := by
  refine ⟨?_, ?_, List.pairwise_singleton _ _, by decide, ?_⟩
  · decide +kernel
  · intro b mem
    rw [List.mem_singleton.mp mem]
    constructor <;> decide
  · intro b mem
    rw [List.mem_singleton.mp mem]
    exact Or.inr (by decide)

theorem oneBlock_call (c : PageCall) (live : List Block)
    (allowed : (Arena.start oneBlock [⟨0x80001000, 0x2000⟩]).Allowed c)
    (result : ((Arena.start oneBlock [⟨0x80001000, 0x2000⟩]).step 0x80480000 c).toOption.map
      Arena.live = some live) :
    ∃ s, Runs (Arena.step 0x80480000) Arena.Allowed
        (Arena.start oneBlock [⟨0x80001000, 0x2000⟩]) s ∧
      (Arena.start oneBlock [⟨0x80001000, 0x2000⟩]).step 0x80480000 c = .ok s ∧ s.live = live := by
  cases done : (Arena.start oneBlock [⟨0x80001000, 0x2000⟩]).step 0x80480000 c with
  | error e =>
      rw [done] at result
      cases result
  | ok s =>
      rw [done] at result
      exact ⟨s, .snoc c .refl allowed done, rfl, Option.some.inj result⟩

/-- On two blocks the larger one is split, a smaller request takes the rest whole, and what
was taken first is given back. -/
theorem twoBlocks_run : ∃ s₁ s₂ s : Arena,
    (Arena.start twoBlocks [⟨0x80003000, 0x1000⟩, ⟨0x80005000, 0x3000⟩]).step 0x80480000 (.alloc 0x1800) =
      .ok s₁ ∧
    s₁.step 0x80480000 (.alloc 0x800) = .ok s₂ ∧ s₂.step 0x80480000 (.free 0x80005000 0x1800) = .ok s ∧
    s₁.free = [⟨0x80007000, 0x1000⟩, ⟨0x80003000, 0x1000⟩] ∧ s₂.free = [⟨0x80003000, 0x1000⟩] ∧
    s₂.live = [⟨0x80007000, 0x800⟩, ⟨0x80005000, 0x1800⟩] ∧
    s.free = [⟨0x80003000, 0x1000⟩, ⟨0x80005000, 0x2000⟩] ∧ s.live = [⟨0x80007000, 0x800⟩] := by
  have result : ((Arena.start twoBlocks [⟨0x80003000, 0x1000⟩, ⟨0x80005000, 0x3000⟩]).step 0x80480000
      (.alloc 0x1800) >>= fun s₁ => s₁.step 0x80480000 (.alloc 0x800) >>= fun s₂ =>
      s₂.step 0x80480000 (.free 0x80005000 0x1800) >>= fun s =>
      (.ok (s₁.free, s₂.free, s₂.live, s.free, s.live) : Except Halt _)) =
        .ok ([⟨0x80007000, 0x1000⟩, ⟨0x80003000, 0x1000⟩], [⟨0x80003000, 0x1000⟩],
          [⟨0x80007000, 0x800⟩, ⟨0x80005000, 0x1800⟩],
          [⟨0x80003000, 0x1000⟩, ⟨0x80005000, 0x2000⟩], [⟨0x80007000, 0x800⟩]) := by
    decide +kernel
  obtain ⟨s₁, split, afterSplit⟩ := bind_eq_ok.mp result
  obtain ⟨s₂, taken, afterTaken⟩ := bind_eq_ok.mp afterSplit
  obtain ⟨s, given, values⟩ := bind_eq_ok.mp afterTaken
  simp only [Except.ok.injEq, Prod.mk.injEq] at values
  exact ⟨s₁, s₂, s, split, taken, given, values⟩

section TwoBlocks

variable {s₁ s₂ : Arena}

theorem twoBlocks_split (split : (Arena.start twoBlocks [⟨0x80003000, 0x1000⟩, ⟨0x80005000, 0x3000⟩]).step
    0x80480000 (.alloc 0x1800) = .ok s₁) :
    Runs (Arena.step 0x80480000) Arena.Allowed
      (Arena.start twoBlocks [⟨0x80003000, 0x1000⟩, ⟨0x80005000, 0x3000⟩]) s₁ :=
  .snoc (.alloc 0x1800) .refl (show 1 ≤ 0x1800 by decide) split

theorem twoBlocks_taken (split : (Arena.start twoBlocks [⟨0x80003000, 0x1000⟩, ⟨0x80005000, 0x3000⟩]).step
    0x80480000 (.alloc 0x1800) = .ok s₁) (taken : s₁.step 0x80480000 (.alloc 0x800) = .ok s₂) :
    Runs (Arena.step 0x80480000) Arena.Allowed
      (Arena.start twoBlocks [⟨0x80003000, 0x1000⟩, ⟨0x80005000, 0x3000⟩]) s₂ :=
  (twoBlocks_split split).snoc (.alloc 0x800) (show 1 ≤ 0x800 by decide) taken

end TwoBlocks

theorem page_allocator_invariant_two_blocks : ∃ s : Arena,
    s.free = [⟨0x80003000, 0x1000⟩, ⟨0x80005000, 0x2000⟩] ∧ s.live = [⟨0x80007000, 0x800⟩] ∧
      freeBlocks 0x80480000 s.mem = .ok s.free ∧
      (s.free ++ s.live.map Block.extent).Pairwise Block.Apart := by
  obtain ⟨s₁, s₂, s, split, taken, given, _, _, live₂, free, live⟩ := twoBlocks_run
  have out : ⟨0x80005000, 0x1800⟩ ∈ s₂.live := by
    rw [live₂]
    exact List.mem_cons_of_mem _ List.mem_cons_self
  have invariant := page_allocator_invariant twoBlocks_list
    ((twoBlocks_taken split taken).snoc (.free 0x80005000 0x1800) out given)
  exact ⟨s, free, live, invariant.1, invariant.2.1⟩

def Arena.recorded (freelist : Nat) (s : Arena) : Except Halt Nat := do
  let free ← freeBlocks freelist s.mem
  return total free + total (s.live.map Block.extent)

/-- A call finds a block to link to whenever it has one to link in: a block is given
back while the list is nonempty, and the only block on the list is taken whole. -/
def Arena.Keeps (freelist : Nat) (s : Arena) (c : PageCall) : Prop :=
  ∀ free, freeBlocks freelist s.mem = .ok free → keepsAll free c

theorem Arena.Sound.recorded_eq {freelist : Nat} {init : List Block} {s : Arena}
    (sound : s.Sound freelist init) : s.recorded freelist = .ok (total s.blocks) := by
  rw [Arena.recorded, sound.list.freeBlocks_eq, Arena.blocks, total_append]
  rfl

theorem Arena.Sound.keeps_iff {freelist : Nat} {init : List Block} {s : Arena} {c : PageCall}
    (sound : s.Sound freelist init) : s.Keeps freelist c ↔ keepsAll s.free c := by
  simp [Arena.Keeps, sound.list.freeBlocks_eq]

/-- A run has lost nothing exactly when its state can be reached by calls that all
find a block to link to. -/
theorem page_total_conserved_iff {freelist : Nat} {m : Mem} {init : List Block} {s : Arena}
    (h : FreeListAt freelist m init)
    (run : Runs (Arena.step freelist) Arena.Allowed (Arena.start m init) s) :
    s.recorded freelist = .ok (total init) ↔
      Runs (Arena.step freelist) (fun t c => t.Allowed c ∧ t.Keeps freelist c)
        (Arena.start m init) s := by
  have kept := run.kept_iff (fun t => total t.blocks) (Arena.Keeps freelist) (by
    intro t c t' reached allowed done
    have sound := Arena.run_sound h reached
    obtain ⟨t'', done', _, bounded, iff⟩ := Arena.step_sound h.headApart sound c allowed
    rw [done] at done'
    cases done'
    exact ⟨bounded, iff.trans sound.keeps_iff.symm⟩)
  have startTotal : total (Arena.start m init).blocks = total init := by
    rw [Arena.blocks, Arena.start, List.map_nil, List.append_nil]
  rw [(Arena.run_sound h run).recorded_eq, ← kept.2, startTotal]
  simp

theorem page_total_conserved_two_blocks :
    ∃ s : Arena, s.live = [⟨0x80007000, 0x800⟩] ∧ s.recorded 0x80480000 = .ok 0x4000 := by
  obtain ⟨s₁, s₂, s, split, taken, given, free₁, free₂, live₂, _, live⟩ := twoBlocks_run
  have run₁ := twoBlocks_split split
  have run₂ := twoBlocks_taken split taken
  have out : ⟨0x80005000, 0x1800⟩ ∈ s₂.live := by
    rw [live₂]
    exact List.mem_cons_of_mem _ List.mem_cons_self
  have keeps : (Arena.start twoBlocks [⟨0x80003000, 0x1000⟩, ⟨0x80005000, 0x3000⟩]).Keeps 0x80480000
      (.alloc 0x1800) := by
    rw [(Arena.start_sound twoBlocks_list).keeps_iff]
    exact fun b only => by cases only
  have keeps₁ : s₁.Keeps 0x80480000 (.alloc 0x800) := by
    rw [(Arena.run_sound twoBlocks_list run₁).keeps_iff, free₁]
    exact fun b only => by cases only
  have keeps₂ : s₂.Keeps 0x80480000 (.free 0x80005000 0x1800) := by
    rw [(Arena.run_sound twoBlocks_list run₂).keeps_iff, free₂]
    exact List.cons_ne_nil _ _
  have allowed : 1 ≤ 0x1800 ∧ 1 ≤ 0x800 := by decide
  refine ⟨s, live, (page_total_conserved_iff twoBlocks_list
    (run₂.snoc (.free 0x80005000 0x1800) out given)).mpr ?_⟩
  exact .snoc (.free 0x80005000 0x1800) (.snoc (.alloc 0x800)
    (.snoc (.alloc 0x1800) .refl ⟨allowed.1, keeps⟩ split) ⟨allowed.2, keeps₁⟩ taken) ⟨out, keeps₂⟩ given

/-- One page out of the only block on the list: the other page is on no list and
belongs to no allocation. -/
theorem lone_block_split_loses_page :
    ∃ s, Runs (Arena.step 0x80480000) Arena.Allowed
        (Arena.start oneBlock [⟨0x80001000, 0x2000⟩]) s ∧
      FreeListAt 0x80480000 oneBlock [⟨0x80001000, 0x2000⟩] ∧
      s.recorded 0x80480000 = .ok 0x1000 ∧ total [⟨0x80001000, 0x2000⟩] = 0x2000 := by
  obtain ⟨s, run, done, _⟩ := oneBlock_call (.alloc 0x1000) [⟨0x80001000, 0x1000⟩]
    (Nat.le_of_ble_eq_true rfl) (by decide +kernel)
  have recorded : ((Arena.start oneBlock [⟨0x80001000, 0x2000⟩]).step 0x80480000
      (.alloc 0x1000)).toOption.map (Arena.recorded 0x80480000 · |>.toOption) =
        some (some 0x1000) := by
    decide +kernel
  rw [done] at recorded
  refine ⟨s, run, oneBlock_list, ?_, rfl⟩
  cases found : s.recorded 0x80480000 with
  | error e =>
      simp only [Except.toOption, Option.map_some, found] at recorded
      cases recorded
  | ok n =>
      simp only [Except.toOption, Option.map_some, found, Option.some.injEq] at recorded
      rw [recorded]

end Trunix
