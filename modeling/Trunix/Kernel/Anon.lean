import Trunix.Kernel.Cleared
import Trunix.Kernel.Leaks
import Trunix.Kernel.Supply

/-!
# Anonymous memory

`sys_mmap` with `MAP_ANON`.  The length is rounded up and added to `mmap_base` before
anything is compared, so both sums can wrap, and an allocation that fails is used as it
is.  The last theorem says for which lengths the call still does what it promises.
-/

set_option autoImplicit false

namespace Trunix

open Trunix.Lib

section Cleared

variable {init : List Block} {a r : Nat} {s s' : Store}

theorem Store.Cleared.pageDir {pd : Nat} (h : s.Cleared init a r s') (dir : PageDir s pd) :
    PageDir s' pd ∧ (∀ i < 1024, load32 s'.mem (pd + 4 * i) = load32 s.mem (pd + 4 * i)) ∧
      ∀ x ∈ tableBytes s'.mem pd, ¬ (a ≤ x ∧ x < a + r) := by
  have clear : ∀ x ∈ tableBytes s.mem pd, ¬ (a ≤ x ∧ x < a + r) := by
    intro x mem
    obtain ⟨b, inGiven, inside⟩ := dir.mem_block mem
    have apart := h.apart inGiven
    omega
  have kept : ∀ b ∈ s.given, b ∈ s'.given := by
    intro b mem
    rw [h.given]
    exact List.mem_cons_of_mem _ mem
  obtain ⟨dir', same⟩ := dir.of_frame kept h.frame fun x mem => clear x (Or.inl mem)
  refine ⟨dir', same, ?_⟩
  rw [tableBytes_congr same]
  exact clear

theorem Store.Cleared.filledSlots {pd : Nat} (h : s.Cleared init a r s') (dir : PageDir s pd) :
    Trunix.filledSlots s'.mem pd = Trunix.filledSlots s.mem pd :=
  filledSlots_congr (h.pageDir dir).2.1

end Cleared

/-! ## What is promised -/

structure Store.FreshPage (s s' : Store) (f : Nat) : Prop where
  zero : ∀ x ∈ page f, s'.mem x = 0
  before : ∃ b ∈ s.free, b.addr ≤ f ∧ f + 0x1000 ≤ b.addr + b.sz
  after : ∀ x ∈ page f, Outside s'.free x

structure Kernel.MapsFresh (k k' : Kernel) (len a : Nat) : Prop where
  base : a = k.proc.mmapBase
  below : a + len < mmapLimit
  fresh : ∀ x, a ≤ x → x < a + len → ∃ pa, walk k'.store.mem (p2v k'.proc.cr3) x = some pa ∧
    k.store.FreshPage k'.store (p2v (pgRounddown pa))
  next : k'.proc.mmapBase = pgRoundup (a + len)

/-- The call returns, and an answer other than failure keeps its promise. -/
def Kernel.AnonOk (env : Env) (k : Kernel) (len flags fd : Nat) : Prop :=
  ∃ a k', sysMmap env k len flags fd = .ok (a, k') ∧
    (a ≠ 0 → a ≠ 0xFFFFFFFF → k.MapsFresh k' len a)

/-- The free list has a block for `r` bytes at `va`, and a page for every table that the
directory still needs. -/
def Kernel.HasRoom (k : Kernel) (va r : Nat) : Prop :=
  (∃ b ∈ k.store.free, r ≤ b.sz) ∧
    (takePages (tableSlots va r \ filledSlots k.store.mem (p2v k.proc.cr3)).card
      (k.store.allocPages r).2.free).isSome

/-- Where the sums of `sys_mmap` do not wrap behind its test, and its allocations succeed. -/
def Kernel.AnonFits (k : Kernel) (len : Nat) : Prop :=
  (∃ mem s, k.store.kmalloc 16 = .ok (mem, s) ∧ 0x1000 ≤ mem) ∧
    ((k.proc.mmapBase = 0 ∧ pgRoundup len = 0) ∨
      (0 < pgRoundup len ∧ k.proc.mmapBase + pgRoundup len < mmapLimit ∧
        k.HasRoom k.proc.mmapBase (pgRoundup len)))

/-! ## When it is kept -/

theorem pgRoundup_idem (x : Nat) : pgRoundup (pgRoundup x) = pgRoundup x :=
  pgRoundup_of_aligned (pgRoundup_mod x)

section Map

variable {init : List Block} {k : Kernel} {a r : Nat} {s s₁ s₂ : Store}

/-- The tables for a block that was just cleared can be built exactly when there are pages
for them. -/
theorem Store.Cleared.provides {pd va : Nat} (h : s.Cleared init a r s₁) (dir : PageDir s pd)
    (below : va + r < mmapLimit) (aligned : va % 0x1000 = 0) :
    Provides id pd (tableSlots va r) s₁ (allocPt pd va (v2p a) r userFlags s₁) := by
  obtain ⟨dir₁, _, _⟩ := h.pageDir dir
  obtain ⟨_, whole, _⟩ := h.paged
  have limit : mmapLimit = 0x7FFFF000 := rfl
  refine allocPt_provides h.sound dir₁ (v2p_lt a) (Or.inr ?_)
  rw [pgRounddown_of_aligned aligned, pgRoundup_of_aligned whole]
  omega

theorem Store.Cleared.mapped {pd va : Nat} (h : s.Cleared init a r s₁) (dir : PageDir s pd)
    (below : va + r < mmapLimit) (aligned : va % 0x1000 = 0)
    (linked : allocPt pd va (v2p a) r userFlags s₁ = .ok s₂) {x : Nat} (lo : va ≤ x) (hi : x < va + r) :
    ∃ pa, walk s₂.mem pd x = some pa ∧ s.FreshPage s₂ (p2v (pgRounddown pa)) := by
  obtain ⟨dir₁, _, clear⟩ := h.pageDir dir
  obtain ⟨alignedA, whole, pos, high, top⟩ := h.paged
  have limit : mmapLimit = 0x7FFFF000 := rfl
  have physical := v2p_eq a
  obtain ⟨mapping, walks⟩ := allocPt_spec h.sound dir₁ (v2p_lt a)
    (by rw [pgRounddown_of_aligned aligned, pgRoundup_of_aligned whole]; omega) linked
  have walkX := walks x (by omega)
  rw [pgRounddown_of_aligned aligned, pgRoundup_of_aligned whole,
    pgRounddown_of_aligned (show v2p a % 0x1000 = 0 by omega), if_pos ⟨lo, hi⟩,
    u32_of_lt (by omega)] at walkX
  -- the frame of `x` is a page of the block
  have frame : p2v (pgRounddown (v2p a + (x - va))) = a + (x - va) / 0x1000 * 0x1000 := by
    rw [pgRounddown_eq, p2v_of_lt (by omega)]
    omega
  have inBlock : ∀ y ∈ page (p2v (pgRounddown (v2p a + (x - va)))), a ≤ y ∧ y < a + r := by
    intro y mem
    rw [frame] at mem
    simp only [page, Set.mem_Ico] at mem
    omega
  have own : (⟨a, r⟩ : Block) ∈ s₁.given := h.given ▸ List.mem_cons_self
  refine ⟨_, walkX, fun y mem => ?_, ?_, fun y mem => ?_⟩
  · have untouched : y ∉ tableBytes s₂.mem pd := fun inTables =>
      mapping.clear own clear y inTables (inBlock y mem)
    rw [mapping.frame y untouched]
    exact h.zero y (inBlock y mem)
  · obtain ⟨b, memB, start, fit⟩ := h.taken
    refine ⟨b, memB, ?_⟩
    rw [frame]
    omega
  · exact mapping.sound.given_not_free (mapping.mem_given own) (inBlock y mem)

end Map

section Call

variable {init : List Block} {env : Env} {k : Kernel} {len flags fd : Nat}

theorem sysMmap_anon (anon : flags &&& mapAnon ≠ 0) (nonzero : len ≠ 0)
    (room : ¬ mmapLimit ≤ u32 (k.proc.mmapBase + pgRoundup len)) :
    sysMmap env k len flags fd = (do
      let (mem, s) ← k.store.kmalloc 16
      touch mem 16
      let s₁ ← (s.allocPages (pgRoundup len)).2.memset (s.allocPages (pgRoundup len)).1 0 (pgRoundup len)
      let s₂ ← allocPt (p2v k.proc.cr3) k.proc.mmapBase (v2p (s.allocPages (pgRoundup len)).1)
        (pgRoundup len) userFlags s₁
      return (k.proc.mmapBase, { k with
        store := s₂
        procs := Function.update k.procs k.curthread
          { k.proc with mmapBase := u32 (k.proc.mmapBase + pgRoundup len) }
        memtab := Function.update k.memtab k.proc.pid { k.memtab k.proc.pid with
          regions := ⟨k.proc.mmapBase, v2p (s.allocPages (pgRoundup len)).1, pgRoundup len⟩ ::
            (k.memtab k.proc.pid).regions } })) := by
  rw [sysMmap, if_neg nonzero]
  simp only [if_neg room, backing, if_pos anon, pgRoundup_idem]
  cases k.store.kmalloc 16 with
  | error e => rfl
  | ok node =>
      obtain ⟨mem, s⟩ := node
      simp only [ok_bind]
      cases touch mem 16 with
      | error e => rfl
      | ok _ =>
          simp only [ok_bind]
          generalize (s.allocPages (pgRoundup len)).2.memset (s.allocPages (pgRoundup len)).1 0
            (pgRoundup len) = cleared
          cases cleared with
          | error e => rfl
          | ok s₁ => rfl

theorem PageDir.of_same {s s' : Store} {pd : Nat} (dir : PageDir s pd) (bytes : s'.mem = s.mem)
    (given : s'.given = s.given) : PageDir s' pd := by
  refine (dir.of_frame (S := ∅) (fun b mem => given ▸ mem) ?_ fun x _ => Set.notMem_empty x).1
  rw [bytes]
  exact Frame.refl _ _

theorem pgRoundup_end {base len : Nat} (aligned : base % 0x1000 = 0) (below : base + pgRoundup len < mmapLimit)
    (small : len ≤ 0xFFFFF000) :
    base + len < mmapLimit ∧ pgRoundup (base + len) = base + pgRoundup len := by
  have limit : mmapLimit = 0x7FFFF000 := rfl
  have whole := pgRoundup_eq small
  have le := le_pgRoundup small
  rw [pgRoundup_eq (show base + len ≤ 0xFFFFF000 by omega)]
  omega

theorem pgRoundup_eq_zero {len : Nat} (word : len < 0x100000000) (nonzero : len ≠ 0) :
    pgRoundup len = 0 ↔ 0xFFFFF000 < len := by
  constructor
  · intro zero
    by_contra small
    have le := le_pgRoundup (show len ≤ 0xFFFFF000 by omega)
    omega
  · intro large
    simp only [pgRoundup, roundup, u32]
    split <;> omega

variable (sound : k.store.Sound init) (dir : PageDir k.store (p2v k.proc.cr3))
  (aligned : k.proc.mmapBase % 0x1000 = 0) (anon : flags &&& mapAnon ≠ 0) (nonzero : len ≠ 0)
  (room : ¬ mmapLimit ≤ u32 (k.proc.mmapBase + pgRoundup len))

include sound dir aligned anon nonzero room

/-- Where everything fits the call returns, and it has kept its promise. -/
theorem Kernel.AnonFits.ok (word : len < 0x100000000) (fits : k.AnonFits len) :
    k.AnonOk env len flags fd := by
  obtain ⟨⟨mem, s, allocated, high⟩, rest⟩ := fits
  obtain ⟨bytes, free, given⟩ := Store.kmalloc_heap allocated
  have mapped : touch mem 16 = .ok () := by
    rw [touch, if_neg (by omega)]
  rw [Kernel.AnonOk, sysMmap_anon anon nonzero room, allocated]
  simp only [ok_bind, mapped]
  rcases rest with ⟨base, none⟩ | ⟨pos, below, block, tables⟩
  · rw [none]
    have nothing : ∀ (s : Store) (a : Nat), s.memset a 0 0 = .ok { s with mem := fill s.mem a 0 0 } := by
      intro s a
      rw [Store.memset, touch, if_neg (by omega)]
      rfl
    have empty : ∀ (s : Store) (pd va pa : Nat), allocPt pd va pa 0 userFlags s = .ok s := by
      intro s pd va pa
      rfl
    simp only [nothing, ok_bind, empty]
    exact ⟨_, _, rfl, fun some => absurd base some⟩
  · have sound' := sound.write free given
    obtain ⟨a, s₁, call, cleared, fresh⟩ := sound'.cleared (pgRoundup_mod len) pos (free ▸ block)
    have dir' := dir.of_same bytes given
    have provides := fresh.provides dir' below aligned
    rw [Provides, fresh.filledSlots dir', bytes, fresh.free, (Store.allocPages_same free _).2] at provides
    obtain ⟨left, enough⟩ := Option.isSome_iff_exists.mp tables
    rw [enough] at provides
    obtain ⟨s₂, linked, _⟩ := provides
    rw [call, cleared, ok_bind, linked, ok_bind]
    refine ⟨_, _, rfl, fun _ _ => ?_⟩
    have small : len ≤ 0xFFFFF000 := by
      by_contra large
      have zero := (pgRoundup_eq_zero word nonzero).mpr (by omega)
      omega
    obtain ⟨inside, stop⟩ := pgRoundup_end aligned below small
    have le := le_pgRoundup small
    have limit : mmapLimit = 0x7FFFF000 := rfl
    refine ⟨rfl, inside, fun x lo hi => ?_, ?_⟩
    · obtain ⟨pa, walks, page⟩ := fresh.mapped dir' below aligned linked lo (by omega)
      refine ⟨pa, ?_, page.zero, ?_, page.after⟩
      · simp only [Kernel.proc, Function.update_self]
        exact walks
      · rw [← free]
        exact page.before
    · rw [stop]
      simp only [Kernel.proc, Function.update_self]
      exact u32_of_lt (by simp only [Kernel.proc] at below; omega)

/-- A call that returns and has kept its promise found everything it needed. -/
theorem Kernel.AnonOk.fits (word : len < 0x100000000) (kept : k.AnonOk env len flags fd) :
    k.AnonFits len := by
  obtain ⟨a, k', done, promise⟩ := kept
  rw [sysMmap_anon anon nonzero room] at done
  obtain ⟨⟨mem, s⟩, allocated, done⟩ := bind_eq_ok.mp done
  obtain ⟨_, touched, done⟩ := bind_eq_ok.mp done
  obtain ⟨s₁, cleared, done⟩ := bind_eq_ok.mp done
  obtain ⟨s₂, linked, done⟩ := bind_eq_ok.mp done
  obtain ⟨bytes, free, given⟩ := Store.kmalloc_heap allocated
  have base : a = k.proc.mmapBase := by
    cases done
    rfl
  have high := (touch_eq_ok touched).resolve_left (by decide)
  have limit : mmapLimit = 0x7FFFF000 := rfl
  -- the promise is one about the sum that does not wrap
  have below : k.proc.mmapBase = 0 ∨ k.proc.mmapBase + len < mmapLimit := by
    by_cases zero : k.proc.mmapBase = 0
    · exact Or.inl zero
    · right
      rw [← base]
      exact (promise (by omega) (by omega)).below
  refine ⟨⟨mem, s, allocated, high⟩, ?_⟩
  by_cases empty : pgRoundup len = 0
  · have large := (pgRoundup_eq_zero word nonzero).mp empty
    exact Or.inl ⟨below.resolve_right (by omega), empty⟩
  · right
    have pos := Nat.pos_of_ne_zero empty
    have small : len ≤ 0xFFFFF000 := by
      by_contra large
      exact empty ((pgRoundup_eq_zero word nonzero).mpr (by omega))
    have lt := pgRoundup_lt small
    have whole := pgRoundup_mod len
    have inside : k.proc.mmapBase + pgRoundup len < mmapLimit := by
      have fits : k.proc.mmapBase + pgRoundup len < 0x100000000 := by omega
      rw [u32_of_lt fits] at room
      omega
    have sound' := sound.write free given
    have block := Store.fits_of_memset pos cleared
    obtain ⟨a', s₁', call, cleared', fresh⟩ := sound'.cleared whole pos block
    rw [call] at cleared linked
    rw [cleared'] at cleared
    cases cleared
    have dir' := dir.of_same bytes given
    have provides := fresh.provides dir' inside aligned
    rw [Provides, fresh.filledSlots dir', bytes, fresh.free, (Store.allocPages_same free _).2, linked]
      at provides
    refine ⟨pos, inside, free ▸ block, ?_⟩
    rw [Option.isSome_iff_ne_none]
    intro none
    rw [none] at provides
    cases provides

omit nonzero room in
/-- An anonymous mapping is sound or refused exactly when one of the tests at the beginning
refuses it or everything it needs fits.  An access through `NULL` counts as a stop, as it is
one where the first page is not mapped. -/
theorem anon_ok_iff (word : len < 0x100000000) :
    k.AnonOk env len flags fd ↔
      len = 0 ∨ mmapLimit ≤ u32 (k.proc.mmapBase + pgRoundup len) ∨ k.AnonFits len := by
  by_cases zero : len = 0
  · refine iff_of_true ⟨0, k, ?_, fun some => absurd rfl some⟩ (Or.inl zero)
    rw [sysMmap, if_pos zero]
  · by_cases full : mmapLimit ≤ u32 (k.proc.mmapBase + pgRoundup len)
    · refine iff_of_true ⟨0, k, ?_, fun some => absurd rfl some⟩ (Or.inr (Or.inl full))
      rw [sysMmap, if_neg zero]
      simp only [if_pos full]
    · constructor
      · intro kept
        exact Or.inr (Or.inr (kept.fits sound dir aligned anon zero full word))
      · intro fits
        exact ((fits.resolve_left zero).resolve_left full).ok sound dir aligned anon zero full word

end Call

theorem smallBoot_dir {k : Kernel} (boot : smallBoot alignedSegment = .ok k) :
    k.store.Sound smallFree ∧ PageDir k.store (p2v k.proc.cr3) := by
  obtain ⟨k₁, booted, started⟩ := bind_eq_ok.mp boot
  obtain ⟨root, scheduled⟩ := (initSched_scheduled smallKernel_atBoot booted).of_ok started
  have accounted := (boot_started smallKernel_atBoot booted started).accounted smallKernel_atBoot
    smallKernel_tables smallEnv_gapless
  exact ⟨scheduled.sound, accounted.ledger.separate.dirs _ scheduled.mem_created⟩

instance (k : Kernel) (va r : Nat) : Decidable (k.HasRoom va r) := inferInstanceAs (Decidable (_ ∧ _))

theorem anon_ok_first : ∃ k, smallBoot alignedSegment = .ok k ∧
    k.AnonOk (smallEnv alignedSegment) 0x1234 1 0 := by
  obtain ⟨k, boot⟩ := exists_eq_ok (x := smallBoot alignedSegment) (by decide +kernel)
  obtain ⟨sound, dir⟩ := smallBoot_dir boot
  have state : (smallBoot alignedSegment).toOption.map (fun k => (k.proc.mmapBase,
      (k.store.kmalloc 16).toOption.map (fun r => decide (0x1000 ≤ r.1)),
      decide (k.HasRoom 0x402000 0x2000))) = some (0x402000, some true, true) := by
    decide +kernel
  rw [boot] at state
  obtain ⟨base, rest⟩ := Prod.mk.inj (Option.some.inj state)
  obtain ⟨node, room⟩ := Prod.mk.inj rest
  obtain ⟨⟨mem, s⟩, allocated, high⟩ := Option.map_eq_some_iff.mp node
  have rounded : pgRoundup 0x1234 = 0x2000 := by decide
  have fits : k.AnonFits 0x1234 := by
    refine ⟨⟨mem, s, ok_of_toOption allocated, of_decide_eq_true high⟩, Or.inr ?_⟩
    rw [base, rounded]
    exact ⟨by decide, by decide, of_decide_eq_true room⟩
  have aligned : k.proc.mmapBase % 0x1000 = 0 := by
    rw [base]
  exact ⟨k, boot, (anon_ok_iff sound dir aligned (by decide) (by decide)).mpr (Or.inr (Or.inr fits))⟩

/-- A length in the last page of the address space is rounded to zero, and granted. -/
theorem long_mmap_granted : ∃ k, smallBoot alignedSegment = .ok k ∧
    ¬ k.AnonOk (smallEnv alignedSegment) 0xFFFFF001 1 0 := by
  obtain ⟨k, boot⟩ := exists_eq_ok (x := smallBoot alignedSegment) (by decide +kernel)
  have answer : (smallBoot alignedSegment >>= fun k =>
      sysMmap (smallEnv alignedSegment) k 0xFFFFF001 1 0).toOption.map Prod.fst = some 0x402000 := by
    decide +kernel
  rw [boot, ok_bind] at answer
  refine ⟨k, boot, fun kept => ?_⟩
  obtain ⟨a, k', done, promise⟩ := kept
  rw [done] at answer
  have base : a = 0x402000 := Option.some.inj answer
  have limit : mmapLimit = 0x7FFFF000 := rfl
  have below := (promise (by omega) (by omega)).below
  omega

end Trunix
