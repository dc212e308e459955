import Trunix.Kernel.Bounds

/-!
# The kernel half of a directory

`pg_identity` maps the kernel with 4 MiB pages that are not for the user, and `copykvm` gives
the entries to every process.  `alloc_pt` never looks at the address it maps: for an address
at or above `KERNEL_OFFSET` it opens such an entry to the user and takes the 4 MiB page for a
table.  The kernel half survives `loadelf` exactly when no segment has a page there.
-/

set_option autoImplicit false

namespace Trunix

open Trunix.Lib

/-! ## The directory of the kernel -/

/-- `pagedir[i] = f(i)` for `n` slots from `i` on. -/
def writeEntries (pd : Nat) (f : Nat → Nat) : Nat → Nat → Mem → Mem
  | 0, _, m => m
  | n + 1, i, m => writeEntries pd f n (i + 1) (store32 m (pd + 4 * i) (f i))

/-- `PG_PSE | PG_RW | PG_P` for a page of 4 MiB at its own address. -/
def identityEntry (i : Nat) : Nat := u32 (i * 0x400000) ||| 0x0080 ||| 0x0002 ||| 0x0001

/-- With `PG_G`, for a page of the kernel at `KERNEL_OFFSET` below its address. -/
def kernelEntry (i : Nat) : Nat :=
  u32 (u32 (i * 0x400000) + kernelOffset) ||| 0x0100 ||| 0x0080 ||| 0x0002 ||| 0x0001

/-- The second loop does not run when the end of the framebuffer wraps around. -/
def pgIdentity (pd fb pitch height : Nat) (m : Mem) : Mem :=
  let fbsz := roundup (u32 (pitch * height)) 0x400000
  let fbndx := fb / 0x400000
  let fbndxEnd := u32 (fb + fbsz) / 0x400000
  let m := writeEntries pd
    (fun i => if kernelOffset / 0x400000 ≤ i then kernelEntry i else identityEntry i) 1024 0 m
  writeEntries pd identityEntry (fbndxEnd - fbndx) fbndx m

/-- The loop of `pg_clear_identity` from slot `i` on: between `low` and `high` every second slot
is cleared, because the body counts as well. -/
def clearEntries (pd low high : Nat) : Nat → Nat → Mem → Mem
  | 0, _, m => m
  | n + 1, i, m =>
      if 1024 ≤ i then m
      else if high < i ∨ i < low then clearEntries pd low high n (i + 1) m
      else clearEntries pd low high n (i + 2) (store32 m (pd + 4 * i) 0)

/-- `_kernel_physical_base` is 4 MiB. -/
def pgClearIdentity (pd kernelUnpagedEnd : Nat) (m : Mem) : Mem :=
  clearEntries pd (u32 (kernelOffset + kernelUnpagedEnd) / 0x400000) (0x400000 / 0x400000) 1024 0 m

/-- The entries of the kernel half are present, writable and not for the user. -/
def KernelDir (m : Mem) (pd : Nat) : Prop :=
  ∀ i, 512 ≤ i → i < 1024 → load32 m (pd + 4 * i) % 8 = 3

theorem writeEntries_load {pd : Nat} {f : Nat → Nat} : ∀ (n i : Nat) (m : Mem) (j : Nat),
    load32 (writeEntries pd f n i m) (pd + 4 * j) =
      if i ≤ j ∧ j < i + n then u32 (f j) else load32 m (pd + 4 * j) := by
  intro n
  induction n with
  | zero =>
      intro i m j
      have outside : ¬ (i ≤ j ∧ j < i + 0) := by omega
      rw [if_neg outside]
      rfl
  | succ n ih =>
      intro i m j
      rw [writeEntries, ih]
      by_cases later : i + 1 ≤ j ∧ j < i + 1 + n
      · have inside : i ≤ j ∧ j < i + (n + 1) := by omega
        rw [if_pos later, if_pos inside]
      · rw [if_neg later]
        by_cases here : j = i
        · have inside : i ≤ j ∧ j < i + (n + 1) := by omega
          rw [if_pos inside, here, load32_store32_same]
          rfl
        · have outside : ¬ (i ≤ j ∧ j < i + (n + 1)) := by omega
          rw [if_neg outside]
          exact load32_store32_of_apart m (by omega)

theorem or_mod_eight (a b : Nat) : (a ||| b) % 8 = a % 8 ||| b % 8 := Nat.or_mod_two_pow (n := 3)

theorem flags_mod_eight {x : Nat} (whole : x % 8 = 0) :
    (x ||| 0x0080 ||| 0x0002 ||| 0x0001) % 8 = 3 ∧
      (x ||| 0x0100 ||| 0x0080 ||| 0x0002 ||| 0x0001) % 8 = 3 := by
  simp only [or_mod_eight, whole]
  decide

theorem u32_mod_eight (x : Nat) : u32 x % 8 = x % 8 := by
  simp only [u32]
  omega

theorem identityEntry_mod (i : Nat) : u32 (identityEntry i) % 8 = 3 := by
  rw [u32_mod_eight]
  refine (flags_mod_eight ?_).1
  rw [u32_mod_eight]
  omega

theorem kernelEntry_mod (i : Nat) : u32 (kernelEntry i) % 8 = 3 := by
  have offset : kernelOffset = 0x80000000 := rfl
  rw [u32_mod_eight]
  refine (flags_mod_eight ?_).2
  rw [u32_add, u32_mod_eight]
  omega

theorem pgIdentity_kernelDir (pd fb pitch height : Nat) (m : Mem) :
    KernelDir (pgIdentity pd fb pitch height m) pd := by
  intro i low high
  have slot : 0 ≤ i ∧ i < 0 + 1024 := by omega
  have kernel : kernelOffset / 0x400000 ≤ i := low
  simp only [pgIdentity]
  rw [writeEntries_load]
  split
  · exact identityEntry_mod i
  · rw [writeEntries_load, if_pos slot, if_pos kernel]
    exact kernelEntry_mod i

theorem clearEntries_load {pd low high j : Nat} (above : high < j) : ∀ (n i : Nat) (m : Mem),
    load32 (clearEntries pd low high n i m) (pd + 4 * j) = load32 m (pd + 4 * j) := by
  intro n
  induction n with
  | zero => intro i m; rfl
  | succ n ih =>
      intro i m
      rw [clearEntries]
      split
      · rfl
      · split
        · exact ih _ _
        · rename_i kept
          rw [ih]
          exact load32_store32_of_apart m (by omega)

theorem KernelDir.pgClearIdentity {m : Mem} {pd : Nat} (h : KernelDir m pd) (kernelUnpagedEnd : Nat) :
    KernelDir (Trunix.pgClearIdentity pd kernelUnpagedEnd m) pd := by
  intro i low high
  have above : 0x400000 / 0x400000 < i := by omega
  rw [Trunix.pgClearIdentity, clearEntries_load above]
  exact h i low high

/-! ## Slots that are opened -/

def UserSlot (m : Mem) (pd i : Nat) : Prop := load32 m (pd + 4 * i) % 8 = 7

theorem or_userFlags_mod (e : Nat) : (e ||| userFlags) % 8 = 7 := by
  have flags : userFlags % 8 = 7 := rfl
  have small : ∀ x < 8, x ||| 7 = 7 := by decide
  rw [or_mod_eight, flags]
  exact small _ (Nat.mod_lt e (by decide))

/-- Whatever word the loop of `alloc_pt` stores, it closes no slot. -/
theorem UserSlot.store {m : Mem} {pd a e i : Nat} (h : UserSlot m pd i) (aligned : a % 4 = 0)
    (dir : pd % 4 = 0) : UserSlot (store32 m a (e ||| userFlags)) pd i := by
  rw [UserSlot]
  by_cases here : a = pd + 4 * i
  · rw [here, load32_store32_same]
    have word := or_userFlags_mod e
    omega
  · rw [load32_store32_of_apart m (by omega)]
    exact h

theorem userSlot_store (m : Mem) (pd e i : Nat) :
    UserSlot (store32 m (pd + 4 * i) (e ||| userFlags)) pd i := by
  have word := or_userFlags_mod e
  rw [UserSlot, load32_store32_same]
  omega

theorem UserSlot.frame {m m' : Mem} {pd i : Nat} {S : Set Nat} (h : UserSlot m pd i) (slot : i < 1024)
    (frame : Frame m m' S) (avoid : ∀ x ∈ page pd, x ∉ S) : UserSlot m' pd i := by
  rw [UserSlot, frame.load32_eq]
  · exact h
  · intro x lo hi
    apply avoid
    simp only [page, Set.mem_Ico]
    omega

section Opening

variable {init : List Block} {pd : Nat} {s s' : Store}

structure Opening (init : List Block) (pd : Nat) (s s' : Store) : Prop where
  grows : s.Grows init s'
  stays : ∀ i < 1024, UserSlot s.mem pd i → UserSlot s'.mem pd i

theorem Opening.refl (sound : s.Sound init) : Opening init pd s s :=
  ⟨.refl sound, fun _ _ open' => open'⟩

theorem Opening.trans {s₁ s₂ s₃ : Store} (h : Opening init pd s₁ s₂) (h' : Opening init pd s₂ s₃) :
    Opening init pd s₁ s₃ :=
  ⟨h.grows.trans h'.grows, fun i lt open' => h'.stays i lt (h.stays i lt open')⟩

variable (sound : s.Sound init) (own : ⟨pd, 0x1000⟩ ∈ s.given)

include sound own

theorem dir_aligned : pd % 4 = 0 := by
  have paged := sound.paged own
  simp only at paged
  omega

theorem tableFor_opens {pde pt : Nat} (done : tableFor pd pde userFlags s = .ok (pt, s')) :
    Opening init pd s s' ∧ UserSlot s'.mem pd pde ∧ pt % 4 = 0 := by
  have aligned := dir_aligned sound own
  have grows := (tableFor_grows sound pd pde userFlags).of_ok done
  rw [tableFor] at done
  split at done
  · generalize call : s.allocPages 0x1000 = result at done
    have alloc := call ▸ sound.alloc 0x1000
    cases alloc with
    | none small => simp [Store.memset, touch] at done
    | zero a free nothing => cases nothing
    | some a free pos fits sound₁ =>
        have size : pgRoundup 0x1000 = 0x1000 := by decide
        rw [size] at sound₁ done
        have paged := sound₁.paged (List.mem_cons_self (l := s.given))
        simp only at paged
        have low : ¬ a < 0x1000 := by omega
        simp only [Store.memset, touch, low, and_false, if_false, ok_bind] at done
        cases done
        refine ⟨⟨grows, fun i lt open' => ?_⟩, userSlot_store _ _ _ _, by omega⟩
        have cleared : UserSlot (fill s.mem pt (4 * 1024) 0) pd i := by
          refine open'.frame lt (fill_frame s.mem pt (4 * 1024) 0) fun x inPage inside => ?_
          have apart := (List.pairwise_cons.mp sound₁.apart).1 _ own
          simp only [Block.Apart] at apart
          simp only [page, Set.mem_Ico] at inPage inside
          omega
        exact cleared.store (by omega) aligned
  · cases done
    refine ⟨⟨grows, fun i lt open' => open'.store (by omega) aligned⟩, userSlot_store _ _ _ _, ?_⟩
    have word := load32_lt s.mem (pd + 4 * pde)
    have frame := frameOf_eq word
    by_cases low : frameOf (load32 s.mem (pd + 4 * pde)) < 0x80000000
    · rw [p2v_of_lt low]
      omega
    · rw [p2v_of_ge (by omega) (by omega)]
      omega

theorem mapPage_opens {va pa : Nat} (done : mapPage pd va pa userFlags s = .ok s') :
    Opening init pd s s' ∧ UserSlot s'.mem pd (va / 0x400000) := by
  rw [mapPage] at done
  obtain ⟨⟨pt, s₁⟩, ready, result⟩ := bind_eq_ok.mp done
  cases result
  obtain ⟨opens, slot, table⟩ := tableFor_opens sound own ready
  have aligned := dir_aligned sound own
  refine ⟨⟨opens.grows.write rfl rfl, fun i lt open' => ?_⟩, slot.store (by omega) aligned⟩
  exact (opens.stays i lt open').store (by omega) aligned

end Opening

theorem mapPages_opens {init : List Block} {pd : Nat} : ∀ (n va pa : Nat) (s s' : Store), s.Sound init →
    ⟨pd, 0x1000⟩ ∈ s.given → va < 0x100000000 → mapPages pd userFlags n va pa s = .ok s' →
    Opening init pd s s' ∧ ∀ j < n, UserSlot s'.mem pd (u32 (va + 0x1000 * j) / 0x400000) := by
  intro n
  induction n with
  | zero =>
      intro va pa s s' sound _ _ done
      cases done
      exact ⟨.refl sound, fun j lt => absurd lt (Nat.not_lt_zero j)⟩
  | succ n ih =>
      intro va pa s s' sound own bound done
      rw [mapPages] at done
      obtain ⟨s₁, mapped, afterMap⟩ := bind_eq_ok.mp done
      obtain ⟨opens, slot⟩ := mapPage_opens sound own mapped
      obtain ⟨later, slots⟩ := ih _ _ s₁ s' opens.grows.sound (opens.grows.given _ own) (u32_lt _) afterMap
      refine ⟨opens.trans later, fun j lt => ?_⟩
      cases j with
      | zero =>
          rw [Nat.mul_zero, Nat.add_zero, u32_of_lt bound]
          exact later.stays _ (by omega) slot
      | succ j =>
          have next := slots j (by omega)
          rw [u32_add] at next
          have place : va + 0x1000 + 0x1000 * j = va + 0x1000 * (j + 1) := by omega
          rw [← place]
          exact next

/-- A range with a page in the kernel half opens a slot of that half, also when it starts
below. -/
theorem allocPt_opens {init : List Block} {pd va pa len : Nat} {s s' : Store} (sound : s.Sound init)
    (own : ⟨pd, 0x1000⟩ ∈ s.given) (bound : va < 0x100000000)
    (done : allocPt pd va pa len userFlags s = .ok s') :
    Opening init pd s s' ∧ (pgRoundup len ≠ 0 → 0x80000000 < pgRounddown va + pgRoundup len →
      ∃ i, 512 ≤ i ∧ i < 1024 ∧ UserSlot s'.mem pd i) := by
  have start := pgRounddown_eq va
  have whole := pgRoundup_mod len
  obtain ⟨opens, slots⟩ := mapPages_opens _ _ _ s s' sound own (by omega) done
  refine ⟨opens, fun some above => ?_⟩
  -- the first page of the range in the kernel half
  let j := (0x80000000 - pgRounddown va) / 0x1000
  have page : 0x80000000 ≤ pgRounddown va + 0x1000 * j ∧ pgRounddown va + 0x1000 * j < 0x100000000 ∧
      j < pgRoundup len / 0x1000 := by
    simp only [j]
    omega
  have slot := slots j page.2.2
  rw [u32_of_lt page.2.1] at slot
  exact ⟨_, by omega, by omega, slot⟩

def CopiesAvoid (a : Nat) (segs : List Proghdr) (mem : Nat) : Prop :=
  ∀ c ∈ copyRanges segs mem, ∀ x ∈ page a, x ∉ Set.Ico c.1 (c.1 + c.2)

theorem loadHdrs_opens {init : List Block} {m : Mem} {bin pd : Nat} : ∀ (segs : List Proghdr) (mem : Nat)
    (regions : List VmRegion) (s : Store) {pass : Pass}, s.Sound init → ⟨pd, 0x1000⟩ ∈ s.given →
    (∀ ph ∈ segs, ph.type = 1 ∧ ph.va < 0x100000000) → CopiesAvoid pd segs mem →
    loadHdrs m bin pd segs mem regions s = .ok pass →
    Opening init pd s pass.store ∧
      (¬ UserPages segs → ∃ i, 512 ≤ i ∧ i < 1024 ∧ UserSlot pass.store.mem pd i) := by
  intro segs
  induction segs with
  | nil =>
      intro mem regions s pass sound _ _ _ done
      cases done
      exact ⟨.refl sound, fun above => absurd (fun ph inNil => absurd inNil List.not_mem_nil) above⟩
  | cons ph rest ih =>
      intro mem regions s pass sound own headers avoid done
      obtain ⟨type, bound⟩ := headers ph List.mem_cons_self
      simp only [loadHdrs, if_pos type] at done
      obtain ⟨s₁, moved, afterMove⟩ := bind_eq_ok.mp done
      obtain ⟨s₂, linked, afterLink⟩ := bind_eq_ok.mp afterMove
      obtain ⟨_, _, result⟩ := bind_eq_ok.mp moved
      cases result
      let src := fun i => m (u32 (bin + ph.off) + i)
      have frame := blit_frame s.mem (u32 (mem + ph.va % 0x1000)) ph.filesz src
      have copied : Opening init pd s
          { s with mem := blit s.mem (u32 (mem + ph.va % 0x1000)) ph.filesz src } :=
        ⟨(Store.Grows.refl sound).write rfl rfl, fun i lt open' =>
          open'.frame lt frame (avoid _ List.mem_cons_self)⟩
      obtain ⟨mapped, above⟩ := allocPt_opens copied.grows.sound (copied.grows.given _ own) bound linked
      have both := copied.trans mapped
      obtain ⟨later, others⟩ := ih _ _ s₂ both.grows.sound (both.grows.given _ own)
        (fun other inRest => headers other (List.mem_cons_of_mem _ inRest))
        (fun c inRest => avoid c (List.mem_cons_of_mem _ inRest)) afterLink
      refine ⟨both.trans later, fun notUser => ?_⟩
      by_cases user : UserPages rest
      · have high : ¬ (ph.len = 0 ∨ ph.firstPage + ph.len ≤ 0x80000000) := by
          intro low
          apply notUser
          intro other inBoth
          rcases List.mem_cons.mp inBoth with rfl | inRest
          · exact low
          · exact user other inRest
        have range : pgRoundup ph.len = ph.len := pgRoundup_of_aligned ph.len_aligned
        have above' : pgRoundup ph.len ≠ 0 → 0x80000000 < pgRounddown ph.va + pgRoundup ph.len →
          ∃ i, 512 ≤ i ∧ i < 1024 ∧ UserSlot s₂.mem pd i := above
        simp only [Proghdr.firstPage] at high
        obtain ⟨i, low, slot, open'⟩ := above' (by omega) (by omega)
        exact ⟨i, low, slot, later.stays i slot open'⟩
      · exact others user

/-! ## Slots that are kept -/

def copiedBytes (segs : List Proghdr) (mem : Nat) : Set Nat :=
  {x | ∃ c ∈ copyRanges segs mem, x ∈ Set.Ico c.1 (c.1 + c.2)}

section Kept

variable {init : List Block} {pd : Nat} {S : Set Nat} {s s' : Store}

/-- The kernel half of the directory stays, and what is written lies in its tables, in new
blocks or in `S`, which may run over tables as well. -/
structure HalfKept (init : List Block) (pd : Nat) (S : Set Nat) (s s' : Store) : Prop where
  sound : s'.Sound init
  dir : PageDir s' pd
  given : ∀ b ∈ s.given, b ∈ s'.given
  kernel : ∀ i, 512 ≤ i → i < 1024 → load32 s'.mem (pd + 4 * i) = load32 s.mem (pd + 4 * i)
  tables : tableBytes s'.mem pd ⊆ tableBytes s.mem pd ∪ s.newBytes s'
  frame : Frame s.mem s'.mem (tableBytes s.mem pd ∪ s.newBytes s' ∪ S)

theorem HalfKept.trans {s₁ s₂ s₃ : Store} (h : HalfKept init pd S s₁ s₂)
    (h' : HalfKept init pd S s₂ s₃) : HalfKept init pd S s₁ s₃ := by
  have earlier : s₁.newBytes s₂ ⊆ s₁.newBytes s₃ := Store.newBytes_mono (fun _ mem => mem) h'.given
  have later : s₂.newBytes s₃ ⊆ s₁.newBytes s₃ := Store.newBytes_mono h.given (fun _ mem => mem)
  have tables : tableBytes s₂.mem pd ⊆ tableBytes s₁.mem pd ∪ s₁.newBytes s₃ :=
    h.tables.trans (Set.union_subset_union_right _ earlier)
  have both : tableBytes s₂.mem pd ∪ s₂.newBytes s₃ ⊆ tableBytes s₁.mem pd ∪ s₁.newBytes s₃ :=
    Set.union_subset tables (later.trans Set.subset_union_right)
  refine ⟨h'.sound, h'.dir, fun b mem => h'.given b (h.given b mem),
    fun i low high => (h'.kernel i low high).trans (h.kernel i low high), h'.tables.trans both, ?_⟩
  refine (h.frame.mono ?_).trans (h'.frame.mono (Set.union_subset_union_left S both))
  exact Set.union_subset_union_left S (Set.union_subset_union_right _ earlier)

theorem HalfKept.mono {T : Set Nat} (h : HalfKept init pd S s s') (sub : S ⊆ T) :
    HalfKept init pd T s s' :=
  ⟨h.sound, h.dir, h.given, h.kernel, h.tables, h.frame.mono (Set.union_subset_union_right _ sub)⟩

theorem Mapping.halfKept (h : Mapping init pd s s') : HalfKept init pd S s s' := by
  have tables := (h.filling (S := ∅)).tables_new
  exact ⟨h.sound, h.dir, fun _ mem => h.mem_given mem, h.kernel, tables,
    h.frame.mono (tables.trans Set.subset_union_left)⟩

theorem HalfKept.copy (sound : s.Sound init) (dir : PageDir s pd) {m : Mem} (frame : Frame s.mem m S)
    (avoid : ∀ x ∈ page pd, x ∉ S) : HalfKept init pd S s { s with mem := m } := by
  have given : ∀ b ∈ s.given, b ∈ ({ s with mem := m } : Store).given := fun _ mem => mem
  obtain ⟨dir', same⟩ := dir.of_frame given frame avoid
  refine ⟨sound.write rfl rfl, dir', fun _ mem => mem, fun i _ high => same i high, ?_,
    frame.mono Set.subset_union_right⟩
  rw [tableBytes_congr same]
  exact Set.subset_union_left

end Kept

theorem loadHdrs_halfKept {init : List Block} {m : Mem} {bin pd : Nat} : ∀ (segs : List Proghdr)
    (mem : Nat) (regions : List VmRegion) (s : Store) {pass : Pass}, s.Sound init → PageDir s pd →
    (∀ ph ∈ segs, ph.type = 1) → CopiesAvoid pd segs mem → UserPages segs →
    loadHdrs m bin pd segs mem regions s = .ok pass →
    HalfKept init pd (copiedBytes segs mem) s pass.store := by
  intro segs
  induction segs with
  | nil =>
      intro mem regions s pass sound dir _ _ _ done
      cases done
      exact (Mapping.refl sound dir).halfKept
  | cons ph rest ih =>
      intro mem regions s pass sound dir types avoid user done
      simp only [loadHdrs, if_pos (types ph List.mem_cons_self)] at done
      obtain ⟨s₁, moved, afterMove⟩ := bind_eq_ok.mp done
      obtain ⟨s₂, linked, afterLink⟩ := bind_eq_ok.mp afterMove
      obtain ⟨_, _, result⟩ := bind_eq_ok.mp moved
      cases result
      let src := fun i => m (u32 (bin + ph.off) + i)
      have frame := blit_frame s.mem (u32 (mem + ph.va % 0x1000)) ph.filesz src
      have first : Set.Ico (u32 (mem + ph.va % 0x1000)) (u32 (mem + ph.va % 0x1000) + ph.filesz) ⊆
          copiedBytes (ph :: rest) mem := fun x inside => ⟨_, List.mem_cons_self, inside⟩
      have others : copiedBytes rest (u32 (mem + pgRoundup ph.memsz)) ⊆ copiedBytes (ph :: rest) mem := by
        rintro x ⟨c, inRest, inside⟩
        exact ⟨c, List.mem_cons_of_mem _ inRest, inside⟩
      have copied := (HalfKept.copy sound dir frame (avoid _ List.mem_cons_self)).mono first
      have mapping := allocPt_mapping copied.sound copied.dir
        (user.range List.mem_cons_self) linked
      have both := copied.trans mapping.halfKept
      have later := ih _ _ s₂ both.sound both.dir
        (fun other inRest => types other (List.mem_cons_of_mem _ inRest))
        (fun c inRest => avoid c (List.mem_cons_of_mem _ inRest))
        (fun other inRest => user other (List.mem_cons_of_mem _ inRest)) afterLink
      exact both.trans (later.mono others)

/-! ## The whole of `loadelf` -/

theorem load32_of_bytes {m m' : Mem} {a b : Nat} (same : ∀ i < 4, m' (b + i) = m (a + i)) :
    load32 m' b = load32 m a := by
  have digits := loadLE_of_digits m' 4 b (load32 m a)
    (fun i lt => (same i lt).trans (digit_loadLE m 4 a i lt).symm)
  exact digits.trans (Nat.mod_eq_of_lt (load32_lt m a))

/-- The page lies outside the memory of the allocator, as that of the kernel's directory does:
it is in the unpaged sections, which `init_trunix` cuts out of the map. -/
def Reserved (init : List Block) (a : Nat) : Prop :=
  ∀ b ∈ init, b.addr + b.sz ≤ a ∨ a + 0x1000 ≤ b.addr

theorem Reserved.apart {init : List Block} {a : Nat} (h : Reserved init a) {s : Store}
    (sound : s.Sound init) {b : Block} (mem : b ∈ s.given) : b.addr + b.sz ≤ a ∨ a + 0x1000 ≤ b.addr := by
  obtain ⟨c, inInit, inside⟩ := sound.tidy.inside b (List.mem_append_right _ mem)
  have apart := h c inInit
  simp only [Block.Inside] at inside
  omega

theorem copykvm_kernel {init : List Block} {kpagedir pd : Nat} {s s' : Store} (sound : s.Sound init)
    (reserved : Reserved init kpagedir) (done : copykvm kpagedir s = .ok (pd, s')) :
    ∀ i, 512 ≤ i → i < 1024 → load32 s'.mem (pd + 4 * i) = load32 s.mem (kpagedir + 4 * i) := by
  obtain ⟨sound', dir, _⟩ := copykvm_spec sound done
  have apart := reserved.apart sound' dir.own
  simp only at apart
  intro i low high
  simp only [copykvm] at done
  obtain ⟨s₁, cleared, afterClear⟩ := bind_eq_ok.mp done
  obtain ⟨s₂, copied, result⟩ := bind_eq_ok.mp afterClear
  cases result
  obtain ⟨_, _, filled⟩ := bind_eq_ok.mp cleared
  obtain ⟨_, _, moved⟩ := bind_eq_ok.mp copied
  cases filled
  cases moved
  have half : kernelOffset / 0x400000 = 512 := by decide
  apply load32_of_bytes
  intro j lt
  obtain ⟨sameMem, _⟩ := s.allocPages_mem 0x1000
  simp only [half, blit, fill, sameMem]
  have inside : (s.allocPages 0x1000).1 + 4 * 512 ≤ (s.allocPages 0x1000).1 + 4 * i + j ∧
      (s.allocPages 0x1000).1 + 4 * i + j <
        (s.allocPages 0x1000).1 + 4 * 512 + 4 * (1024 - 512) := by omega
  have place : kpagedir + 4 * 512 + ((s.allocPages 0x1000).1 + 4 * i + j -
      ((s.allocPages 0x1000).1 + 4 * 512)) = kpagedir + 4 * i + j := by omega
  rw [if_pos inside, place, if_neg (by omega)]

theorem segments_bound (m : Mem) (bin : Nat) :
    ∀ ph ∈ segments (proghdrs m bin), ph.type = 1 ∧ ph.va < 0x100000000 := by
  intro ph mem
  refine ⟨segments_load _ ph mem, ?_⟩
  obtain ⟨i, _, rfl⟩ := List.mem_map.mp (List.mem_filter.mp mem).1
  exact load32_lt m _

section Loaded

variable {init : List Block} {kpagedir bin cr3 entry base sz : Nat} {m : Mem} {regions : List VmRegion}
  {s s' : Store} {segs : List Proghdr}

theorem loadImage_begins (sound : s.Sound init) (reserved : Reserved init kpagedir)
    (all : segments (proghdrs m bin) = segs)
    (done : loadImage kpagedir m bin s = .ok (.loaded cr3 entry base sz regions, s')) :
    ∃ s₃ pass, p2v cr3 = (s.allocPages 0x1000).1 ∧
      PassBegins init (p2v cr3) (blockAt s (blockSize segs)) (blockSize segs) s s₃ ∧
      (∀ i, 512 ≤ i → i < 1024 →
        load32 s₃.mem (p2v cr3 + 4 * i) = load32 s.mem (kpagedir + 4 * i)) ∧
      loadHdrs m bin (p2v cr3) segs (blockAt s (blockSize segs)) [] s₃ = .ok pass ∧
      allocPt (p2v cr3) 0x7FFFF000 (v2p pass.mem) 0x1000 userFlags pass.store = .ok s' := by
  obtain ⟨pd, s₁, s₂, array, s₃, pass, copied, _, baseEq, sizeEq, cleared, allocated, loaded, linked,
    rfl, _, _⟩ := loadImage_stages done
  rw [all] at baseEq sizeEq loaded
  obtain ⟨sound₁, dir₁, _⟩ := copykvm_spec sound copied
  have paged := sound₁.paged dir₁.own
  simp only at paged
  have high : p2v (v2p pd) = pd := p2v_v2p (by omega) (by omega)
  have size : sz = blockSize segs := by rw [sizeEq, baseEq, blockSize]
  rcases copykvm_stage sound with ⟨_, fault⟩ | ⟨_, s₁', copied', free₁⟩
  · rw [fault] at copied
    cases copied
  obtain ⟨dirEq, rfl⟩ := Prod.mk.inj (Except.ok.inj (copied'.symm.trans copied))
  have block : blockAt s (blockSize segs) = (s₁'.allocPages (blockSize segs)).1 :=
    (Store.allocPages_same free₁ (blockSize segs)).1.symm
  rw [size] at cleared loaded
  rcases block_stage sound₁ (blockSize_aligned segs) with
    ⟨_, _, fault⟩ | ⟨_, s₂', cleared', sound₂, own, older, _, _, frame₂⟩
  · rw [fault] at cleared
    cases cleared
  cases Except.ok.inj (cleared'.symm.trans cleared)
  rw [← block] at own frame₂ loaded
  have begins := passBegins sound copied sound₂ own older frame₂ allocated
  refine ⟨s₃, pass, high.trans dirEq.symm, high.symm ▸ begins, fun i low lt => ?_, high.symm ▸ loaded,
    high.symm ▸ linked⟩
  rw [high, (Store.kmalloc_heap allocated).1, ← copykvm_kernel sound reserved copied i low lt]
  apply frame₂.load32_eq
  intro x lo hi
  apply begins.loadable.clear
  left
  simp only [page, Set.mem_Ico]
  omega

/-- The kernel half of the new directory is that of `kpagedir`, which stays as it was, and
`alloc_pt` wrote to new memory only. -/
structure KernelKept (kpagedir : Nat) (segs : List Proghdr) (s s' : Store) (pd : Nat) : Prop where
  same : ∀ i, 512 ≤ i → i < 1024 → load32 s'.mem (pd + 4 * i) = load32 s'.mem (kpagedir + 4 * i)
  kept : ∀ i, 512 ≤ i → i < 1024 →
    load32 s'.mem (kpagedir + 4 * i) = load32 s.mem (kpagedir + 4 * i)
  frame : Frame s.mem s'.mem (s.newBytes s' ∪ copiedBytes segs (blockAt s (blockSize segs)))

theorem PassBegins.written {pd blk sz : Nat} {S : Set Nat} {s₃ : Store}
    (begins : PassBegins init pd blk sz s s₃) (h : HalfKept init pd S s₃ s') :
    Frame s.mem s'.mem (s.newBytes s' ∪ S) := by
  have newer : s₃.newBytes s' ⊆ s.newBytes s' := Store.newBytes_mono begins.older (fun _ mem => mem)
  have directory : page pd ⊆ s.newBytes s' := fun x inPage =>
    ⟨_, h.given _ begins.loadable.dir.own, begins.directory, inPage⟩
  have tables : tableBytes s₃.mem pd ⊆ s.newBytes s' := by
    rintro x (inPage | ⟨i, lt, here, _⟩)
    · exact directory inPage
    · exact absurd here (begins.empty i lt)
  have block : Set.Ico blk (blk + sz) ⊆ s.newBytes s' := by
    intro x inBlock
    rcases begins.loadable.own with none | own
    · simp only [Set.mem_Ico] at inBlock
      omega
    · have positive := (begins.loadable.sound.paged own).2.2.1
      exact ⟨_, h.given _ own, begins.block.resolve_left (by simp only at positive; omega), inBlock⟩
  refine (begins.frame.mono ?_).trans (h.frame.mono ?_)
  · exact (Set.union_subset directory block).trans Set.subset_union_left
  · exact Set.union_subset_union_left _ (Set.union_subset tables newer)

theorem PassBegins.kernelKept {pd : Nat} {s₃ : Store} (reserved : Reserved init kpagedir)
    (begins : PassBegins init pd (blockAt s (blockSize segs)) (blockSize segs) s s₃)
    (kernel : ∀ i, 512 ≤ i → i < 1024 → load32 s₃.mem (pd + 4 * i) = load32 s.mem (kpagedir + 4 * i))
    (avoid : CopiesAvoid kpagedir segs (blockAt s (blockSize segs)))
    (h : HalfKept init pd (copiedBytes segs (blockAt s (blockSize segs))) s₃ s') :
    KernelKept kpagedir segs s s' pd := by
  have frame := begins.written h
  have kept : ∀ i, 512 ≤ i → i < 1024 →
      load32 s'.mem (kpagedir + 4 * i) = load32 s.mem (kpagedir + 4 * i) := by
    intro i low lt
    apply frame.load32_eq
    intro x lo hi written
    have inPage : x ∈ page kpagedir := by
      simp only [page, Set.mem_Ico]
      omega
    rcases written with ⟨b, mem, _, inside⟩ | ⟨c, mem, inside⟩
    · have apart := reserved.apart h.sound mem
      simp only [page, Set.mem_Ico] at inPage
      omega
    · exact avoid c mem x inPage inside
  exact ⟨fun i low lt => ((h.kernel i low lt).trans (kernel i low lt)).trans (kept i low lt).symm, kept,
    frame⟩

def CopiesClear (kpagedir : Nat) (s : Store) (segs : List Proghdr) : Prop :=
  CopiesAvoid (s.allocPages 0x1000).1 segs (blockAt s (blockSize segs)) ∧
    CopiesAvoid kpagedir segs (blockAt s (blockSize segs))

theorem CopiesClear.of_fits (sound : s.Sound init) (reserved : Reserved init kpagedir)
    (all : segments (proghdrs m bin) = segs) (fits : CopiesFit (blockSize segs) segs 0)
    (done : loadImage kpagedir m bin s = .ok (.loaded cr3 entry base sz regions, s')) :
    CopiesClear kpagedir s segs := by
  obtain ⟨s₃, pass, dirEq, begins, _, _, _⟩ := loadImage_begins sound reserved all done
  have word : blockAt s (blockSize segs) < 0x100000000 :=
    (Store.allocPages_grows sound 0x1000).sound.alloc_lt _
  have loadable := begins.loadable
  have bound : blockAt s (blockSize segs) + blockSize segs ≤ 0x100000000 := by
    rcases loadable.own with none | own
    · omega
    · have paged := loadable.sound.paged own
      simp only at paged
      exact paged.2.2.2.2
  have inside := (copyRanges_inside bound segs 0 rfl (by decide)).mpr fits
  rw [Nat.add_zero, u32_of_lt word] at inside
  -- a page that is apart from the block
  have avoid : ∀ a, (∀ x ∈ page a, x ∉ Set.Ico (blockAt s (blockSize segs))
      (blockAt s (blockSize segs) + blockSize segs)) →
      CopiesAvoid a segs (blockAt s (blockSize segs)) := by
    intro a apart c mem x inPage inCopy
    have range := inside c mem
    refine apart x inPage ?_
    simp only [Set.mem_Ico] at inCopy ⊢
    omega
  refine ⟨avoid _ fun x inPage => loadable.clear x (.inl (dirEq ▸ inPage)), avoid _ fun x inPage within => ?_⟩
  rcases loadable.own with none | own
  · simp only [none, Set.mem_Ico] at within
    omega
  · have away := reserved.apart loadable.sound own
    simp only [page, Set.mem_Ico] at away inPage within
    omega

variable (sound : s.Sound init) (reserved : Reserved init kpagedir)
  (all : segments (proghdrs m bin) = segs) (clear : CopiesClear kpagedir s segs)
  (done : loadImage kpagedir m bin s = .ok (.loaded cr3 entry base sz regions, s'))

include sound reserved all clear done

theorem loadImage_kernelKept (user : UserPages segs) : KernelKept kpagedir segs s s' (p2v cr3) := by
  obtain ⟨s₃, pass, dirEq, begins, kernel, loaded, linked⟩ := loadImage_begins sound reserved all done
  have types : ∀ ph ∈ segs, ph.type = 1 := all ▸ segments_load _
  have avoid : CopiesAvoid (p2v cr3) segs (blockAt s (blockSize segs)) := by
    rw [dirEq]
    exact clear.1
  have passed := loadHdrs_halfKept segs _ _ s₃ begins.loadable.sound begins.loadable.dir types avoid user
    loaded
  have stack := allocPt_mapping passed.sound passed.dir (Or.inr (by decide)) linked
  exact begins.kernelKept reserved kernel clear.2 (passed.trans stack.halfKept)

/-- A page of a segment in the kernel half leaves a slot there open to the user. -/
theorem loadImage_userPages (dir : KernelDir s.mem kpagedir)
    (kept : KernelKept kpagedir segs s s' (p2v cr3)) : UserPages segs := by
  obtain ⟨s₃, pass, dirEq, begins, kernel, loaded, linked⟩ := loadImage_begins sound reserved all done
  have avoid : CopiesAvoid (p2v cr3) segs (blockAt s (blockSize segs)) := by
    rw [dirEq]
    exact clear.1
  obtain ⟨opens, above⟩ := loadHdrs_opens segs _ _ s₃ begins.loadable.sound begins.loadable.dir.own
    (all ▸ segments_bound m bin) avoid loaded
  by_contra notUser
  obtain ⟨i, low, lt, slot⟩ := above notUser
  have later := (allocPt_opens opens.grows.sound (opens.grows.given _ begins.loadable.dir.own)
    (by decide) linked).1
  have open' := later.stays i lt slot
  have closed := dir i low lt
  rw [UserSlot, kept.same i low lt, kept.kept i low lt, closed] at open'
  cases open'

end Loaded

/-- In every state of every careful run, for every file that `loadelf` accepts and whose copies fit
its block: the kernel half is kept when no page of a segment is at or above `KERNEL_OFFSET`,
and, with the kernel's own entries closed to the user, only then. -/
theorem loadelf_kernel_half {init : List Block} {env : Env} {k₀ k₁ k₂ k : Kernel} {idleEntry : Nat}
    (atBoot : SteadyBoot init env k₀) (booted : initsys env k₀ = .ok k₁)
    (sched : initSched k₁ idleEntry = .ok k₂)
    (run : Runs (Kernel.step env) (Kernel.Careful env) k₂ k)
    (reserved : Reserved init env.kpagedir) {path : List UInt8} {bin cr3 entry base sz : Nat}
    {regions : List VmRegion} {s' : Store} (file : env.initrd.elf path = some bin)
    (fits : CopiesFit (blockSize (env.initrd.segments bin)) (env.initrd.segments bin) 0)
    (done : loadFile env.kpagedir env.initrd path k.store =
      .ok (.loaded cr3 entry base sz regions, s')) :
    (UserPages (env.initrd.segments bin) →
        KernelKept env.kpagedir (env.initrd.segments bin) k.store s' (p2v cr3)) ∧
      (KernelDir k.store.mem env.kpagedir →
        KernelKept env.kpagedir (env.initrd.segments bin) k.store s' (p2v cr3) →
        UserPages (env.initrd.segments bin)) := by
  obtain ⟨root, scheduled⟩ := (initSched_scheduled atBoot.toAtBoot booted).of_ok sched
  obtain ⟨Q, later, _⟩ := scheduled.run run
  rw [loadFile_eq, file] at done
  have clear := CopiesClear.of_fits later.sound reserved rfl fits done
  exact ⟨loadImage_kernelKept later.sound reserved rfl clear done,
    loadImage_userPages later.sound reserved rfl clear done⟩

def identityKernel : Kernel :=
  { smallKernel with
    store := { smallKernel.store with mem := pgIdentity 0x80101000 0xE0000000 0x1000 0x300 fun _ => 0 } }

theorem identityKernel_atBoot : AtBoot smallFree identityKernel :=
  ⟨smallKernel_sound.write rfl rfl, rfl, rfl, rfl, rfl⟩

def identityBoot (ph : Proghdr) : Except Halt Kernel := do
  let k ← initsys (smallEnv ph) identityKernel
  initSched k 0

theorem smallFree_reserved : Reserved smallFree 0x80101000 := by
  intro b mem
  rcases List.mem_cons.mp mem with rfl | mem
  · exact Or.inl (by decide)
  · rw [List.mem_singleton.mp mem]
    exact Or.inr (by decide)

theorem loadelf_kernel_half_first : ∃ k₂ cr3 entry base sz regions s',
    identityBoot alignedSegment = .ok k₂ ∧
    loadFile 0x80101000 (smallEnv alignedSegment).initrd (pathBytes "/sbin/init") k₂.store =
      .ok (.loaded cr3 entry base sz regions, s') ∧
    KernelKept 0x80101000 [alignedSegment] k₂.store s' (p2v cr3) := by
  have segs := smallEnv_segments
  have all : (identityBoot alignedSegment >>= fun k₂ =>
      loadFile 0x80101000 (smallEnv alignedSegment).initrd (pathBytes "/sbin/init") k₂.store >>= fun r =>
      r.1.image >>= fun _ => (.ok true : Except Halt Bool)) = .ok true :=
    ok_of_toOption (by decide +kernel)
  obtain ⟨k₂, boot, all⟩ := bind_eq_ok.mp all
  obtain ⟨⟨result, s'⟩, done, all⟩ := bind_eq_ok.mp all
  obtain ⟨⟨cr3, sz⟩, image, _⟩ := bind_eq_ok.mp all
  obtain ⟨entry, base, regions, loaded⟩ := LoadResult.eq_loaded image
  obtain ⟨k₁, booted, scheduled⟩ := bind_eq_ok.mp boot
  simp only at loaded
  subst loaded
  have ok : SegsOk [alignedSegment] := segsOk_singleton (by decide) (by decide)
  have half := (loadelf_kernel_half ⟨identityKernel_atBoot, smallEnv_fits⟩ booted scheduled .refl
    smallFree_reserved (by decide +kernel) (segs.symm ▸ ok.loadFits.copies) done).1
  rw [segs] at half
  exact ⟨k₂, cr3, entry, base, sz, regions, s', boot, done, half ok.userPages⟩

def kernelSegment : Proghdr := ⟨1, 84, 0x80800000, 8, 0x1000⟩

/-- The third page of 4 MiB of the kernel becomes writable for the user, and its first word an
entry of a table. -/
theorem kernel_segment_opens : ∃ k₂ cr3 entry base sz regions s',
    identityBoot kernelSegment = .ok k₂ ∧
    (smallEnv kernelSegment).initrd.segments 0x80300000 = [kernelSegment] ∧
    loadFile 0x80101000 (smallEnv kernelSegment).initrd (pathBytes "/sbin/init") k₂.store =
      .ok (.loaded cr3 entry base sz regions, s') ∧
    load32 k₂.store.mem (0x80101000 + 4 * 514) = 0x00800183 ∧
    load32 s'.mem (p2v cr3 + 4 * 514) = 0x00800187 ∧ load32 s'.mem 0x80800000 % 8 = 7 ∧
    ¬ KernelKept 0x80101000 [kernelSegment] k₂.store s' (p2v cr3) := by
  have all : (identityBoot kernelSegment >>= fun k₂ =>
      loadFile 0x80101000 (smallEnv kernelSegment).initrd (pathBytes "/sbin/init") k₂.store >>= fun r =>
      r.1.image >>= fun image =>
      (.ok (decide (load32 k₂.store.mem (0x80101000 + 4 * 514) = 0x00800183 ∧
        load32 r.2.mem (p2v image.1 + 4 * 514) = 0x00800187 ∧ load32 r.2.mem 0x80800000 % 8 = 7)) :
        Except Halt Bool)) = .ok true := ok_of_toOption (by decide +kernel)
  obtain ⟨k₂, boot, all⟩ := bind_eq_ok.mp all
  obtain ⟨⟨result, s'⟩, done, all⟩ := bind_eq_ok.mp all
  obtain ⟨⟨cr3, sz⟩, image, values⟩ := bind_eq_ok.mp all
  obtain ⟨closed, opened, word⟩ := of_decide_eq_true (Except.ok.inj values)
  obtain ⟨entry, base, regions, loaded⟩ := LoadResult.eq_loaded image
  simp only at loaded
  subst loaded
  refine ⟨k₂, cr3, entry, base, sz, regions, s', boot, by decide +kernel, done, closed, opened, word,
    fun kept => ?_⟩
  have same := (kept.same 514 (by decide) (by decide)).trans (kept.kept 514 (by decide) (by decide))
  rw [closed, opened] at same
  cases same

end Trunix
