import Trunix.Kernel.Store

/-!
# Page directories

`copykvm` and `alloc_pt` of `kernel/mem.c` on the bytes of memory, and the walk the
processor makes through the tables they build.  Tables are reached at their kernel
addresses.  `PageDir` is what a directory of a process keeps: its tables are pages of
their own that `alloc_pages` handed out.
-/

set_option autoImplicit false

namespace Trunix

open Trunix.Lib

def userFlags : Nat := 0x0004 ||| 0x0002 ||| 0x0001

def frameOf (e : Nat) : Nat := e &&& 0xFFFFF000

/-- `memsetl` and `memcpyl` count in words. -/
def copykvm (kpagedir : Nat) (s : Store) : Except Halt (Nat × Store) := do
  let (pd, s) := s.allocPages 0x1000
  let s ← s.memset pd 0 (4 * 1024)
  let half := kernelOffset / 0x400000
  let s ← s.memmove (pd + 4 * half) (fun i => s.mem (kpagedir + 4 * half + i)) (4 * (1024 - half))
  return (pd, s)

/-- The table for a directory slot, which is allocated when the slot is empty. -/
def tableFor (pd pde flags : Nat) (s : Store) : Except Halt (Nat × Store) :=
  let entry := load32 s.mem (pd + 4 * pde)
  if entry % 2 = 0 then do
    let (pt, s) := s.allocPages 0x1000
    let s ← s.memset pt 0 (4 * 1024)
    return (pt, { s with mem := store32 s.mem (pd + 4 * pde) (frameOf (v2p pt) ||| flags) })
  else
    .ok (p2v (frameOf entry), { s with mem := store32 s.mem (pd + 4 * pde) (entry ||| flags) })

/-- The body of the loop of `alloc_pt`. -/
def mapPage (pd va pa flags : Nat) (s : Store) : Except Halt Store := do
  let pde := va / 0x400000
  let pte := va / 0x1000 % 0x400
  let (pt, s) ← tableFor pd pde flags s
  return { s with mem := store32 s.mem (pt + 4 * pte) (frameOf pa ||| flags) }

def mapPages (pd flags : Nat) : Nat → Nat → Nat → Store → Except Halt Store
  | 0, _, _, s => .ok s
  | n + 1, va, pa, s => do
      let s ← mapPage pd va pa flags s
      mapPages pd flags n (u32 (va + 0x1000)) (u32 (pa + 0x1000)) s

def allocPt (pd va pa len flags : Nat) (s : Store) : Except Halt Store :=
  mapPages pd flags (pgRoundup len / 0x1000) (pgRounddown va) (pgRounddown pa) s

/-! ## The walk of the processor -/

def present (m : Mem) (pd i : Nat) : Prop := load32 m (pd + 4 * i) % 2 = 1

instance (m : Mem) (pd i : Nat) : Decidable (present m pd i) := Nat.decEq _ _

def table (m : Mem) (pd i : Nat) : Nat := p2v (frameOf (load32 m (pd + 4 * i)))

/-- The physical address `va` stands for; an entry with `PG_PSE` maps 4 MiB by itself. -/
def walk (m : Mem) (pd va : Nat) : Option Nat :=
  let pde := load32 m (pd + 4 * (va / 0x400000))
  if pde % 2 = 0 then none
  else if pde / 0x80 % 2 = 1 then some (pde / 0x400000 * 0x400000 + va % 0x400000)
  else
    let pte := load32 m (p2v (frameOf pde) + 4 * (va / 0x1000 % 0x400))
    if pte % 2 = 0 then none else some (frameOf pte + va % 0x1000)

/-! ## Entries -/

theorem frameOf_eq {e : Nat} (bound : e < 0x100000000) : frameOf e = e / 0x1000 * 0x1000 := by
  have mask : 0xFFFFF000 = 2 ^ 12 * (2 ^ 20 - 1) := rfl
  have page : e / 0x1000 * 0x1000 = 2 ^ 12 * (e / 2 ^ 12) := Nat.mul_comm _ _
  rw [frameOf, mask, page]
  apply Nat.eq_of_testBit_eq
  intro i
  rw [Nat.testBit_and, Nat.testBit_two_pow_mul, Nat.testBit_two_pow_mul, Nat.testBit_two_pow_sub_one,
    Nat.testBit_div_two_pow]
  by_cases low : 12 ≤ i
  · by_cases high : i < 32
    · have inside : i - 12 < 20 := by omega
      simp [low, inside]
    · have out : e.testBit i = false := Nat.testBit_lt_two_pow (Nat.lt_of_lt_of_le bound
        (Nat.pow_le_pow_right (n := 2) (by decide) (by omega : 32 ≤ i)))
      simp [low, out]
  · simp [low]

theorem frameOf_or {e : Nat} (bound : e < 0x100000000) :
    frameOf e ||| userFlags = e / 0x1000 * 0x1000 + 7 := by
  rw [frameOf_eq bound, Nat.mul_comm]
  exact (Nat.two_pow_add_eq_or_of_lt (i := 12) (by decide) _).symm

theorem or_userFlags {e : Nat} (flags : e % 0x1000 = 7) : e ||| userFlags = e := by
  have split : e = 2 ^ 12 * (e / 0x1000) + 7 := by omega
  have or := Nat.two_pow_add_eq_or_of_lt (i := 12) (b := 7) (by decide) (e / 0x1000)
  rw [split, or, Nat.or_assoc]
  rfl

def page (a : Nat) : Set Nat := Set.Ico a (a + 0x1000)

theorem Store.Sound.pages_apart {init : List Block} {s : Store} {a b : Nat} (h : s.Sound init)
    (memA : ⟨a, 0x1000⟩ ∈ s.given) (memB : ⟨b, 0x1000⟩ ∈ s.given) (ne : a ≠ b) :
    a + 0x1000 ≤ b ∨ b + 0x1000 ≤ a := by
  have apart := h.apart_of_ne memA memB (fun same => ne (congrArg Block.addr same))
  simp only [Block.Apart] at apart
  exact apart

/-! ## Directories of processes -/

structure PageDir (s : Store) (pd : Nat) : Prop where
  own : ⟨pd, 0x1000⟩ ∈ s.given
  flags : ∀ i < 512, present s.mem pd i → load32 s.mem (pd + 4 * i) % 0x1000 = 7
  tables : ∀ i < 512, present s.mem pd i →
    ⟨table s.mem pd i, 0x1000⟩ ∈ s.given ∧ table s.mem pd i ≠ pd
  distinct : ∀ i < 512, ∀ j < 512, i ≠ j → present s.mem pd i → present s.mem pd j →
    table s.mem pd i ≠ table s.mem pd j

def tableBytes (m : Mem) (pd : Nat) : Set Nat :=
  {x | x ∈ page pd ∨ ∃ i < 512, present m pd i ∧ x ∈ page (table m pd i)}

/-- How a store changes while the bytes of `S` are filled and mapped into one directory.
The blocks that were allocated are tables of the directory, and no table is ever dropped. -/
structure Filling (init : List Block) (pd : Nat) (S : Set Nat) (s s' : Store) : Prop where
  sound : s'.Sound init
  dir : PageDir s' pd
  given : ∃ new, s'.given = new ++ s.given ∧
    (∀ b ∈ new, ∃ i < 512, present s'.mem pd i ∧ b = ⟨table s'.mem pd i, 0x1000⟩) ∧
    ∀ i < 512, present s'.mem pd i → ¬ present s.mem pd i → ⟨table s'.mem pd i, 0x1000⟩ ∈ new
  keeps : ∀ i < 512, present s.mem pd i → present s'.mem pd i ∧
    table s'.mem pd i = table s.mem pd i
  frame : Frame s.mem s'.mem (tableBytes s'.mem pd ∪ S)

section Filling

variable {init : List Block} {pd : Nat} {S : Set Nat} {s s₁ s₂ s₃ : Store}

theorem Filling.tableBytes_subset (h : Filling init pd S s s₁) :
    tableBytes s.mem pd ⊆ tableBytes s₁.mem pd := by
  intro x mem
  rcases mem with own | ⟨i, lt, here, inside⟩
  · exact Or.inl own
  · obtain ⟨here', same⟩ := h.keeps i lt here
    exact Or.inr ⟨i, lt, here', same ▸ inside⟩

theorem Filling.trans (h : Filling init pd S s₁ s₂) (h' : Filling init pd S s₂ s₃) :
    Filling init pd S s₁ s₃ := by
  obtain ⟨new, given, isTable, filled⟩ := h.given
  obtain ⟨new', given', isTable', filled'⟩ := h'.given
  refine ⟨h'.sound, h'.dir, ⟨new' ++ new, ?_, fun b mem => ?_, fun i lt here empty => ?_⟩,
    fun i lt here => ?_, ?_⟩
  · rw [given', given, List.append_assoc]
  · rcases List.mem_append.mp mem with later | earlier
    · exact isTable' b later
    · obtain ⟨i, lt, here, rfl⟩ := isTable b earlier
      obtain ⟨here', same⟩ := h'.keeps i lt here
      exact ⟨i, lt, here', by rw [same]⟩
  · by_cases between : present s₂.mem pd i
    · rw [(h'.keeps i lt between).2]
      exact List.mem_append_right _ (filled i lt between empty)
    · exact List.mem_append_left _ (filled' i lt here between)
  · obtain ⟨here₂, same₂⟩ := h.keeps i lt here
    obtain ⟨here₃, same₃⟩ := h'.keeps i lt here₂
    exact ⟨here₃, same₃.trans same₂⟩
  · exact (h.frame.mono (Set.union_subset_union_left S h'.tableBytes_subset)).trans h'.frame

theorem Filling.mem_given {b : Block} (h : Filling init pd S s s₁) (mem : b ∈ s.given) :
    b ∈ s₁.given := by
  obtain ⟨new, given, _⟩ := h.given
  rw [given]
  exact List.mem_append_right _ mem

theorem Filling.clear {b : Block} (h : Filling init pd S s s₁) (mem : b ∈ s.given)
    (clear : ∀ x ∈ tableBytes s.mem pd, x ∉ Set.Ico b.addr (b.addr + b.sz)) :
    ∀ x ∈ tableBytes s₁.mem pd, x ∉ Set.Ico b.addr (b.addr + b.sz) := by
  intro x inTables
  rcases inTables with own | ⟨i, lt, here, inside⟩
  · exact clear x (Or.inl own)
  · by_cases before : present s.mem pd i
    · rw [(h.keeps i lt before).2] at inside
      exact clear x (Or.inr ⟨i, lt, before, inside⟩)
    · obtain ⟨new, given, _, filled⟩ := h.given
      have apart := h.sound.apart
      rw [given] at apart
      have := (List.pairwise_append.mp apart).2.2 _ (filled i lt here before) b mem
      simp only [Block.Apart] at this
      simp only [page, Set.mem_Ico] at inside ⊢
      omega

end Filling

structure Mapping (init : List Block) (pd : Nat) (s s' : Store) : Prop where
  sound : s'.Sound init
  dir : PageDir s' pd
  heap : s'.heap = s.heap
  given : ∃ new, s'.given = new ++ s.given ∧
    (∀ b ∈ new, ∃ i < 512, present s'.mem pd i ∧ b = ⟨table s'.mem pd i, 0x1000⟩) ∧
    ∀ i < 512, present s'.mem pd i → ¬ present s.mem pd i → ⟨table s'.mem pd i, 0x1000⟩ ∈ new
  keeps : ∀ i < 512, present s.mem pd i → present s'.mem pd i ∧
    table s'.mem pd i = table s.mem pd i
  kernel : ∀ i, 512 ≤ i → i < 1024 → load32 s'.mem (pd + 4 * i) = load32 s.mem (pd + 4 * i)
  frame : Frame s.mem s'.mem (tableBytes s'.mem pd)

theorem Mapping.refl {init : List Block} {pd : Nat} {s : Store} (sound : s.Sound init)
    (dir : PageDir s pd) : Mapping init pd s s :=
  ⟨sound, dir, rfl, ⟨[], rfl, fun _ mem => absurd mem List.not_mem_nil,
    fun _ _ here empty => absurd here empty⟩, fun _ _ here => ⟨here, rfl⟩, fun _ _ _ => rfl, Frame.refl _ _⟩

theorem Mapping.filling {init : List Block} {pd : Nat} {S : Set Nat} {s s₁ : Store}
    (h : Mapping init pd s s₁) : Filling init pd S s s₁ :=
  ⟨h.sound, h.dir, h.given, h.keeps, h.frame.mono Set.subset_union_left⟩

theorem Mapping.trans {init : List Block} {pd : Nat} {s₁ s₂ s₃ : Store}
    (h : Mapping init pd s₁ s₂) (h' : Mapping init pd s₂ s₃) : Mapping init pd s₁ s₃ := by
  have both := (h.filling (S := ∅)).trans h'.filling
  have frame := both.frame
  rw [Set.union_empty] at frame
  exact ⟨both.sound, both.dir, h'.heap.trans h.heap, both.given, both.keeps,
    fun i lo hi => (h'.kernel i lo hi).trans (h.kernel i lo hi), frame⟩

theorem Mapping.mem_given {init : List Block} {pd : Nat} {s s' : Store} {b : Block}
    (h : Mapping init pd s s') (mem : b ∈ s.given) : b ∈ s'.given :=
  (h.filling (S := ∅)).mem_given mem

/-- Mapping pages touches no block that was handed out before, unless it is the
directory or one of its tables. -/
theorem Mapping.clear {init : List Block} {pd : Nat} {s s' : Store} {b : Block}
    (h : Mapping init pd s s') (mem : b ∈ s.given)
    (clear : ∀ x ∈ tableBytes s.mem pd, ¬ (b.addr ≤ x ∧ x < b.addr + b.sz)) :
    ∀ x ∈ tableBytes s'.mem pd, ¬ (b.addr ≤ x ∧ x < b.addr + b.sz) :=
  (h.filling (S := ∅)).clear mem clear

/-- Writes that avoid a directory and its tables leave the directory as it is. -/
theorem PageDir.of_frame {s s' : Store} {pd : Nat} {S : Set Nat} (h : PageDir s pd)
    (given : ∀ b ∈ s.given, b ∈ s'.given) (frame : Frame s.mem s'.mem S)
    (avoid : ∀ x ∈ page pd, x ∉ S) :
    PageDir s' pd ∧ ∀ i < 1024, load32 s'.mem (pd + 4 * i) = load32 s.mem (pd + 4 * i) := by
  have same : ∀ i < 1024, load32 s'.mem (pd + 4 * i) = load32 s.mem (pd + 4 * i) := by
    intro i lt
    apply frame.load32_eq
    intro x lo hi
    apply avoid
    simp only [page, Set.mem_Ico]
    omega
  have here : ∀ i < 512, (present s'.mem pd i ↔ present s.mem pd i) := by
    intro i lt
    simp only [present, same i (by omega)]
  have tables : ∀ i < 512, table s'.mem pd i = table s.mem pd i := by
    intro i lt
    simp only [table, same i (by omega)]
  refine ⟨⟨given _ h.own, fun i lt now => ?_, fun i lt now => ?_, fun i ltI j ltJ ne nowI nowJ => ?_⟩,
    same⟩
  · rw [same i (by omega)]
    exact h.flags i lt ((here i lt).mp now)
  · obtain ⟨mem, ne⟩ := h.tables i lt ((here i lt).mp now)
    rw [tables i lt]
    exact ⟨given _ mem, ne⟩
  · rw [tables i ltI, tables j ltJ]
    exact h.distinct i ltI j ltJ ne ((here i ltI).mp nowI) ((here j ltJ).mp nowJ)

theorem tableBytes_congr {m m' : Mem} {pd : Nat}
    (same : ∀ i < 1024, load32 m' (pd + 4 * i) = load32 m (pd + 4 * i)) :
    tableBytes m' pd = tableBytes m pd := by
  ext x
  simp only [tableBytes, Set.mem_ofPred_eq, present, table]
  refine or_congr Iff.rfl (exists_congr fun i => and_congr_right fun lt => ?_)
  rw [same i (by omega)]

theorem Filling.write {init : List Block} {pd : Nat} {S : Set Nat} {s s₁ : Store}
    (sound : s.Sound init) (dir : PageDir s pd) (free : s₁.free = s.free)
    (given : s₁.given = s.given) (frame : Frame s.mem s₁.mem S)
    (clear : ∀ x ∈ tableBytes s.mem pd, x ∉ S) : Filling init pd S s s₁ := by
  obtain ⟨dir', same⟩ := dir.of_frame (fun b mem => given ▸ mem) frame
    (fun x mem => clear x (Or.inl mem))
  have presents : ∀ i < 512, (present s₁.mem pd i ↔ present s.mem pd i) := by
    intro i lt
    simp only [present, same i (by omega)]
  have tables : ∀ i < 512, table s₁.mem pd i = table s.mem pd i := by
    intro i lt
    simp only [table, same i (by omega)]
  refine ⟨sound.write free given, dir', ⟨[], given, fun _ mem => absurd mem List.not_mem_nil,
    fun i lt here empty => absurd ((presents i lt).mp here) empty⟩, fun i lt here =>
    ⟨(presents i lt).mpr here, tables i lt⟩, frame.mono Set.subset_union_right⟩

/-- The walk reads only the directory and its tables. -/
theorem walk_of_frame {m m' : Mem} {pd va : Nat} {S : Set Nat} (frame : Frame m m' S)
    (user : va < 0x80000000) (avoid : ∀ x ∈ tableBytes m pd, x ∉ S) :
    walk m' pd va = walk m pd va := by
  have slot : va / 0x400000 < 512 := by omega
  have same : load32 m' (pd + 4 * (va / 0x400000)) = load32 m (pd + 4 * (va / 0x400000)) := by
    apply frame.load32_eq
    intro x lo hi
    apply avoid
    left
    simp only [page, Set.mem_Ico]
    omega
  simp only [walk, same]
  by_cases here : load32 m (pd + 4 * (va / 0x400000)) % 2 = 0
  · simp only [if_pos here]
  · have entry : load32 m' (table m pd (va / 0x400000) + 4 * (va / 0x1000 % 0x400)) =
        load32 m (table m pd (va / 0x400000) + 4 * (va / 0x1000 % 0x400)) := by
      apply frame.load32_eq
      intro x lo hi
      apply avoid
      refine Or.inr ⟨va / 0x400000, slot, ?_, ?_⟩
      · simp only [present]
        omega
      · simp only [page, Set.mem_Ico]
        omega
    simp only [table] at entry
    simp only [entry]

/-! ## Mapping one page -/

theorem bytes_of_page_zero {m : Mem} {a : Nat} (zero : ∀ x ∈ page a, m x = 0) {i : Nat}
    (lt : i < 1024) : load32 m (a + 4 * i) = 0 := by
  have same : load32 m (a + 4 * i) = load32 (fun _ => 0) (a + 4 * i) := by
    apply loadLE_congr
    intro x lo hi
    apply zero
    simp only [page, Set.mem_Ico]
    omega
  rw [same]
  rfl

/-- What is known of the directory once slot `pde` has a table: the slot was filled
before and nothing changed, or it has a new table without entries. -/
structure TableReady (init : List Block) (pd pde pt : Nat) (s s' : Store) : Prop where
  mapping : Mapping init pd s s'
  here : present s'.mem pd pde
  isTable : table s'.mem pd pde = pt
  others : ∀ i < 512, present s.mem pd i ∨ i ≠ pde →
    load32 s'.mem (pd + 4 * i) = load32 s.mem (pd + 4 * i)
  contents : ∀ i < 512, present s.mem pd i → ∀ x ∈ page (table s.mem pd i), s'.mem x = s.mem x
  fresh : ¬ present s.mem pd pde → ∀ x ∈ page pt, s'.mem x = 0

theorem tableFor_filled {init : List Block} {pd pde : Nat} {s : Store} (sound : s.Sound init)
    (dir : PageDir s pd) (lt : pde < 512) (filled : present s.mem pd pde) :
    ∃ s', tableFor pd pde userFlags s = .ok (table s.mem pd pde, s') ∧
      TableReady init pd pde (table s.mem pd pde) s s' := by
  have flags := dir.flags pde lt filled
  have odd : ¬ load32 s.mem (pd + 4 * pde) % 2 = 0 := by
    rw [present] at filled
    omega
  -- the entry has the flags already, so it is written back unchanged
  have same : store32 s.mem (pd + 4 * pde) (load32 s.mem (pd + 4 * pde)) = s.mem :=
    storeLE_loadLE s.mem 4 _
  refine ⟨s, ?_, ⟨.refl sound dir, filled, rfl, fun _ _ _ => rfl, fun _ _ _ _ _ => rfl,
    fun empty => absurd filled empty⟩⟩
  simp only [tableFor, if_neg odd, or_userFlags flags, same, table]

/-- A slot that was empty gets a page that nobody else has. -/
theorem freshTable_ready {init free : List Block} {pd pde a : Nat} {s : Store} (sound : s.Sound init)
    (dir : PageDir s pd) (lt : pde < 512) (empty : ¬ present s.mem pd pde)
    (sound₁ : Store.Sound init { s with free := free, given := ⟨a, 0x1000⟩ :: s.given }) :
    TableReady init pd pde a s
      ⟨store32 (fill s.mem a (4 * 1024) 0) (pd + 4 * pde) (frameOf (v2p a) ||| userFlags), free,
        s.heap, ⟨a, 0x1000⟩ :: s.given⟩ := by
  have memA : (⟨a, 0x1000⟩ : Block) ∈ (⟨a, 0x1000⟩ :: s.given : List Block) := List.mem_cons_self
  -- the new page is apart from the directory and from every page handed out before
  have apart : ∀ b, ⟨b, 0x1000⟩ ∈ s.given → a + 0x1000 ≤ b ∨ b + 0x1000 ≤ a := by
    intro b mem
    have := (List.pairwise_cons.mp sound₁.apart).1 _ mem
    simp only [Block.Apart] at this
    exact this
  have apartPd := apart pd dir.own
  have pagedA := sound₁.paged memA
  have pagedPd := sound.paged dir.own
  simp only at pagedA pagedPd
  let m₁ := fill s.mem a (4 * 1024) 0
  let e := frameOf (v2p a) ||| userFlags
  let m₂ := store32 m₁ (pd + 4 * pde) e
  have entry : e = a - 0x80000000 + 7 := by
    have low : v2p a = a - 0x80000000 := by
      rw [v2p_eq]
      omega
    simp only [e, low]
    rw [frameOf_or (by omega)]
    omega
  have frame : Frame s.mem m₂ (page a ∪ Set.Ico (pd + 4 * pde) (pd + 4 * pde + 4)) :=
    Frame.trans ((fill_frame s.mem a (4 * 1024) 0).mono (fun x mem => Or.inl mem))
      ((store32_frame m₁ (pd + 4 * pde) e).mono (fun x mem => Or.inr mem))
  have loadHere : load32 m₂ (pd + 4 * pde) = e := by
    simp only [m₂]
    rw [load32_store32_same]
    omega
  have loadOther : ∀ i < 1024, i ≠ pde →
      load32 m₂ (pd + 4 * i) = load32 s.mem (pd + 4 * i) := by
    intro i ltI ne
    apply frame.load32_eq
    intro x lo hi mem
    simp only [page, Set.mem_union, Set.mem_Ico] at mem
    omega
  have tableHere : table m₂ pd pde = a := by
    rw [table, loadHere, entry, frameOf_eq (by omega), p2v_of_lt (by omega)]
    omega
  have presentHere : present m₂ pd pde := by
    rw [present, loadHere, entry]
    omega
  have presentOther : ∀ i < 1024, i ≠ pde → (present m₂ pd i ↔ present s.mem pd i) := by
    intro i ltI ne
    rw [present, present, loadOther i ltI ne]
  have tableOther : ∀ i < 1024, i ≠ pde → table m₂ pd i = table s.mem pd i := by
    intro i ltI ne
    rw [table, table, loadOther i ltI ne]
  have older : ∀ i < 512, i ≠ pde → present m₂ pd i →
      ⟨table m₂ pd i, 0x1000⟩ ∈ s.given ∧ table m₂ pd i ≠ pd := by
    intro i ltI ne now
    rw [tableOther i (by omega) ne]
    exact dir.tables i ltI ((presentOther i (by omega) ne).mp now)
  have newOther : ∀ i < 512, i ≠ pde → present m₂ pd i → table m₂ pd i ≠ a := by
    intro i ltI ne now same
    have := apart a (same ▸ (older i ltI ne now).1)
    omega
  refine ⟨⟨sound₁.write rfl rfl, ⟨List.mem_cons_of_mem _ dir.own, ?_, ?_, ?_⟩, rfl,
    ⟨[⟨a, 0x1000⟩], rfl, ?_, ?_⟩, ?_, ?_, ?_⟩, presentHere, tableHere, ?_, ?_, ?_⟩
  · intro i ltI now
    by_cases same : i = pde
    · rw [same, loadHere, entry]
      omega
    · rw [loadOther i (by omega) same]
      exact dir.flags i ltI ((presentOther i (by omega) same).mp now)
  · intro i ltI now
    by_cases same : i = pde
    · rw [same, tableHere]
      exact ⟨memA, by omega⟩
    · obtain ⟨mem, ne⟩ := older i ltI same now
      exact ⟨List.mem_cons_of_mem _ mem, ne⟩
  · intro i ltI j ltJ ne nowI nowJ
    by_cases sameI : i = pde
    · rw [sameI, tableHere]
      exact (newOther j ltJ (fun h => ne (sameI.trans h.symm)) nowJ).symm
    · by_cases sameJ : j = pde
      · rw [sameJ, tableHere]
        exact newOther i ltI sameI nowI
      · rw [tableOther i (by omega) sameI, tableOther j (by omega) sameJ]
        exact dir.distinct i ltI j ltJ ne ((presentOther i (by omega) sameI).mp nowI)
          ((presentOther j (by omega) sameJ).mp nowJ)
  · intro b mem
    rw [List.mem_singleton.mp mem]
    exact ⟨pde, lt, presentHere, by rw [tableHere]⟩
  · intro i ltI now before
    by_cases same : i = pde
    · rw [same, tableHere]
      exact List.mem_singleton.mpr rfl
    · exact absurd ((presentOther i (by omega) same).mp now) before
  · intro i ltI before
    have ne : i ≠ pde := fun same => empty (same ▸ before)
    exact ⟨(presentOther i (by omega) ne).mpr before, tableOther i (by omega) ne⟩
  · intro i lo hi
    exact loadOther i hi (by omega)
  · apply frame.mono
    intro x mem
    rcases mem with inNew | inEntry
    · have inTable : x ∈ page (table m₂ pd pde) := by
        rw [tableHere]
        exact inNew
      exact Or.inr ⟨pde, lt, presentHere, inTable⟩
    · left
      simp only [page, Set.mem_Ico] at inEntry ⊢
      omega
  · intro i ltI either
    exact loadOther i (by omega) (fun same => either.elim (same ▸ empty) (fun ne => ne same))
  · intro i ltI before x mem
    have apartI := apart _ (dir.tables i ltI before).1
    have apartDir := sound.pages_apart (dir.tables i ltI before).1 dir.own
      (dir.tables i ltI before).2
    apply frame
    intro mem'
    simp only [page, Set.mem_union, Set.mem_Ico] at mem mem'
    omega
  · intro _ x mem
    simp only [page, Set.mem_Ico] at mem
    have zero : m₁ x = 0 := by
      simp only [m₁, fill]
      rw [if_pos ⟨mem.1, by omega⟩]
    refine (store32_frame m₁ (pd + 4 * pde) e x ?_).trans zero
    simp only [Set.mem_Ico]
    omega

theorem tableFor_ready {init : List Block} {pd pde pt : Nat} {s s' : Store} (sound : s.Sound init)
    (dir : PageDir s pd) (lt : pde < 512) (done : tableFor pd pde userFlags s = .ok (pt, s')) :
    TableReady init pd pde pt s s' := by
  by_cases filled : present s.mem pd pde
  · obtain ⟨s'', done', ready⟩ := tableFor_filled sound dir lt filled
    rw [done] at done'
    cases done'
    exact ready
  · have even : load32 s.mem (pd + 4 * pde) % 2 = 0 := by
      rw [present] at filled
      omega
    simp only [tableFor, if_pos even] at done
    generalize call : s.allocPages 0x1000 = result at done
    have alloc := call ▸ sound.alloc 0x1000
    cases alloc with
    | none small => simp [Store.memset, touch] at done
    | zero a free nothing => cases nothing
    | some a free pos fits sound₁ =>
        have size : pgRoundup 0x1000 = 0x1000 := by decide
        rw [size] at sound₁ done
        have ready := freshTable_ready sound dir lt filled sound₁
        by_cases low : a < 0x1000
        · simp [Store.memset, touch, low] at done
        · simp only [Store.memset, touch, low, and_false, if_false, ok_bind] at done
          cases done
          exact ready

theorem PageDir.walk_eq {s : Store} {pd x : Nat} (h : PageDir s pd) (user : x < 0x80000000) :
    walk s.mem pd x =
      if present s.mem pd (x / 0x400000) then
        let pte := load32 s.mem (table s.mem pd (x / 0x400000) + 4 * (x / 0x1000 % 0x400))
        if pte % 2 = 0 then none else some (frameOf pte + x % 0x1000)
      else none := by
  by_cases here : present s.mem pd (x / 0x400000)
  · have flags := h.flags _ (by omega) here
    have odd : ¬ load32 s.mem (pd + 4 * (x / 0x400000)) % 2 = 0 := by omega
    have small : ¬ load32 s.mem (pd + 4 * (x / 0x400000)) / 0x80 % 2 = 1 := by omega
    simp only [walk, if_neg odd, if_neg small, if_pos here, table]
    rfl
  · have even : load32 s.mem (pd + 4 * (x / 0x400000)) % 2 = 0 := by
      rw [present] at here
      omega
    simp only [walk, if_pos even, if_neg here]

theorem TableReady.walk_eq {init : List Block} {pd pde pt x : Nat} {s s' : Store}
    (h : TableReady init pd pde pt s s') (dir : PageDir s pd) (user : x < 0x80000000) :
    walk s'.mem pd x = walk s.mem pd x := by
  have slot : x / 0x400000 < 512 := by omega
  rw [h.mapping.dir.walk_eq user, dir.walk_eq user]
  by_cases before : present s.mem pd (x / 0x400000)
  · obtain ⟨here, same⟩ := h.mapping.keeps _ slot before
    have entry : load32 s'.mem (table s.mem pd (x / 0x400000) + 4 * (x / 0x1000 % 0x400)) =
        load32 s.mem (table s.mem pd (x / 0x400000) + 4 * (x / 0x1000 % 0x400)) := by
      apply loadLE_congr
      intro y lo hi
      apply h.contents _ slot before
      simp only [page, Set.mem_Ico]
      omega
    simp only [if_pos here, if_pos before, same, entry]
  · rw [if_neg before]
    by_cases same : x / 0x400000 = pde
    · have here := h.here
      have isTable := h.isTable
      rw [← same] at here isTable
      have zero := bytes_of_page_zero (h.fresh (same ▸ before))
        (show x / 0x1000 % 0x400 < 1024 by omega)
      simp [here, isTable, zero]
    · have unchanged := h.others _ slot (Or.inr same)
      have empty : ¬ present s'.mem pd (x / 0x400000) := by
        rw [present, unchanged]
        exact before
      rw [if_neg empty]

/-- One round of `alloc_pt` in the user half: the page of `va` now leads to the frame of
`pa`, and every other page leads where it led before. -/
theorem mapPage_spec {init : List Block} {pd va pa : Nat} {s s' : Store} (sound : s.Sound init)
    (dir : PageDir s pd) (user : va < 0x80000000) (bound : pa < 0x100000000)
    (done : mapPage pd va pa userFlags s = .ok s') :
    Mapping init pd s s' ∧ ∀ x < 0x80000000,
      walk s'.mem pd x = if x / 0x1000 = va / 0x1000 then some (pa / 0x1000 * 0x1000 + x % 0x1000)
        else walk s.mem pd x := by
  have slot : va / 0x400000 < 512 := by omega
  rw [mapPage, bind_eq_ok] at done
  obtain ⟨⟨pt, s₁⟩, found, stored⟩ := done
  have ready := tableFor_ready sound dir slot found
  have sound₁ := ready.mapping.sound
  have dir₁ := ready.mapping.dir
  have isTable := ready.isTable
  obtain ⟨memPt, ptNe⟩ := dir₁.tables _ slot ready.here
  rw [isTable] at memPt ptNe
  let e := frameOf pa ||| userFlags
  have entry : e = pa / 0x1000 * 0x1000 + 7 := frameOf_or bound
  let s₂ : Store := { s₁ with mem := store32 s₁.mem (pt + 4 * (va / 0x1000 % 0x400)) e }
  have stored : s₂ = s' := Except.ok.inj stored
  rw [← stored]
  have frame : Frame s₁.mem s₂.mem
      (Set.Ico (pt + 4 * (va / 0x1000 % 0x400)) (pt + 4 * (va / 0x1000 % 0x400) + 4)) :=
    store32_frame _ _ _
  have apartPd := sound₁.pages_apart memPt dir₁.own ptNe
  have avoidPd : ∀ x ∈ page pd,
      x ∉ Set.Ico (pt + 4 * (va / 0x1000 % 0x400)) (pt + 4 * (va / 0x1000 % 0x400) + 4) := by
    intro x mem
    simp only [page, Set.mem_Ico] at mem ⊢
    omega
  obtain ⟨dir₂, same⟩ := dir₁.of_frame (show ∀ b ∈ s₁.given, b ∈ s₂.given from fun _ mem => mem)
    frame avoidPd
  have present₂ : ∀ i < 512, (present s₂.mem pd i ↔ present s₁.mem pd i) := by
    intro i lt
    rw [present, present, same i (by omega)]
  have table₂ : ∀ i < 512, table s₂.mem pd i = table s₁.mem pd i := by
    intro i lt
    rw [table, table, same i (by omega)]
  have mapping₂ : Mapping init pd s₁ s₂ := by
    refine ⟨sound₁.write rfl rfl, dir₂, rfl, ⟨[], rfl, fun _ mem => absurd mem List.not_mem_nil,
      fun i lt here empty => absurd ((present₂ i lt).mp here) empty⟩,
      fun i lt here => ⟨(present₂ i lt).mpr here, table₂ i lt⟩, fun i _ hi => same i hi, ?_⟩
    apply frame.mono
    intro x mem
    refine Or.inr ⟨va / 0x400000, slot, (present₂ _ slot).mpr ready.here, ?_⟩
    rw [table₂ _ slot, isTable]
    simp only [page, Set.mem_Ico] at mem ⊢
    omega
  refine ⟨ready.mapping.trans mapping₂, fun x userX => ?_⟩
  have slotX : x / 0x400000 < 512 := by omega
  rw [← ready.walk_eq dir userX, dir₂.walk_eq userX, dir₁.walk_eq userX]
  simp only [present₂ _ slotX, table₂ _ slotX]
  by_cases samePage : x / 0x1000 = va / 0x1000
  · have sameSlot : x / 0x400000 = va / 0x400000 := by omega
    have load : load32 s₂.mem (pt + 4 * (va / 0x1000 % 0x400)) = e := by
      simp only [s₂]
      rw [load32_store32_same]
      omega
    have odd : ¬ e % 2 = 0 := by omega
    have frameE : frameOf e = pa / 0x1000 * 0x1000 := by
      rw [frameOf_eq (by omega)]
      omega
    rw [sameSlot, samePage, isTable, if_pos ready.here, load, if_neg odd, frameE, if_pos rfl]
  · rw [if_neg samePage]
    by_cases here : present s₁.mem pd (x / 0x400000)
    · have load : load32 s₂.mem (table s₁.mem pd (x / 0x400000) + 4 * (x / 0x1000 % 0x400)) =
          load32 s₁.mem (table s₁.mem pd (x / 0x400000) + 4 * (x / 0x1000 % 0x400)) := by
        apply frame.load32_eq
        intro y lo hi mem
        simp only [Set.mem_Ico] at mem
        by_cases sameSlot : x / 0x400000 = va / 0x400000
        · rw [sameSlot, isTable] at lo hi
          omega
        · have ne := dir₁.distinct _ slotX _ slot sameSlot here ready.here
          have apart := sound₁.pages_apart (dir₁.tables _ slotX here).1 memPt (isTable ▸ ne)
          omega
      simp only [if_pos here, load]
    · simp only [if_neg here]

/-! ## The loop of `alloc_pt` -/

theorem mapPages_spec {init : List Block} {pd : Nat} : ∀ (n va pa : Nat) (s s' : Store),
    s.Sound init → PageDir s pd → va % 0x1000 = 0 → pa % 0x1000 = 0 → pa < 0x100000000 →
    va + n * 0x1000 ≤ 0x80000000 → mapPages pd userFlags n va pa s = .ok s' →
    Mapping init pd s s' ∧ ∀ x < 0x80000000,
      walk s'.mem pd x = if va ≤ x ∧ x < va + n * 0x1000 then some (u32 (pa + (x - va)))
        else walk s.mem pd x := by
  intro n
  induction n with
  | zero =>
      intro va pa s s' sound dir _ _ _ _ done
      cases done
      refine ⟨.refl sound dir, fun x _ => ?_⟩
      rw [if_neg (by omega)]
  | succ n ih =>
      intro va pa s s' sound dir aligned alignedPa bound user done
      rw [mapPages, bind_eq_ok] at done
      obtain ⟨s₁, first, later⟩ := done
      obtain ⟨mapping₁, walk₁⟩ := mapPage_spec sound dir (by omega) bound first
      rw [u32_of_lt (show va + 0x1000 < 0x100000000 by omega)] at later
      have wrapped : u32 (pa + 0x1000) % 0x1000 = 0 := by
        simp only [u32]
        omega
      obtain ⟨mapping₂, walk₂⟩ := ih (va + 0x1000) (u32 (pa + 0x1000)) s₁ s' mapping₁.sound
        mapping₁.dir (by omega) wrapped (u32_lt _) (by omega) later
      refine ⟨mapping₁.trans mapping₂, fun x userX => ?_⟩
      rw [walk₂ x userX, walk₁ x userX]
      by_cases inRest : va + 0x1000 ≤ x ∧ x < va + 0x1000 + n * 0x1000
      · have inAll : va ≤ x ∧ x < va + (n + 1) * 0x1000 := by omega
        have offset : pa + 0x1000 + (x - (va + 0x1000)) = pa + (x - va) := by omega
        rw [if_pos inRest, if_pos inAll, u32_add, offset]
      · rw [if_neg inRest]
        by_cases inFirst : x / 0x1000 = va / 0x1000
        · have inAll : va ≤ x ∧ x < va + (n + 1) * 0x1000 := by omega
          have offset : pa / 0x1000 * 0x1000 + x % 0x1000 = pa + (x - va) := by omega
          rw [if_pos inFirst, if_pos inAll, offset, u32_of_lt (by omega)]
        · have out : ¬ (va ≤ x ∧ x < va + (n + 1) * 0x1000) := by omega
          rw [if_neg inFirst, if_neg out]

/-- `alloc_pt` in the user half maps the pages of the range in order and no others. -/
theorem allocPt_spec {init : List Block} {pd va pa len : Nat} {s s' : Store} (sound : s.Sound init)
    (dir : PageDir s pd) (bound : pa < 0x100000000)
    (user : pgRounddown va + pgRoundup len ≤ 0x80000000)
    (done : allocPt pd va pa len userFlags s = .ok s') :
    Mapping init pd s s' ∧ ∀ x < 0x80000000,
      walk s'.mem pd x =
        if pgRounddown va ≤ x ∧ x < pgRounddown va + pgRoundup len then
          some (u32 (pgRounddown pa + (x - pgRounddown va)))
        else walk s.mem pd x := by
  have whole : pgRoundup len / 0x1000 * 0x1000 = pgRoundup len := by
    have := pgRoundup_mod len
    omega
  have below : pgRounddown pa < 0x100000000 := by
    rw [pgRounddown_eq]
    omega
  have spec := mapPages_spec (pgRoundup len / 0x1000) (pgRounddown va) (pgRounddown pa) s s' sound dir
    (pgRounddown_mod va) (pgRounddown_mod pa) below (by rw [whole]; exact user) done
  rw [whole] at spec
  exact spec

/-- Only the lower 32 bits of the physical address count. -/
theorem frameOf_u32 (x : Nat) : frameOf (pgRounddown (u32 x)) = frameOf (pgRounddown x) := by
  have masked : ∀ y, frameOf y = frameOf (u32 y) := by
    intro y
    have low : frameOf y < 2 ^ 32 := Nat.lt_of_le_of_lt Nat.and_le_right (by decide)
    have both : (y &&& 0xFFFFF000) % 2 ^ 32 = y % 2 ^ 32 &&& 0xFFFFF000 % 2 ^ 32 := Nat.and_mod_two_pow
    rw [← frameOf, Nat.mod_eq_of_lt low] at both
    exact both
  rw [masked, masked (pgRounddown x)]
  congr 1
  simp only [u32, pgRounddown_eq]
  omega

theorem allocPt_u32 (pd va pa len flags : Nat) (s : Store) :
    allocPt pd va (u32 pa) len flags s = allocPt pd va pa len flags s := by
  rw [allocPt, allocPt]
  cases pgRoundup len / 0x1000 with
  | zero => rfl
  | succ n =>
      have next : u32 (pgRounddown (u32 pa) + 0x1000) = u32 (pgRounddown pa + 0x1000) := by
        simp only [u32, pgRounddown_eq]
        omega
      rw [mapPages, mapPages, mapPage, mapPage, frameOf_u32, next]

theorem allocPt_mapping {init : List Block} {pd va pa len : Nat} {s s' : Store} (sound : s.Sound init)
    (dir : PageDir s pd) (user : len = 0 ∨ pgRounddown va + pgRoundup len ≤ 0x80000000)
    (done : allocPt pd va pa len userFlags s = .ok s') : Mapping init pd s s' := by
  rcases user with none | below
  · subst none
    cases done
    exact .refl sound dir
  · rw [← allocPt_u32] at done
    exact (allocPt_spec sound dir (u32_lt pa) below done).1

/-! ## A new directory -/

theorem copykvm_spec {init : List Block} {kpagedir pd : Nat} {s s' : Store} (sound : s.Sound init)
    (done : copykvm kpagedir s = .ok (pd, s')) :
    s'.Sound init ∧ PageDir s' pd ∧ (∀ i < 512, ¬ present s'.mem pd i) ∧ s'.heap = s.heap ∧
      s'.given = ⟨pd, 0x1000⟩ :: s.given ∧ Frame s.mem s'.mem (page pd) := by
  simp only [copykvm] at done
  generalize call : s.allocPages 0x1000 = result at done
  have alloc := call ▸ sound.alloc 0x1000
  cases alloc with
  | none small => simp [Store.memset, touch] at done
  | zero a free nothing => cases nothing
  | some a free pos fits sound₁ =>
      have size : pgRoundup 0x1000 = 0x1000 := by decide
      rw [size] at sound₁ done
      have paged := sound₁.paged (List.mem_cons_self (l := s.given))
      simp only at paged
      have low : ¬ a < 0x1000 := by omega
      have half : ¬ a + 4 * (kernelOffset / 0x400000) < 0x1000 := by omega
      simp only [Store.memset, Store.memmove, touch, low, half, and_false, if_false, ok_bind] at done
      have size' : kernelOffset / 0x400000 = 512 := by decide
      rw [size'] at done
      let m₁ := fill s.mem a (4 * 1024) 0
      let m₂ := blit m₁ (a + 4 * 512) (4 * (1024 - 512)) (fun i => m₁ (kpagedir + 4 * 512 + i))
      have frame : Frame s.mem m₂ (page a) := by
        apply ((fill_frame s.mem a (4 * 1024) 0).mono ?_).trans ((blit_frame m₁ _ _ _).mono ?_)
        all_goals
          intro x mem
          simp only [page, Set.mem_Ico] at mem ⊢
          omega
      have empty : ∀ i < 512, load32 m₂ (a + 4 * i) = 0 := by
        intro i lt
        have upper : load32 m₂ (a + 4 * i) = load32 m₁ (a + 4 * i) := by
          apply (blit_frame m₁ (a + 4 * 512) (4 * (1024 - 512)) _).load32_eq
          intro x lo hi mem
          simp only [Set.mem_Ico] at mem
          omega
        rw [upper]
        apply bytes_of_page_zero _ (by omega)
        intro x mem
        simp only [page, Set.mem_Ico] at mem
        simp only [m₁, fill]
        rw [if_pos ⟨mem.1, by omega⟩]
      have absent : ∀ i < 512, ¬ present m₂ a i := by
        intro i lt here
        rw [present, empty i lt] at here
        omega
      cases done
      exact ⟨sound₁.write rfl rfl, ⟨List.mem_cons_self, fun i lt here => absurd here (absent i lt),
        fun i lt here => absurd here (absent i lt),
        fun i lt _ _ _ here => absurd here (absent i lt)⟩, absent, rfl, rfl, frame⟩

end Trunix
