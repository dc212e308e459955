import Trunix.Kernel.Arranged
import Trunix.Kernel.Cover

/-!
# Who owns a page

Every block that `alloc_pages` has handed out should belong to somebody: to the kernel
since the boot, or to a process as its stack, its directory, a table in the directory or
the memory behind a region.  The ledger of this module says so, and keeps the bytes of
different owners apart, without which a write of one process could change the tables of
another.
-/

set_option autoImplicit false

namespace Trunix

open Trunix.Lib

/-! ## Owners -/

def Kernel.dir (k : Kernel) (p : Nat) : Nat := p2v (k.procs p).cr3

def Kernel.regions (k : Kernel) (p : Nat) : List VmRegion := (k.memtab (k.procs p).pid).regions

def Kernel.tables (k : Kernel) (p : Nat) : Set Nat := tableBytes k.store.mem (k.dir p)

inductive Kernel.Owned (k : Kernel) (a : Nat) : Prop where
  | stack (p : Nat) (mem : p ∈ k.created) (here : (k.procs p).kstack = a)
  | dir (p : Nat) (mem : p ∈ k.created) (here : k.dir p = a)
  | table (p : Nat) (mem : p ∈ k.created) (i : Nat) (lt : i < 1024)
      (filled : present k.store.mem (k.dir p) i) (here : table k.store.mem (k.dir p) i = a)
  | region (p : Nat) (mem : p ∈ k.created) (m : VmRegion) (listed : m ∈ k.regions p)
      (lo : m.pa ≤ v2p a) (hi : v2p a + 0x1000 ≤ m.pa + m.len)

theorem Kernel.owned_iff {k : Kernel} {a : Nat} : k.Owned a ↔ ∃ p ∈ k.created,
    (k.procs p).kstack = a ∨ k.dir p = a ∨
      (∃ i < 1024, present k.store.mem (k.dir p) i ∧ table k.store.mem (k.dir p) i = a) ∨
      ∃ m ∈ k.regions p, m.pa ≤ v2p a ∧ v2p a + 0x1000 ≤ m.pa + m.len := by
  constructor
  · intro owned
    cases owned with
    | stack p mem here => exact ⟨p, mem, Or.inl here⟩
    | dir p mem here => exact ⟨p, mem, Or.inr (Or.inl here)⟩
    | table p mem i lt filled here => exact ⟨p, mem, Or.inr (Or.inr (Or.inl ⟨i, lt, filled, here⟩))⟩
    | region p mem m listed lo hi => exact ⟨p, mem, Or.inr (Or.inr (Or.inr ⟨m, listed, lo, hi⟩))⟩
  · rintro ⟨p, mem, here | here | ⟨i, lt, filled, here⟩ | ⟨m, listed, lo, hi⟩⟩
    · exact .stack p mem here
    · exact .dir p mem here
    · exact .table p mem i lt filled here
    · exact .region p mem m listed lo hi

instance (k : Kernel) (a : Nat) : Decidable (k.Owned a) := decidable_of_iff _ k.owned_iff.symm

def Kernel.OwnsBlock (k : Kernel) (b : Block) : Prop :=
  ∀ a, a % 0x1000 = 0 → b.addr ≤ a → a < b.addr + b.sz → k.Owned a

/-- Every block that was handed out is one of the blocks in `boot` or belongs to processes. -/
def NoLeak (boot : Block → Prop) (k : Kernel) : Prop :=
  ∀ b ∈ k.store.given, boot b ∨ k.OwnsBlock b

structure Kernel.Gains (k k' : Kernel) : Prop where
  created : ∀ p ∈ k.created, p ∈ k'.created
  kstack : ∀ p ∈ k.created, (k'.procs p).kstack = (k.procs p).kstack
  dir : ∀ p ∈ k.created, k'.dir p = k.dir p
  tables : ∀ p ∈ k.created, ∀ i < 1024, present k.store.mem (k.dir p) i →
    present k'.store.mem (k.dir p) i ∧
      table k'.store.mem (k.dir p) i = table k.store.mem (k.dir p) i
  regions : ∀ p ∈ k.created, ∀ m ∈ k.regions p, m ∈ k'.regions p

theorem Kernel.Gains.owned {k k' : Kernel} (h : k.Gains k') {a : Nat} (owned : k.Owned a) :
    k'.Owned a := by
  cases owned with
  | stack p mem here => exact .stack p (h.created p mem) ((h.kstack p mem).trans here)
  | dir p mem here => exact .dir p (h.created p mem) ((h.dir p mem).trans here)
  | table p mem i lt filled here =>
      obtain ⟨filled', same⟩ := h.tables p mem i lt filled
      refine .table p (h.created p mem) i lt ?_ ?_
      · rw [h.dir p mem]
        exact filled'
      · rw [h.dir p mem, same]
        exact here
  | region p mem m listed lo hi =>
      exact .region p (h.created p mem) m (h.regions p mem m listed) lo hi

theorem Kernel.Gains.noLeak {k k' : Kernel} {boot : Block → Prop} (h : k.Gains k')
    (old : NoLeak boot k)
    (fresh : ∀ b ∈ k'.store.given, b ∉ k.store.given → boot b ∨ k'.OwnsBlock b) : NoLeak boot k' := by
  intro b mem
  by_cases before : b ∈ k.store.given
  · rcases old b before with atBoot | owned
    · exact Or.inl atBoot
    · exact Or.inr fun a aligned lo hi => h.owned (owned a aligned lo hi)
  · exact fresh b mem before

/-! ## Bytes that are taken -/

def Outside (blocks : List Block) (x : Nat) : Prop :=
  ∀ b ∈ blocks, ¬ (b.addr ≤ x ∧ x < b.addr + b.sz)

/-- A byte that `alloc_pages` will not hand out: it lies in a block that was handed out,
or was not free at boot. -/
def Store.Held (init : List Block) (s : Store) (x : Nat) : Prop :=
  (∃ b ∈ s.given, b.addr ≤ x ∧ x < b.addr + b.sz) ∨ Outside init x

theorem Store.Held.mono {init : List Block} {s s' : Store} {x : Nat} (h : s.Held init x)
    (given : ∀ b ∈ s.given, b ∈ s'.given) : s'.Held init x := by
  rcases h with ⟨b, mem, inside⟩ | outside
  · exact Or.inl ⟨b, given b mem, inside⟩
  · exact Or.inr outside

theorem Store.Sound.outside {init : List Block} {s : Store} {x : Nat} (sound : s.Sound init)
    (outside : Outside init x) : Outside s.given x := by
  intro b mem inside
  obtain ⟨c, inInit, within⟩ := sound.tidy.inside b (List.mem_append_right _ mem)
  simp only [Block.Inside] at within
  exact outside c inInit (by omega)

section NewBytes

variable {init : List Block} {s s' : Store} {x : Nat} (sound : s'.Sound init)
  (given : ∀ b ∈ s.given, b ∈ s'.given) (fresh : x ∈ s.newBytes s')

include sound given fresh

theorem Store.Sound.newBytes_outside : Outside s.given x := by
  obtain ⟨b, mem, notOld, inside⟩ := fresh
  intro c inOld inside'
  have ne : b ≠ c := fun same => notOld (same ▸ inOld)
  have apart := sound.apart_of_ne mem (given c inOld) ne
  simp only [Block.Apart] at apart
  omega

theorem Store.Sound.newBytes_not_held : ¬ s.Held init x := by
  rintro (⟨b, mem, inside⟩ | outside)
  · exact sound.newBytes_outside given fresh b mem inside
  · obtain ⟨b, mem, _, inside⟩ := fresh
    exact sound.outside outside b mem inside

end NewBytes

theorem PageDir.mem_block {s : Store} {pd x : Nat} (h : PageDir s pd) (mem : x ∈ tableBytes s.mem pd) :
    ∃ b ∈ s.given, b.addr ≤ x ∧ x < b.addr + b.sz := by
  rcases mem with inPage | ⟨i, lt, here, inTable⟩
  · exact ⟨_, h.own, inPage⟩
  · exact ⟨_, (h.tables i lt here).1, inTable⟩

/-! ## The ledger -/

/-- Every process has a directory of its own, no region leads to a table, and memory
behind a region is not free. -/
structure Separate (init : List Block) (k : Kernel) : Prop where
  dirs : ∀ p ∈ k.created, PageDir k.store (k.dir p)
  apart : ∀ p ∈ k.created, ∀ q ∈ k.created, p ≠ q → Disjoint (k.tables p) (k.tables q)
  clear : ∀ p ∈ k.created, ∀ m ∈ k.regions p, ∀ q ∈ k.created, Disjoint m.bytes (k.tables q)
  held : ∀ p ∈ k.created, ∀ m ∈ k.regions p, ∀ x ∈ m.bytes, k.store.Held init x

theorem Separate.kept {init : List Block} {k : Kernel} {s : Store} {W : Set Nat} {p : Nat}
    (h : Separate init k) (given : ∀ b ∈ k.store.given, b ∈ s.given) (frame : Frame k.store.mem s.mem W)
    (mem : p ∈ k.created) (avoid : ∀ x ∈ k.tables p, x ∉ W) :
    PageDir s (k.dir p) ∧ tableBytes s.mem (k.dir p) = k.tables p ∧
      ∀ i < 1024, present k.store.mem (k.dir p) i → present s.mem (k.dir p) i ∧
        table s.mem (k.dir p) i = table k.store.mem (k.dir p) i := by
  obtain ⟨dir, same⟩ := (h.dirs p mem).of_frame given frame fun x inPage => avoid x (Or.inl inPage)
  refine ⟨dir, tableBytes_congr same, fun i lt here => ?_⟩
  rw [present, table, same i lt]
  exact ⟨here, rfl⟩

theorem owns_of_unqueued {p p' : Proc} (same : p'.unqueued = p.unqueued) :
    p'.cr3 = p.cr3 ∧ p'.kstack = p.kstack := by
  have dir : p'.unqueued.cr3 = p.unqueued.cr3 := congrArg Proc.cr3 same
  have stack : p'.unqueued.kstack = p.unqueued.kstack := congrArg Proc.kstack same
  exact ⟨dir, stack⟩

/-- What a process owns besides its tables depends on three of its fields. -/
theorem owns_eq {k k' : Kernel} {p : Nat} (same : (k'.procs p).unqueued = (k.procs p).unqueued)
    (memtab : k'.memtab (k.procs p).pid = k.memtab (k.procs p).pid) :
    k'.dir p = k.dir p ∧ k'.regions p = k.regions p ∧ (k'.procs p).kstack = (k.procs p).kstack := by
  obtain ⟨dir, stack⟩ := owns_of_unqueued same
  refine ⟨by rw [Kernel.dir, Kernel.dir, dir], ?_, stack⟩
  rw [Kernel.regions, Kernel.regions, pid_of_unqueued same, memtab]

/-- How a step alters what one process has: what was written is a table of its own or
new, and so is what it got. -/
structure Alters (init : List Block) (k k' : Kernel) (n : Nat) : Prop where
  sound : k'.store.Sound init
  given : ∀ b ∈ k.store.given, b ∈ k'.store.given
  frame : Frame k.store.mem k'.store.mem
    ({x | n ∈ k.created ∧ x ∈ k.tables n} ∪ k.store.newBytes k'.store)
  created : ∀ p, p ∈ k'.created ↔ p ∈ k.created ∨ p = n
  others : ∀ p ∈ k.created, p ≠ n → (k'.procs p).unqueued = (k.procs p).unqueued ∧
    k'.memtab (k.procs p).pid = k.memtab (k.procs p).pid
  dir : PageDir k'.store (k'.dir n)
  tables : k'.tables n ⊆ {x | n ∈ k.created ∧ x ∈ k.tables n} ∪ k.store.newBytes k'.store
  regions : ∀ m ∈ k'.regions n, (n ∈ k.created ∧ m ∈ k.regions n) ∨
    ∀ x ∈ m.bytes, Outside k.store.given x ∧ k'.store.Held init x ∧ x ∉ k'.tables n

structure Change (init : List Block) (k k' : Kernel) (n : Nat) : Prop extends Alters init k k' n where
  keeps : n ∈ k.created → (k'.procs n).kstack = (k.procs n).kstack ∧ k'.dir n = k.dir n ∧
    (∀ i < 1024, present k.store.mem (k.dir n) i → present k'.store.mem (k.dir n) i ∧
      table k'.store.mem (k.dir n) i = table k.store.mem (k.dir n) i) ∧
    ∀ m ∈ k.regions n, m ∈ k'.regions n

section Change

variable {init : List Block} {k k' : Kernel} {n : Nat} (h : Separate init k)
  (alters : Alters init k k' n)

include h alters

theorem Separate.change_other {p : Nat} (mem : p ∈ k.created) (ne : p ≠ n) :
    PageDir k'.store (k.dir p) ∧ tableBytes k'.store.mem (k.dir p) = k.tables p ∧
      ∀ i < 1024, present k.store.mem (k.dir p) i → present k'.store.mem (k.dir p) i ∧
        table k'.store.mem (k.dir p) i = table k.store.mem (k.dir p) i := by
  refine h.kept alters.given alters.frame mem fun x inTables => ?_
  rintro (⟨old, inOwn⟩ | fresh)
  · exact Set.disjoint_left.mp (h.apart p mem n old ne) inTables inOwn
  · obtain ⟨b, inGiven, inside⟩ := (h.dirs p mem).mem_block inTables
    exact alters.sound.newBytes_outside alters.given fresh b inGiven inside

theorem Separate.changed : Separate init k' := by
  have other : ∀ p ∈ k'.created, p ≠ n → p ∈ k.created ∧ k'.dir p = k.dir p ∧
      k'.regions p = k.regions p ∧ k'.tables p = k.tables p ∧ PageDir k'.store (k'.dir p) := by
    intro p mem ne
    have old : p ∈ k.created := ((alters.created p).mp mem).resolve_right ne
    obtain ⟨same, memtab⟩ := alters.others p old ne
    obtain ⟨dir, regions, _⟩ := owns_eq same memtab
    obtain ⟨isDir, tables, _⟩ := h.change_other alters old ne
    refine ⟨old, dir, regions, ?_, dir ▸ isDir⟩
    rw [Kernel.tables, dir, tables]
  -- the tables of the process are new or were its own
  have apart : ∀ q ∈ k'.created, q ≠ n → Disjoint (k'.tables n) (k'.tables q) := by
    intro q mem ne
    obtain ⟨old, _, _, tables, _⟩ := other q mem ne
    rw [tables, Set.disjoint_left]
    intro x inOwn inOther
    rcases alters.tables inOwn with ⟨before, inTables⟩ | fresh
    · exact Set.disjoint_left.mp (h.apart q old n before ne) inOther inTables
    · obtain ⟨b, inGiven, inside⟩ := (h.dirs q old).mem_block inOther
      exact alters.sound.newBytes_outside alters.given fresh b inGiven inside
  have oldRegion : ∀ p ∈ k.created, ∀ m ∈ k.regions p, ∀ q ∈ k'.created,
      Disjoint m.bytes (k'.tables q) := by
    intro p mem m listed q memQ
    by_cases here : q = n
    · subst here
      rw [Set.disjoint_left]
      intro x inRegion inTables
      rcases alters.tables inTables with ⟨before, inOld⟩ | fresh
      · exact Set.disjoint_left.mp (h.clear p mem m listed q before) inRegion inOld
      · exact alters.sound.newBytes_not_held alters.given fresh (h.held p mem m listed x inRegion)
    · obtain ⟨old, _, _, tables, _⟩ := other q memQ here
      rw [tables]
      exact h.clear p mem m listed q old
  refine ⟨fun p mem => ?_, fun p memP q memQ ne => ?_, fun p mem m listed q memQ => ?_,
    fun p mem m listed x inRegion => ?_⟩
  · by_cases here : p = n
    · exact here ▸ alters.dir
    · exact (other p mem here).2.2.2.2
  · by_cases hereP : p = n
    · subst hereP
      exact apart q memQ (Ne.symm ne)
    · by_cases hereQ : q = n
      · subst hereQ
        exact (apart p memP ne).symm
      · obtain ⟨oldP, _, _, tablesP, _⟩ := other p memP hereP
        obtain ⟨oldQ, _, _, tablesQ, _⟩ := other q memQ hereQ
        rw [tablesP, tablesQ]
        exact h.apart p oldP q oldQ ne
  · by_cases here : p = n
    · subst here
      rcases alters.regions m listed with ⟨before, listed'⟩ | free
      · exact oldRegion p before m listed' q memQ
      · rw [Set.disjoint_left]
        intro x inRegion inTables
        obtain ⟨outside, _, notOwn⟩ := free x inRegion
        by_cases hereQ : q = p
        · exact notOwn (hereQ ▸ inTables)
        · obtain ⟨oldQ, _, _, tablesQ, _⟩ := other q memQ hereQ
          obtain ⟨b, inGiven, inside⟩ := (h.dirs q oldQ).mem_block (tablesQ ▸ inTables)
          exact outside b inGiven inside
    · obtain ⟨old, _, regions, _, _⟩ := other p mem here
      exact oldRegion p old m (regions ▸ listed) q memQ
  · by_cases here : p = n
    · subst here
      rcases alters.regions m listed with ⟨before, listed'⟩ | free
      · exact (h.held p before m listed' x inRegion).mono alters.given
      · exact (free x inRegion).2.1
    · obtain ⟨old, _, regions, _, _⟩ := other p mem here
      exact (h.held p old m (regions ▸ listed) x inRegion).mono alters.given

omit alters in
theorem Separate.gains (change : Change init k k' n) : k.Gains k' := by
  have each : ∀ p ∈ k.created, (k'.procs p).kstack = (k.procs p).kstack ∧ k'.dir p = k.dir p ∧
      (∀ i < 1024, present k.store.mem (k.dir p) i → present k'.store.mem (k.dir p) i ∧
        table k'.store.mem (k.dir p) i = table k.store.mem (k.dir p) i) ∧
      ∀ m ∈ k.regions p, m ∈ k'.regions p := by
    intro p mem
    by_cases here : p = n
    · subst here
      exact change.keeps mem
    · obtain ⟨same, memtab⟩ := change.others p mem here
      obtain ⟨dir, regions, stack⟩ := owns_eq same memtab
      exact ⟨stack, dir, (h.change_other change.toAlters mem here).2.2, fun m listed => regions ▸ listed⟩
  exact ⟨fun p mem => (change.created p).mpr (Or.inl mem), fun p mem => (each p mem).1,
    fun p mem => (each p mem).2.1, fun p mem => (each p mem).2.2.1, fun p mem => (each p mem).2.2.2⟩

end Change

structure Ledger (init : List Block) (boot : Block → Prop) (k : Kernel) : Prop where
  separate : Separate init k
  noLeak : NoLeak boot k

theorem Ledger.changed {init : List Block} {boot : Block → Prop} {k k' : Kernel} {n : Nat}
    (h : Ledger init boot k) (change : Change init k k' n)
    (fresh : ∀ b ∈ k'.store.given, b ∉ k.store.given → boot b ∨ k'.OwnsBlock b) :
    Ledger init boot k' :=
  ⟨h.separate.changed change.toAlters, (h.separate.gains change).noLeak h.noLeak fresh⟩

theorem Separate.keeps {init : List Block} {k k' : Kernel} {W : Set Nat} (h : Separate init k)
    (given : ∀ b ∈ k.store.given, b ∈ k'.store.given) (created : k'.created = k.created)
    (same : ∀ p ∈ k.created, k'.dir p = k.dir p ∧ k'.regions p = k.regions p)
    (frame : Frame k.store.mem k'.store.mem W) (avoid : ∀ p ∈ k.created, ∀ x ∈ k.tables p, x ∉ W) :
    Separate init k' := by
  have kept := fun p (mem : p ∈ k.created) => h.kept given frame mem (avoid p mem)
  have tables : ∀ p ∈ k.created, k'.tables p = k.tables p := by
    intro p mem
    rw [Kernel.tables, (same p mem).1, (kept p mem).2.1]
  refine ⟨fun p mem => ?_, fun p memP q memQ ne => ?_, fun p mem m listed q memQ => ?_,
    fun p mem m listed x inRegion => ?_⟩
  · rw [created] at mem
    rw [(same p mem).1]
    exact (kept p mem).1
  · rw [created] at memP memQ
    rw [tables p memP, tables q memQ]
    exact h.apart p memP q memQ ne
  · rw [created] at mem memQ
    rw [(same p mem).2] at listed
    rw [tables q memQ]
    exact h.clear p mem m listed q memQ
  · rw [created] at mem
    rw [(same p mem).2] at listed
    exact (h.held p mem m listed x inRegion).mono given

theorem Ledger.keeps {init : List Block} {boot : Block → Prop} {k k' : Kernel} {W : Set Nat}
    (h : Ledger init boot k) (keeps : Keeps k k') (given : k'.store.given = k.store.given)
    (frame : Frame k.store.mem k'.store.mem W) (avoid : ∀ p ∈ k.created, ∀ x ∈ k.tables p, x ∉ W) :
    Ledger init boot k' := by
  have same : ∀ p ∈ k.created, k'.dir p = k.dir p ∧ k'.regions p = k.regions p ∧
      (k'.procs p).kstack = (k.procs p).kstack := fun p mem =>
    owns_eq (keeps.procs p mem) (by rw [keeps.memtab])
  have older : ∀ b ∈ k.store.given, b ∈ k'.store.given := fun b old => given ▸ old
  have gains : k.Gains k' := by
    refine ⟨fun p mem => keeps.created ▸ mem, fun p mem => (same p mem).2.2, fun p mem => (same p mem).1,
      fun p mem => (h.separate.kept older frame mem (avoid p mem)).2.2, fun p mem m listed => ?_⟩
    rw [(same p mem).2.1]
    exact listed
  exact ⟨h.separate.keeps older keeps.created (fun p mem => ⟨(same p mem).1, (same p mem).2.1⟩) frame avoid,
    gains.noLeak h.noLeak fun b new old => absurd (given ▸ new) old⟩

/-! ## A process is born -/

theorem Kernel.Owned.ownsBlock {k : Kernel} {a : Nat} (owned : k.Owned a) (aligned : a % 0x1000 = 0) :
    k.OwnsBlock ⟨a, 0x1000⟩ := by
  intro x alignedX lo hi
  simp only at lo hi
  have here : x = a := by omega
  exact here ▸ owned

theorem Fills.ownsBlock {k : Kernel} {p a sz : Nat} {L : List VmRegion} (fills : Fills a sz L)
    (mem : p ∈ k.created) (listed : ∀ m ∈ L, m ∈ k.regions p) : k.OwnsBlock ⟨a, sz⟩ := by
  intro x aligned lo hi
  obtain ⟨m, inList, low, high⟩ := fills.cover x aligned lo hi
  exact .region p mem m (listed m inList) low high

theorem Built.kept {init : List Block} {pd blk sz : Nat} {s s₁ s₂ s₃ : Store}
    (built : Built init pd blk sz s s₁ s₂) (sound : s₃.Sound init) (given : ∀ b ∈ s₂.given, b ∈ s₃.given)
    (frame : Frame s₂.mem s₃.mem (s₂.newBytes s₃)) :
    PageDir s₃ pd ∧ ∀ i < 1024, load32 s₃.mem (pd + 4 * i) = load32 s₂.mem (pd + 4 * i) := by
  refine built.filling.dir.of_frame given frame fun x inPage fresh => ?_
  obtain ⟨b, inGiven, inside⟩ := built.filling.dir.mem_block (.inl inPage)
  exact sound.newBytes_outside given fresh b inGiven inside

/-- A process gets a directory and a block with its regions; `s` is the memory when they were
taken. -/
theorem Built.alters {init : List Block} {k k' : Kernel} {pd blk sz n : Nat} {s s₁ s₂ : Store}
    (built : Built init pd blk sz s s₁ s₂) (older : ∀ b ∈ k.store.given, b ∈ s.given)
    (before : Frame k.store.mem s.mem (k.store.newBytes s)) (sound : k'.store.Sound init)
    (given : ∀ b ∈ s₂.given, b ∈ k'.store.given)
    (frame : Frame s₂.mem k'.store.mem (s₂.newBytes k'.store))
    (created : ∀ p, p ∈ k'.created ↔ p ∈ k.created ∨ p = n)
    (others : ∀ p ∈ k.created, p ≠ n → (k'.procs p).unqueued = (k.procs p).unqueued ∧
      k'.memtab (k.procs p).pid = k.memtab (k.procs p).pid)
    (dir : k'.dir n = pd) (inside : ∀ m ∈ k'.regions n, m.bytes ⊆ Set.Ico blk (blk + sz)) :
    Alters init k k' n := by
  have grow₂ : ∀ b ∈ s.given, b ∈ s₂.given := fun b old => built.mem_given old
  have grow : ∀ b ∈ k.store.given, b ∈ k'.store.given := fun b old =>
    given b (grow₂ b (older b old))
  obtain ⟨dir', same⟩ := built.kept sound given frame
  have tables : k'.tables n = tableBytes s₂.mem pd := by
    rw [Kernel.tables, dir]
    exact tableBytes_congr same
  have fresh : s.newBytes s₂ ⊆ k.store.newBytes k'.store := Store.newBytes_mono older given
  refine ⟨sound, grow, ?_, created, others, dir ▸ dir', ?_, fun m listed => Or.inr fun x inRegion => ?_⟩
  · have first := before.mono
      (Store.newBytes_mono (fun _ old => old) fun b old => given b (grow₂ b old))
    have second := built.newBytes.mono fresh
    have third := frame.mono
      (Store.newBytes_mono (fun b old => grow₂ b (older b old)) fun _ old => old)
    exact ((first.trans second).trans third).mono Set.subset_union_right
  · rw [tables]
    exact fun x inTables => Or.inr (fresh (built.new (Or.inl inTables)))
  · have inBlock := inside m listed inRegion
    have isNew := fresh (built.new (Or.inr inBlock))
    refine ⟨sound.newBytes_outside grow isNew, Or.inl ?_, ?_⟩
    · obtain ⟨b, inGiven, _, within⟩ := isNew
      exact ⟨b, inGiven, within⟩
    · rw [tables]
      exact fun inTables => built.apart x inTables inBlock

/-- A new process owns its stack, its directory with the tables, and the block that its
regions fill. -/
theorem Ledger.born {init : List Block} {boot : Block → Prop} {k k' : Kernel}
    {kstack pd blk sz : Nat} {s s₁ s₂ : Store} (h : Ledger init boot k)
    (took : k.store.Took init kstack s) (built : Built init pd blk sz s s₁ s₂)
    (sound : k'.store.Sound init) (given : ∀ b ∈ s₂.given, b ∈ k'.store.given)
    (frame : Frame s₂.mem k'.store.mem (s₂.newBytes k'.store))
    (created : ∀ p, p ∈ k'.created ↔ p ∈ k.created ∨ p = kstack + 3992)
    (new : kstack + 3992 ∉ k.created)
    (others : ∀ p ∈ k.created, p ≠ kstack + 3992 → (k'.procs p).unqueued = (k.procs p).unqueued ∧
      k'.memtab (k.procs p).pid = k.memtab (k.procs p).pid)
    (dir : k'.dir (kstack + 3992) = pd) (stack : (k'.procs (kstack + 3992)).kstack = kstack)
    (fills : Fills blk sz (k'.regions (kstack + 3992)))
    (rest : ∀ b ∈ k'.store.given, b ∉ s₂.given → boot b) : Ledger init boot k' := by
  have older : ∀ b ∈ k.store.given, b ∈ s.given := fun b old =>
    took.given ▸ List.mem_cons_of_mem _ old
  have self : kstack + 3992 ∈ k'.created := (created _).mpr (Or.inr rfl)
  obtain ⟨_, same⟩ := built.kept sound given frame
  have change : Change init k k' (kstack + 3992) :=
    ⟨built.alters older took.newBytes sound given frame created others dir fills.inside,
      fun old => absurd old new⟩
  refine h.changed change fun b inGiven notOld => ?_
  by_cases late : b ∈ s₂.given
  · right
    obtain ⟨news, givenEq, each, _⟩ := built.blocks
    have paged := sound.paged inGiven
    rw [givenEq, took.given] at late
    rcases List.mem_append.mp late with inNews | early
    · rcases each b inNews with rfl | rfl | ⟨i, lt, here, rfl⟩
      · exact fills.ownsBlock self fun m listed => listed
      · exact Kernel.Owned.ownsBlock (.dir _ self dir) paged.1
      · refine Kernel.Owned.ownsBlock (.table _ self i (by omega) ?_ ?_) paged.1
        · rw [dir, present, same i (by omega)]
          exact here
        · rw [dir, table, same i (by omega)]
          rfl
    · rcases List.mem_cons.mp early with rfl | old
      · exact Kernel.Owned.ownsBlock (.stack _ self stack) paged.1
      · exact absurd old notOld
  · exact Or.inl (rest b inGiven late)

/-! ## A process maps memory -/

section Mapped

variable {init : List Block} {k k' : Kernel} {m : VmRegion} {s₁ : Store} (h : Separate init k)
  (cur : k.curthread ∈ k.created) (older : ∀ b ∈ k.store.given, b ∈ s₁.given)
  (frame₁ : Frame k.store.mem s₁.mem (k.store.newBytes s₁))

include h cur older frame₁

theorem Separate.unmapped (sound₁ : s₁.Sound init) : PageDir s₁ (k.dir k.curthread) ∧
    tableBytes s₁.mem (k.dir k.curthread) = k.tables k.curthread ∧
    ∀ i < 1024, present k.store.mem (k.dir k.curthread) i → present s₁.mem (k.dir k.curthread) i ∧
      table s₁.mem (k.dir k.curthread) i = table k.store.mem (k.dir k.curthread) i := by
  refine h.kept older frame₁ cur fun x inTables fresh => ?_
  obtain ⟨b, inGiven, inside⟩ := (h.dirs _ cur).mem_block inTables
  exact sound₁.newBytes_outside older fresh b inGiven inside

/-- The running process gets a region; what the region leads to is new or was never free. -/
theorem Separate.mapped (sound₁ : s₁.Sound init) (mapping : Mapping init (k.dir k.curthread) s₁ k'.store)
    (created : k'.created = k.created)
    (others : ∀ p ∈ k.created, p ≠ k.curthread → (k'.procs p).unqueued = (k.procs p).unqueued ∧
      k'.memtab (k.procs p).pid = k.memtab (k.procs p).pid)
    (dir : k'.dir k.curthread = k.dir k.curthread)
    (regions : k'.regions k.curthread = m :: k.regions k.curthread)
    (leads : ∀ x ∈ m.bytes, x ∈ k.store.newBytes s₁ ∨ Outside init x) : Alters init k k' k.curthread := by
  obtain ⟨_, tables₁, _⟩ := h.unmapped cur older frame₁ sound₁
  have filling : Filling init (k.dir k.curthread) ∅ s₁ k'.store := mapping.filling
  have grow₂ : ∀ b ∈ s₁.given, b ∈ k'.store.given := fun b old => mapping.mem_given old
  have fresh₂ : s₁.newBytes k'.store ⊆ k.store.newBytes k'.store :=
    Store.newBytes_mono older fun _ old => old
  have tables : k'.tables k.curthread ⊆
      k.tables k.curthread ∪ s₁.newBytes k'.store := by
    rw [Kernel.tables, dir, ← tables₁]
    exact filling.tables_new
  have own : k.tables k.curthread ∪ s₁.newBytes k'.store ⊆
      {x | k.curthread ∈ k.created ∧ x ∈ k.tables k.curthread} ∪ k.store.newBytes k'.store := by
    rintro x (old | new)
    · exact Or.inl ⟨cur, old⟩
    · exact Or.inr (fresh₂ new)
  refine ⟨mapping.sound, fun b old => grow₂ b (older b old), ?_, fun p => ?_, others, dir ▸ mapping.dir,
    fun x inTables => own (tables inTables), fun m' listed => ?_⟩
  · have first := frame₁.mono (Store.newBytes_mono (fun _ old => old) grow₂)
    refine (first.mono Set.subset_union_right).trans (mapping.frame.mono fun x inTables => ?_)
    exact own (tables (by rw [Kernel.tables, dir]; exact inTables))
  · rw [created]
    exact ⟨Or.inl, fun either => either.elim id fun here => here ▸ cur⟩
  · rw [regions] at listed
    rcases List.mem_cons.mp listed with rfl | old
    · refine Or.inr fun x inRegion => ?_
      rcases leads x inRegion with isNew | outside
      · refine ⟨sound₁.newBytes_outside older isNew, Or.inl ?_, fun inTables => ?_⟩
        · obtain ⟨b, inGiven, _, inside⟩ := isNew
          exact ⟨b, grow₂ b inGiven, inside⟩
        · rcases tables inTables with inOld | later
          · obtain ⟨b, inGiven, inside⟩ := (h.dirs _ cur).mem_block inOld
            exact sound₁.newBytes_outside older isNew b inGiven inside
          · obtain ⟨b, inGiven, _, inside⟩ := isNew
            exact mapping.sound.newBytes_outside grow₂ later b inGiven inside
      · have noBlock := mapping.sound.outside outside
        refine ⟨fun b old inside => noBlock b (grow₂ b (older b old)) inside, Or.inr outside,
          fun inTables => ?_⟩
        rw [Kernel.tables, dir] at inTables
        obtain ⟨b, inGiven, inside⟩ := mapping.dir.mem_block inTables
        exact noBlock b inGiven inside
    · exact Or.inl ⟨cur, old⟩

end Mapped

/-- The running process gets the blocks `extra` and a region; what the region leads to is
new or was never free. -/
theorem Ledger.mapped {init : List Block} {boot : Block → Prop} {k k' : Kernel} {m : VmRegion}
    {extra : List Block} {s₁ : Store} (h : Ledger init boot k) (cur : k.curthread ∈ k.created)
    (sound₁ : s₁.Sound init) (given₁ : s₁.given = extra ++ k.store.given)
    (frame₁ : Frame k.store.mem s₁.mem (k.store.newBytes s₁))
    (linked : PageDir s₁ (k.dir k.curthread) → Mapping init (k.dir k.curthread) s₁ k'.store)
    (created : k'.created = k.created)
    (others : ∀ p ∈ k.created, p ≠ k.curthread → (k'.procs p).unqueued = (k.procs p).unqueued ∧
      k'.memtab (k.procs p).pid = k.memtab (k.procs p).pid)
    (dir : k'.dir k.curthread = k.dir k.curthread)
    (stack : (k'.procs k.curthread).kstack = k.proc.kstack)
    (regions : k'.regions k.curthread = m :: k.regions k.curthread)
    (leads : ∀ x ∈ m.bytes, x ∈ k.store.newBytes s₁ ∨ Outside init x)
    (owned : ∀ b ∈ extra, k'.OwnsBlock b) : Ledger init boot k' := by
  have older : ∀ b ∈ k.store.given, b ∈ s₁.given := fun b old => given₁ ▸ List.mem_append_right _ old
  obtain ⟨dir₁, _, entries₁⟩ := h.separate.unmapped cur older frame₁ sound₁
  have mapping := linked dir₁
  have alters := h.separate.mapped cur older frame₁ sound₁ mapping created others dir regions leads
  have change : Change init k k' k.curthread := by
    refine ⟨alters, fun _ => ⟨stack, dir, fun i lt here => ?_, fun m' listed => ?_⟩⟩
    · obtain ⟨here₁, same₁⟩ := entries₁ i lt here
      by_cases user : i < 512
      · obtain ⟨here₂, same₂⟩ := mapping.keeps i user here₁
        exact ⟨here₂, same₂.trans same₁⟩
      · have entry := mapping.kernel i (by omega) lt
        rw [present, table, entry]
        exact ⟨here₁, same₁⟩
    · rw [regions]
      exact List.mem_cons_of_mem _ listed
  refine h.changed change fun b inGiven notOld => Or.inr ?_
  obtain ⟨new, given₂, isTable, _⟩ := mapping.given
  have paged := mapping.sound.paged inGiven
  have self : k.curthread ∈ k'.created := created ▸ cur
  rw [given₂, given₁] at inGiven
  rcases List.mem_append.mp inGiven with inNew | early
  · obtain ⟨i, lt, here, rfl⟩ := isTable b inNew
    refine Kernel.Owned.ownsBlock (.table _ self i (by omega) ?_ ?_) paged.1
    · rw [dir]
      exact here
    · rw [dir]
  · rcases List.mem_append.mp early with inExtra | old
    · exact owned b inExtra
    · exact absurd old notOld

theorem Backed.anon_block {init : List Block} {k : Kernel} {len flags fd mem pa : Nat} {s : Store}
    (sound : k.store.Sound init) (anon : flags &&& mapAnon ≠ 0) (whole : len % 0x1000 = 0)
    (pos : len ≠ 0) (h : Backed k len flags fd mem pa s) :
    ∃ page, pa = v2p page ∧ s.given = ⟨page, len⟩ :: k.store.given ∧ s.Sound init ∧
      Frame k.store.mem s.mem (Set.Ico page (page + len)) := by
  cases h with
  | anon page s₁ s₂ asked taken cleared =>
      have size : pgRoundup len = len := pgRoundup_of_aligned whole
      have alloc := sound.alloc len
      rw [taken] at alloc
      rw [size, Store.memset] at cleared
      obtain ⟨_, touched, result⟩ := bind_eq_ok.mp cleared
      cases result
      cases alloc with
      | none small =>
          have unmapped : len ≠ 0 ∧ 0 < 0x1000 := ⟨pos, by decide⟩
          rw [touch, if_pos unmapped] at touched
          cases touched
      | zero a free nothing => exact absurd nothing pos
      | some a free _ _ sound₁ =>
          rw [size] at sound₁ ⊢
          exact ⟨page, rfl, rfl, sound₁.write rfl rfl, fill_frame _ _ _ _⟩
  | device fd' asked number opened => exact absurd asked anon

end Trunix
