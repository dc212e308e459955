import Trunix.Kernel.Effect
import Trunix.Kernel.Descriptors

/-!
# Files across a fork

`sys_fork` copies the open files of the parent up to the first empty slot.  That is all of
them because no call leaves a gap: `sys_open` fills the first empty slot, and nothing
empties one.  Every copy is a piece of the heap of its own, since the heap gives no byte
away twice.
-/

set_option autoImplicit false

namespace Trunix

open Trunix.Lib

/-! ## The heap -/

def Store.OnHeap (s : Store) (x : Nat) : Prop := ∃ b ∈ s.heap, b.addr ≤ x ∧ x < b.addr + b.sz

structure Store.HeapApart (s : Store) : Prop where
  apart : s.heap.Pairwise Block.Apart
  bound : ∀ b ∈ s.heap, b.addr + b.sz ≤ 0x100000000

structure Store.HeapUsed (s s' : Store) : Prop where
  apart : s'.HeapApart
  less : ∀ x, s'.OnHeap x → s.OnHeap x

theorem Store.HeapUsed.of_same {s s' : Store} (apart : s.HeapApart) (same : s'.heap = s.heap) :
    s.HeapUsed s' := by
  refine ⟨⟨?_, ?_⟩, fun x on => ?_⟩
  · rw [same]
    exact apart.apart
  · rw [same]
    exact apart.bound
  · rw [OnHeap, same] at on
    exact on

theorem Store.HeapUsed.trans {s t u : Store} (h : s.HeapUsed t) (h' : t.HeapUsed u) : s.HeapUsed u :=
  ⟨h'.apart, fun x on => h.less x (h'.less x on)⟩

theorem Block.Apart.cutRest {n : Nat} {b c d : Block} (mem : d ∈ cutRest n b) (apart : b.Apart c) :
    d.Apart c := by
  obtain ⟨start, stop⟩ := mem_cutRest mem
  unfold Block.Apart at apart ⊢
  omega

theorem Store.HeapApart.cut {s : Store} {n : Nat} {b : Block} {pre post : List Block}
    (h : s.HeapApart) (split : s.heap = pre ++ b :: post) :
    s.HeapUsed { s with heap := pre ++ (cutRest n b ++ post) } := by
  have apart := h.apart
  have bound := h.bound
  rw [split] at apart bound
  have boundB := bound b (List.mem_append_right _ List.mem_cons_self)
  refine ⟨⟨?_, fun c mem => ?_⟩, fun x on => ?_⟩
  · exact cutRest_pairwise apart (fun c d inCut apart => (apart.symm.cutRest inCut).symm)
      fun c d inCut apart => apart.cutRest inCut
  · rcases List.mem_append.mp mem with inPre | memC
    · exact bound c (List.mem_append_left _ inPre)
    · rcases List.mem_append.mp memC with inCut | inPost
      · have stop := (mem_cutRest inCut).2
        omega
      · exact bound c (List.mem_append_right _ (List.mem_cons_of_mem _ inPost))
  · obtain ⟨c, mem, lo, hi⟩ := on
    rw [OnHeap, split]
    rcases List.mem_append.mp mem with inPre | memC
    · exact ⟨c, List.mem_append_left _ inPre, lo, hi⟩
    · rcases List.mem_append.mp memC with inCut | inPost
      · obtain ⟨start, stop⟩ := mem_cutRest inCut
        exact ⟨b, List.mem_append_right _ List.mem_cons_self, by omega, by omega⟩
      · exact ⟨c, List.mem_append_right _ (List.mem_cons_of_mem _ inPost), lo, hi⟩

theorem Store.kmalloc_used {s s' : Store} {sz p : Nat} (apart : s.HeapApart)
    (done : s.kmalloc sz = .ok (p, s')) : s.HeapUsed s' := by
  rw [Store.kmalloc] at done
  split at done
  · cases done
  · rcases cutFit_eq (n := kmallocSize sz) s.heap with ⟨none, _⟩ | ⟨pre, b, post, split, _, _, cut⟩
    · rw [none] at done
      cases done
      exact .of_same apart rfl
    · rw [cut] at done
      cases done
      exact apart.cut split

/-- A `struct file` from `kmalloc` was free before and is not free any more. -/
theorem Store.kmalloc_file {s s' : Store} {f : Nat} (apart : s.HeapApart)
    (done : s.kmalloc 12 = .ok (f, s')) (nonnull : f ≠ 0) : s.OnHeap f ∧ ¬ s'.OnHeap f := by
  have size : kmallocSize 12 = 16 := by decide
  rw [Store.kmalloc, size, if_neg (by decide)] at done
  rcases cutFit_eq (n := 16) s.heap with ⟨none, _⟩ | ⟨pre, b, post, split, fits, _, cut⟩
  · rw [none] at done
    cases done
    exact absurd rfl nonnull
  · rw [cut] at done
    cases done
    have all := apart.apart
    have bound := apart.bound b (by rw [split]; exact List.mem_append_right _ List.mem_cons_self)
    have place : u32 (b.addr + 2) = b.addr + 2 := u32_of_lt (by omega)
    rw [split] at all
    obtain ⟨_, inRest, across⟩ := List.pairwise_append.mp all
    have first := (List.pairwise_cons.mp inRest).1
    rw [place]
    refine ⟨⟨b, ?_, by omega, by omega⟩, ?_⟩
    · rw [split]
      exact List.mem_append_right _ List.mem_cons_self
    · rintro ⟨c, mem, lo, hi⟩
      rcases List.mem_append.mp mem with inPre | memC
      · have side := across c inPre b List.mem_cons_self
        unfold Block.Apart at side
        omega
      · rcases List.mem_append.mp memC with inCut | inPost
        · have start := (mem_cutRest inCut).1
          omega
        · have side := first c inPost
          unfold Block.Apart at side
          omega

theorem heapUsed_respected : Respected fun s s' => s.HeapApart → s.HeapUsed s' where
  refl _ apart := .of_same apart rfl
  trans first second apart := (first apart).trans (second (first apart).apart)
  pages _ sz apart := .of_same apart (Store.allocPages_mem _ sz).2
  heap done apart := Store.kmalloc_used apart done
  bytes _ _ same apart := .of_same apart same

/-! ## The copies -/

/-- What the loop of `sys_fork` over the descriptors `fds` does to the files and the table of
the child `n`. -/
structure FilesCopied (parent : Proc) (n : Nat) (fds : List (Fin maxfiles)) (k k' : Kernel) : Prop where
  used : k.store.HeapUsed k'.store
  null : ∀ fd ∈ fds, (k'.procs n).ofile fd = 0 ↔ parent.ofile fd = 0
  others : ∀ fd, fd ∉ fds → (k'.procs n).ofile fd = (k.procs n).ofile fd
  fresh : ∀ fd ∈ fds, parent.ofile fd ≠ 0 →
    k.store.OnHeap ((k'.procs n).ofile fd) ∧ ¬ k'.store.OnHeap ((k'.procs n).ofile fd)
  distinct : ∀ fd ∈ fds, ∀ fd' ∈ fds, fd ≠ fd' → parent.ofile fd ≠ 0 → parent.ofile fd' ≠ 0 →
    (k'.procs n).ofile fd ≠ (k'.procs n).ofile fd'
  equal : ∀ fd ∈ fds, parent.ofile fd ≠ 0 →
    k'.files ((k'.procs n).ofile fd) = k.files (parent.ofile fd)
  kept : ∀ x, ¬ k.store.OnHeap x → k'.files x = k.files x

theorem FilesCopied.stop {parent : Proc} {n : Nat} {fds : List (Fin maxfiles)} {k : Kernel}
    (apart : k.store.HeapApart) (child : ∀ fd ∈ fds, (k.procs n).ofile fd = 0)
    (ended : ∀ fd ∈ fds, parent.ofile fd = 0) : FilesCopied parent n fds k k where
  used := .of_same apart rfl
  null fd mem := iff_of_true (child fd mem) (ended fd mem)
  others _ _ := rfl
  fresh fd mem opened := absurd (ended fd mem) opened
  distinct fd mem _ _ _ opened _ := absurd (ended fd mem) opened
  equal fd mem opened := absurd (ended fd mem) opened
  kept _ _ := rfl

/-- The body of the loop: the slot `fd` gets the new file `f`. -/
def Kernel.putFile (k : Kernel) (parent : Proc) (n : Nat) (fd : Fin maxfiles) (f : Nat) (s : Store) :
    Kernel :=
  let p := { k.procs n with ofile := Function.update (k.procs n).ofile fd f }
  { k with
    store := s
    procs := Function.update k.procs n p
    files := Function.update k.files f (k.files (parent.ofile fd)) }

theorem FilesCopied.cons {parent : Proc} {n f : Nat} {fd : Fin maxfiles} {rest : List (Fin maxfiles)}
    {k k' : Kernel} {s : Store} (fresh : fd ∉ rest) (opened : parent.ofile fd ≠ 0) (nonnull : f ≠ 0)
    (used : k.store.HeapUsed s) (onHeap : k.store.OnHeap f) (gone : ¬ s.OnHeap f)
    (taken : ∀ e ∈ fd :: rest, parent.ofile e ≠ 0 → ¬ k.store.OnHeap (parent.ofile e))
    (h : FilesCopied parent n rest (k.putFile parent n fd f s) k') :
    FilesCopied parent n (fd :: rest) k k' := by
  have mine : (k'.procs n).ofile fd = f := by
    rw [h.others fd fresh]
    simp only [Kernel.putFile, Function.update_self]
  have files : ∀ x, x ≠ f → (k.putFile parent n fd f s).files x = k.files x := fun x ne =>
    Function.update_of_ne ne _ _
  have less : ∀ x, s.OnHeap x → k.store.OnHeap x := used.less
  refine ⟨used.trans h.used, fun e mem => ?_, fun e out => ?_, fun e mem open' => ?_,
    fun e mem e' mem' ne open' open'' => ?_, fun e mem open' => ?_, fun x off => ?_⟩
  · rcases List.mem_cons.mp mem with rfl | inRest
    · rw [mine]
      exact iff_of_false nonnull opened
    · exact h.null e inRest
  · rw [List.mem_cons, not_or] at out
    rw [h.others e out.2]
    simp only [Kernel.putFile, Function.update_self, Function.update_of_ne out.1]
  · rcases List.mem_cons.mp mem with rfl | inRest
    · rw [mine]
      exact ⟨onHeap, fun on => gone (h.used.less f on)⟩
    · obtain ⟨on, off⟩ := h.fresh e inRest open'
      exact ⟨less _ on, off⟩
  · -- a copy that is made later comes from a heap without `f`
    have apart : ∀ a ∈ rest, parent.ofile a ≠ 0 → (k'.procs n).ofile a ≠ f := by
      intro a inRest openA same
      exact gone (same ▸ (h.fresh a inRest openA).1)
    rcases List.mem_cons.mp mem with rfl | inRest
    · rcases List.mem_cons.mp mem' with rfl | inRest'
      · exact absurd rfl ne
      · rw [mine]
        exact (apart e' inRest' open'').symm
    · rcases List.mem_cons.mp mem' with rfl | inRest'
      · rw [mine]
        exact apart e inRest open'
      · exact h.distinct e inRest e' inRest' ne open' open''
  · rcases List.mem_cons.mp mem with rfl | inRest
    · rw [mine, h.kept f gone]
      exact Function.update_self _ _ _
    · have ne : parent.ofile e ≠ f := by
        intro same
        exact taken e mem open' (same ▸ onHeap)
      rw [h.equal e inRest open', files _ ne]
  · have ne : x ≠ f := by
      intro same
      exact off (same ▸ onHeap)
    rw [h.kept x (fun on => off (less x on)), files x ne]

/-- The loop copies every open file when the table of the parent has no gap. -/
theorem copyFiles_copied {parent : Proc} {n : Nat} : ∀ (fds : List (Fin maxfiles)) (k : Kernel)
    {k' : Kernel}, fds.Nodup → fds.Pairwise (fun a b => parent.ofile a = 0 → parent.ofile b = 0) →
    k.store.HeapApart → (∀ fd ∈ fds, (k.procs n).ofile fd = 0) →
    (∀ fd ∈ fds, parent.ofile fd ≠ 0 → ¬ k.store.OnHeap (parent.ofile fd)) →
    copyFiles parent n fds k = .ok k' → FilesCopied parent n fds k k' := by
  intro fds
  induction fds with
  | nil =>
      intro k k' _ _ apart _ _ done
      rw [copyFiles] at done
      split at done
      · cases done
        exact .stop apart (fun fd mem => by cases mem) (fun fd mem => by cases mem)
      · cases done
  | cons fd rest ih =>
      intro k k' nodup noGap apart empty taken done
      obtain ⟨fresh, nodupRest⟩ := List.nodup_cons.mp nodup
      obtain ⟨first, noGapRest⟩ := List.pairwise_cons.mp noGap
      rw [copyFiles] at done
      by_cases closed : parent.ofile fd = 0
      · rw [if_pos closed] at done
        cases done
        refine .stop apart empty fun e mem => ?_
        rcases List.mem_cons.mp mem with rfl | inRest
        · exact closed
        · exact first e inRest closed
      · rw [if_neg closed] at done
        obtain ⟨⟨f, s⟩, allocated, afterAlloc⟩ := bind_eq_ok.mp done
        obtain ⟨_, touched, later⟩ := bind_eq_ok.mp afterAlloc
        have high := (touch_eq_ok touched).resolve_left (by decide)
        have nonnull : f ≠ 0 := by omega
        have used := Store.kmalloc_used apart allocated
        obtain ⟨onHeap, gone⟩ := Store.kmalloc_file apart allocated nonnull
        refine .cons fresh closed nonnull used onHeap gone taken
          (ih (k.putFile parent n fd f s) nodupRest noGapRest used.apart (fun e mem => ?_)
            (fun e mem opened on => ?_) later)
        · have ne : e ≠ fd := fun same => fresh (same ▸ mem)
          simp only [Kernel.putFile, Function.update_self, Function.update_of_ne ne]
          exact empty e (List.mem_cons_of_mem _ mem)
        · exact taken e (List.mem_cons_of_mem _ mem) opened (used.less _ on)

/-! ## The tables of the processes -/

def Proc.OpenUpTo (p : Proc) (n : Nat) : Prop := ∀ fd : Fin maxfiles, p.ofile fd ≠ 0 ↔ fd.val < n

/-- The tables of the processes in `L` have no gaps, and their files are not in the free part
of the heap. -/
structure Kernel.FilesOk (k : Kernel) (L : List Nat) : Prop where
  apart : k.store.HeapApart
  segment : ∀ p ∈ L, ∃ n, (k.procs p).OpenUpTo n
  taken : ∀ p ∈ L, ∀ fd, (k.procs p).ofile fd ≠ 0 → ¬ k.store.OnHeap ((k.procs p).ofile fd)

theorem Kernel.FilesOk.keep {k k' : Kernel} {L : List Nat} (h : k.FilesOk L)
    (used : k.store.HeapUsed k'.store) (same : ∀ p ∈ L, (k'.procs p).ofile = (k.procs p).ofile) :
    k'.FilesOk L := by
  refine ⟨used.apart, fun p mem => ?_, fun p mem fd opened on => ?_⟩
  · obtain ⟨n, upTo⟩ := h.segment p mem
    refine ⟨n, fun fd => ?_⟩
    rw [same p mem]
    exact upTo fd
  · rw [same p mem] at opened on
    exact h.taken p mem fd opened (used.less _ on)

theorem Proc.OpenUpTo.fill {p : Proc} {n f : Nat} {fd : Fin maxfiles} (h : p.OpenUpTo n)
    (first : freeFd p = some fd) (nonnull : f ≠ 0) :
    Proc.OpenUpTo { p with ofile := Function.update p.ofile fd f } (fd.val + 1) := by
  obtain ⟨empty, before⟩ := freeFd_eq_some.mp first
  have behind : n ≤ fd.val := by
    by_contra below
    exact (h fd).mpr (by omega) empty
  intro e
  by_cases here : e = fd
  · subst here
    simp only [Function.update_self]
    exact iff_of_true nonnull (Nat.lt_succ_self _)
  · have apart : e.val ≠ fd.val := fun same => here (Fin.ext same)
    simp only [Function.update_of_ne here]
    constructor
    · intro opened
      have below := (h e).mp opened
      omega
    · intro below
      exact before e (show e.val < fd.val by omega)

theorem Kernel.FilesOk.sysOpen {env : Env} {k k' : Kernel} {L : List Nat} {path : List UInt8} {r : Int}
    (h : k.FilesOk L) (done : sysOpen env k path = .ok (r, k')) : k'.FilesOk L := by
  rw [Trunix.sysOpen] at done
  split at done
  · cases done
    exact h
  · split at done
    · split at done
      · cases done
      · cases done
        exact h
    · rename_i fd free
      obtain ⟨⟨f, s⟩, allocated, afterAlloc⟩ := bind_eq_ok.mp done
      obtain ⟨_, touched, afterTouch⟩ := bind_eq_ok.mp afterAlloc
      obtain ⟨k₁, opened, result⟩ := bind_eq_ok.mp afterTouch
      cases result
      have high := (touch_eq_ok touched).resolve_left (by decide)
      have nonnull : f ≠ 0 := by omega
      obtain ⟨takes, same⟩ := heapUsed_respected.toTaking.cdevOpen 16 _ _ opened
      have used := Store.kmalloc_used h.apart allocated
      have later : s.HeapUsed k'.store := takes used.apart
      have gone := (Store.kmalloc_file h.apart allocated nonnull).2
      have procs : k'.procs = Function.update k.procs k.curthread
          { k.proc with ofile := Function.update k.proc.ofile fd f } := by
        rw [same]
        rfl
      refine ⟨later.apart, fun p mem => ?_, fun p mem e open' on => ?_⟩
      · obtain ⟨n, upTo⟩ := h.segment p mem
        by_cases here : p = k.curthread
        · subst here
          rw [procs, Function.update_self]
          exact ⟨_, upTo.fill free nonnull⟩
        · rw [procs, Function.update_of_ne here]
          exact ⟨n, upTo⟩
      · by_cases here : p = k.curthread
        · subst here
          rw [procs, Function.update_self] at open' on
          by_cases slot : e = fd
          · subst slot
            simp only [Function.update_self] at on
            exact gone (later.less f on)
          · simp only [Function.update_of_ne slot] at open' on
            exact h.taken _ mem e open' ((used.trans later).less _ on)
        · rw [procs, Function.update_of_ne here] at open' on
          exact h.taken p mem e open' ((used.trans later).less _ on)

/-! ## Fork -/

structure ForkCopiesFiles (k k' : Kernel) (child : Nat) : Prop where
  parent : (k'.procs k.curthread).ofile = k.proc.ofile
  null : ∀ fd, (k'.procs child).ofile fd = 0 ↔ k.proc.ofile fd = 0
  apart : ∀ fd, k.proc.ofile fd ≠ 0 → ∀ fd', (k'.procs child).ofile fd ≠ k.proc.ofile fd'
  distinct : ∀ fd fd', fd ≠ fd' → k.proc.ofile fd ≠ 0 →
    (k'.procs child).ofile fd ≠ (k'.procs child).ofile fd'
  equal : ∀ fd, k.proc.ofile fd ≠ 0 →
    k'.files ((k'.procs child).ofile fd) = k'.files (k.proc.ofile fd)
  kept : ∀ fd, k.proc.ofile fd ≠ 0 → k'.files (k.proc.ofile fd) = k.files (k.proc.ofile fd)

/-- Once all files are copied, the tables of the parent and the child have no file in common. -/
theorem FilesCopied.forked {k k₀ k₁ : Kernel} {L : List Nat} {child : Nat}
    (files : FilesCopied k.proc child (List.finRange maxfiles) k₀ k₁) (h : k.FilesOk L)
    (running : k.curthread ∈ L) (used : k.store.HeapUsed k₀.store) (old : k₀.files = k.files)
    (others : ∀ p ∈ L, (k₁.procs p).ofile = (k.procs p).ofile) :
    k₁.FilesOk (L ++ [child]) ∧ ForkCopiesFiles k k₁ child := by
  have inRange : ∀ fd : Fin maxfiles, fd ∈ List.finRange maxfiles := List.mem_finRange
  have null : ∀ fd, (k₁.procs child).ofile fd = 0 ↔ k.proc.ofile fd = 0 := fun fd =>
    files.null fd (inRange fd)
  have older : ∀ fd, k.proc.ofile fd ≠ 0 → ¬ k₀.store.OnHeap (k.proc.ofile fd) := fun fd opened on =>
    h.taken _ running fd opened (used.less _ on)
  constructor
  · refine ⟨files.used.apart, fun p mem => ?_, fun p mem fd opened on => ?_⟩
    · rcases List.mem_append.mp mem with here | new
      · obtain ⟨m, upTo⟩ := h.segment p here
        refine ⟨m, fun fd => ?_⟩
        rw [others p here]
        exact upTo fd
      · rw [List.mem_singleton.mp new]
        obtain ⟨n, upTo⟩ := h.segment _ running
        exact ⟨n, fun fd => (not_congr (null fd)).trans (upTo fd)⟩
    · rcases List.mem_append.mp mem with here | new
      · rw [others p here] at opened on
        exact h.taken p here fd opened (used.less _ (files.used.less _ on))
      · rw [List.mem_singleton.mp new] at opened on
        exact (files.fresh fd (inRange fd) ((not_congr (null fd)).mp opened)).2 on
  · have kept : ∀ fd, k.proc.ofile fd ≠ 0 → k₁.files (k.proc.ofile fd) = k.files (k.proc.ofile fd) := by
      intro fd opened
      rw [files.kept _ (older fd opened), old]
    refine ⟨others _ running, null, fun fd opened fd' both => ?_, fun fd fd' apart opened both => ?_,
      fun fd opened => ?_, kept⟩
    · have fresh := (files.fresh fd (inRange fd) opened).1
      rw [both] at fresh
      by_cases closed : k.proc.ofile fd' = 0
      · rw [closed] at both
        exact opened ((null fd).mp both)
      · exact older fd' closed fresh
    · by_cases closed : k.proc.ofile fd' = 0
      · rw [(null fd').mpr closed] at both
        exact opened ((null fd).mp both)
      · exact files.distinct fd (inRange fd) fd' (inRange fd') apart opened closed both
    · rw [files.equal fd (inRange fd) opened, kept fd opened, old]

/-- A fork fails, or its child has copies of all open files. -/
theorem Kernel.FilesOk.sysFork {init : List Block} {env : Env} {k : Kernel} {L : List Nat}
    {r : Int × Kernel} (h : k.FilesOk L) (sound : k.store.Sound init) (running : k.curthread ∈ L)
    (homes : ∀ p ∈ L, k.Home p) (done : sysFork env k = .ok r) :
    (r.1 = -1 ∧ r.2.created = k.created ∧ r.2.FilesOk L) ∨
      ∃ child, r.1 = ((r.2.procs child).pid : Int) ∧ r.2.created = k.created ++ [child] ∧ child ∉ L ∧
        r.2.FilesOk (L ++ [child]) ∧ ForkCopiesFiles k r.2 child := by
  rcases sysFork_steps sound (homes _ running) done with ⟨kstack, s, s', frames, took, full, rfl⟩ |
    ⟨kstack, mem, pd, s, s₁, s₂, s₃, regions, frames, k₁, k₂, took, made, block, nonnull, copied, filled,
      filed, queued, rfl⟩
  · refine Or.inl ⟨rfl, rfl, h.keep ?_ fun p mem => ?_⟩
    · have heap := (Store.allocPages_mem s (k.memtab k.proc.pid).sz).2
      rw [full] at heap
      exact .of_same h.apart (heap.trans took.heap)
    · simp only [Function.update_of_ne (took.ne_home (homes p mem))]
  · have used₀ : k.store.HeapUsed s := .of_same h.apart took.heap
    have used₁ : s.HeapUsed s₁ := by
      have heap := (Store.allocPages_mem s (k.memtab k.proc.pid).sz).2
      rw [block] at heap
      exact .of_same used₀.apart heap
    have used₂ : s₁.HeapUsed s₂ := (heapUsed_respected.copykvm _ _).of_ok copied used₁.apart
    have used₃ : s₂.HeapUsed s₃ := (heapUsed_respected.copyRegions _ _ _ _).of_ok filled used₂.apart
    have used : k.store.HeapUsed s₃ := ((used₀.trans used₁).trans used₂).trans used₃
    obtain ⟨n, upTo⟩ := h.segment _ running
    have noGap : (List.finRange maxfiles).Pairwise fun a b => k.proc.ofile a = 0 → k.proc.ofile b = 0 := by
      refine (List.pairwise_lt_finRange maxfiles).imp fun {a b} lt closed => ?_
      by_contra opened
      have below := (upTo b).mp opened
      exact (upTo a).mpr (by omega) closed
    have files := copyFiles_copied (List.finRange maxfiles) _ (List.nodup_finRange maxfiles) noGap
      used.apart (fun fd _ => by simp only [Function.update_self, newProc, Proc.zero])
      (fun fd _ opened on => h.taken _ running fd opened (used.less _ on)) filed
    obtain ⟨_, _, _, same⟩ := copyFiles_spec _ _ filed
    have ne : ∀ p ∈ L, p ≠ kstack + 3992 := fun p mem => took.ne_home (homes p mem)
    have others : ∀ p ∈ L, (k₁.procs p).ofile = (k.procs p).ofile := by
      intro p mem
      rw [same]
      simp only [Function.update_of_ne (ne p mem)]
    obtain ⟨q, _, rfl⟩ := enqueue_proc queued
    obtain ⟨ok, copies⟩ := files.forked h running used rfl others
    have created : k₁.created = k.created := by rw [same]
    -- only the links of the queue are different behind the copies
    exact Or.inr ⟨kstack + 3992, rfl, congrArg (· ++ [kstack + 3992]) created,
      fun mem => ne _ mem rfl, ⟨ok.apart, ok.segment, ok.taken⟩,
      ⟨copies.parent, copies.null, copies.apart, copies.distinct, copies.equal, copies.kept⟩⟩

/-! ## Runs -/

inductive FileCall where
  | open (path : List UInt8)
  | other (c : Call)

def Kernel.fileStep (env : Env) (k : Kernel) : FileCall → Except Halt Kernel
  | .open path => do
      let (_, k) ← Trunix.sysOpen env k path
      return k
  | .other c => k.step env c

def Kernel.FileAllowed (k : Kernel) : FileCall → Prop
  | .open _ => True
  | .other c => k.Allowed c

/-- `Kernel.Astray` with the calls of `sys_open`: the console that finds a console at
`/dev/fb` opens it on and on, until the stack is used up. -/
def Kernel.FileAstray (env : Env) (k : Kernel) : FileCall → Prop
  | .open path => ∃ h, k.fileStep env (.open path) = .error h ∧ (h = .loops ∨ h.GoesOn k.NullMapped)
  | .other c => k.Astray env c

theorem Kernel.not_fileAstray {env : Env} {k k' : Kernel} {c : FileCall}
    (done : k.fileStep env c = .ok k') (inside : ∀ c', c = .other c' → ¬ k.Overruns env c') :
    ¬ k.FileAstray env c := by
  cases c with
  | «open» path =>
      rintro ⟨h, stopped, _⟩
      rw [done] at stopped
      cases stopped
  | other c => exact Kernel.not_astray done (inside c rfl)

theorem ofile_of_unqueued {p p' : Proc} (same : p.unqueued = p'.unqueued) : p.ofile = p'.ofile := by
  have table := congrArg Proc.ofile same
  exact table

theorem Effect.tables {init : List Block} {env : Env} {k k' : Kernel} {c : Call}
    (h : Effect init env k c k') (notFork : c ≠ .fork) : k'.created = k.created ∧
      ∀ p ∈ k.created, (k'.procs p).ofile = (k.procs p).ofile := by
  have kept : Keeps k k' → k'.created = k.created ∧
      ∀ p ∈ k.created, (k'.procs p).ofile = (k.procs p).ofile := fun keeps =>
    ⟨keeps.created, fun p mem => ofile_of_unqueued (keeps.procs p mem)⟩
  have changed : (k'.procs k.curthread).ofile = k.proc.ofile →
      (∀ p ∈ k.created, p ≠ k.curthread → (k'.procs p).unqueued = (k.procs p).unqueued) →
      ∀ p ∈ k.created, (k'.procs p).ofile = (k.procs p).ofile := by
    intro self others p mem
    by_cases here : p = k.curthread
    · rw [here]
      exact self
    · exact ofile_of_unqueued (others p mem here)
  cases h with
  | paused _ _ _ _ keeps => exact kept keeps
  | wrote _ _ _ _ _ _ keeps => exact kept keeps
  | refused _ _ _ _ keeps => exact kept keeps
  | declined _ _ _ _ _ _ _ keeps => exact kept keeps
  | loaded _ _ _ _ _ _ _ _ _ _ _ _ created others self =>
      have table := congrArg Proc.ofile self
      exact ⟨created, changed table others⟩
  | mapped _ _ _ _ _ _ _ _ _ _ _ _ _ _ _ _ _ created others self =>
      have table := congrArg Proc.ofile self
      exact ⟨created, changed table others⟩
  | unforked => exact absurd rfl notFork
  | forked => exact absurd rfl notFork

section Run

variable {init : List Block} {root : Nat} {Q : List Nat} {env : Env} {k k' : Kernel}

theorem sysOpen_quiet {path : List UInt8} {r : Int} (sound : k.store.Sound init)
    (opened : sysOpen env k path = .ok (r, k')) : Quiet init k k' := by
  obtain ⟨grows, _, ofile, same⟩ := sysOpen_spec sound opened
  refine ⟨grows, fun p _ => ?_, by rw [same], by rw [same], by rw [same], by rw [same],
    by rw [same], by rw [same]⟩
  rw [same]
  by_cases here : p = k.curthread
  · subst here
    simp [Kernel.proc]
  · simp [here]

end Run

/-! ## The boot -/

end Trunix
