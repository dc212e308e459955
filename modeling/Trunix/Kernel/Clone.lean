import Trunix.Kernel.Arranged
import Trunix.Kernel.Cleared
import Trunix.Kernel.Contained
import Trunix.Kernel.Ledger

/-!
# The address space of a child

`sys_fork` copies the bytes behind every region of the parent into one block and maps the
pieces at the addresses of the parent.  What the child then reads is what the parent had, in
frames of its own.
-/

set_option autoImplicit false

namespace Trunix

open Trunix.Lib

/-! ## The copies -/

/-- The region `c` shows under the directory `pd` what the region `m` has in `src`. -/
structure Cloned (src mem : Mem) (pd : Nat) (m c : VmRegion) : Prop where
  range : c.range = m.range
  first : pgRounddown c.va = pgRounddown m.va
  len : c.len = m.len
  mapped : ∀ x ∈ m.range, walk mem pd x = some (c.pa + (x - pgRounddown m.va))
  bytes : ∀ i < m.len, mem (p2v c.pa + i) = src (p2v m.pa + i)

/-- The loop of `sys_fork` while it copies from the block `from'` into the block at `blk`: the
tables of the child lie in neither, and what is copied is still as it was in `src`. -/
structure Cloning (init : List Block) (pd blk sz : Nat) (from' : Block) (src : Mem) (s : Store) :
    Prop where
  sound : s.Sound init
  dir : PageDir s pd
  own : ⟨blk, sz⟩ ∈ s.given
  clear : ∀ x ∈ tableBytes s.mem pd, x ∉ Set.Ico blk (blk + sz)
  parent : from' ∈ s.given
  apart : from' ≠ ⟨blk, sz⟩
  shut : ∀ x ∈ tableBytes s.mem pd, x ∉ Set.Ico from'.addr (from'.addr + from'.sz)
  kept : ∀ x, from'.addr ≤ x → x < from'.addr + from'.sz → s.mem x = src x

section Cloning

variable {init : List Block} {pd blk sz : Nat} {from' : Block} {src : Mem} {s s₁ s₂ s₃ : Store}

theorem Cloning.blocks (h : Cloning init pd blk sz from' src s) {x : Nat} (lo : from'.addr ≤ x)
    (hi : x < from'.addr + from'.sz) : x ∉ Set.Ico blk (blk + sz) := by
  have apart := h.sound.apart_of_ne h.parent h.own h.apart
  simp only [Block.Apart] at apart
  simp only [Set.mem_Ico]
  omega

theorem Cloning.filled (h : Cloning init pd blk sz from' src s)
    (filling : Filling init pd (Set.Ico blk (blk + sz)) s s₁) : Cloning init pd blk sz from' src s₁ := by
  have shut := filling.clear h.parent h.shut
  refine ⟨filling.sound, filling.dir, filling.mem_given h.own, filling.clear h.own h.clear,
    filling.mem_given h.parent, h.apart, shut, fun x lo hi => ?_⟩
  rw [← h.kept x lo hi]
  apply filling.frame
  rintro (inTables | inBlock)
  · exact shut x inTables ⟨lo, hi⟩
  · exact h.blocks lo hi inBlock

/-- What the loop does for the regions `old`: it clones them, and it changes no other mapping and no
byte of the block in front of `off`. -/
structure Clones (src : Mem) (pd blk off : Nat) (old : List VmRegion) (s s' : Store) : Prop where
  cloned : List.Forall₂ (Cloned src s'.mem pd) old (copies old (u32 (blk + off)))
  others : ∀ x < 0x80000000, (∀ m ∈ old, x ∉ m.range) → walk s'.mem pd x = walk s.mem pd x
  before : ∀ x, blk ≤ x → x < blk + off → s'.mem x = s.mem x

theorem VmRegion.User.below {m : VmRegion} (h : m.User) {x : Nat} (inside : x ∈ m.range) :
    x < 0x80000000 := by
  have top := h.2
  simp only [VmRegion.range, Set.mem_Ico] at inside
  omega

theorem memmove_place {blk off n : Nat} {f : Nat → UInt8} (bound : blk + off + n ≤ 0x100000000)
    (moved : s₂.memmove (u32 (blk + off)) f n = .ok s₃) :
    s₃ = { s₂ with mem := blit s₂.mem (blk + off) n f } := by
  obtain ⟨_, _, result⟩ := bind_eq_ok.mp moved
  cases result
  by_cases empty : n = 0
  · subst empty
    congr 1
    funext x
    simp only [blit]
    rw [if_neg (by omega), if_neg (by omega)]
  · rw [u32_of_lt (by omega)]

theorem Cloning.region {off : Nat} {m : VmRegion} (h : Cloning init pd blk sz from' src s) (user : m.User)
    (room : off + m.len ≤ sz) (aligned : off % 0x1000 = 0)
    (inside : m.len ≠ 0 → from'.addr ≤ p2v m.pa ∧ p2v m.pa + m.len ≤ from'.addr + from'.sz)
    (bytes : s₁.mem = s.mem) (free : s₁.free = s.free) (given : s₁.given = s.given)
    (linked : allocPt pd m.va (v2p (u32 (blk + off))) m.len userFlags s₁ = .ok s₂)
    (moved : s₂.memmove (u32 (blk + off)) (fun i => s₂.mem (p2v m.pa + i)) m.len = .ok s₃) :
    Cloned src s₃.mem pd m ⟨m.va, v2p (u32 (blk + off)), m.len⟩ ∧
      (∀ x < 0x80000000, x ∉ m.range → walk s₃.mem pd x = walk s.mem pd x) ∧
        ∀ x, blk ≤ x → x < blk + off → s₃.mem x = s.mem x := by
  have paged := h.sound.paged h.own
  simp only at paged
  have node : Filling init pd (Set.Ico blk (blk + sz)) s s₁ :=
    Filling.write h.sound h.dir free given (by rw [bytes]; exact Frame.refl _ _) h.clear
  have h₁ := h.filled node
  have range : pgRounddown m.va + pgRoundup m.len ≤ 0x80000000 := by
    rw [user.rounded]
    exact user.2
  obtain ⟨mapping, walks⟩ := allocPt_spec h₁.sound h₁.dir (v2p_lt _) range linked
  have h₂ := h₁.filled mapping.filling
  have physical := v2p_eq (u32 (blk + off))
  have small : u32 (blk + off) = (blk + off) % 0x100000000 := rfl
  rw [user.rounded, pgRounddown_of_aligned (show v2p (u32 (blk + off)) % 0x1000 = 0 by omega)] at walks
  have same := memmove_place (show blk + off + m.len ≤ 0x100000000 by omega) moved
  have frame : Frame s₂.mem s₃.mem (Set.Ico (blk + off) (blk + off + m.len)) := by
    rw [same]
    exact blit_frame s₂.mem (blk + off) m.len (fun i => s₂.mem (p2v m.pa + i))
  have avoid : ∀ x ∈ tableBytes s₂.mem pd, x ∉ Set.Ico (blk + off) (blk + off + m.len) := by
    intro x inTables within
    apply h₂.clear x inTables
    simp only [Set.mem_Ico] at within ⊢
    omega
  have walk₃ : ∀ x < 0x80000000, walk s₃.mem pd x =
      if pgRounddown m.va ≤ x ∧ x < pgRounddown m.va + m.len then
        some (u32 (v2p (u32 (blk + off)) + (x - pgRounddown m.va)))
      else walk s.mem pd x := by
    intro x low
    rw [walk_of_frame frame low avoid, walks x low, bytes]
  refine ⟨⟨rfl, rfl, rfl, fun x within => ?_, fun i lt => ?_⟩, fun x low out => ?_, fun x lo hi => ?_⟩
  · rw [walk₃ x (user.below within)]
    simp only [VmRegion.range, Set.mem_Ico] at within
    rw [if_pos within, u32_of_lt (by omega)]
  · -- the bytes of the parent are still there when they are copied
    have place := inside (by omega)
    have target : p2v (v2p (u32 (blk + off))) = blk + off := by
      rw [u32_of_lt (by omega), p2v_v2p (by omega) (by omega)]
    rw [← h₂.kept (p2v m.pa + i) (by omega) (by omega), same, target]
    simp only [blit]
    rw [if_pos (by omega), Nat.add_sub_cancel_left]
  · simp only [VmRegion.range, Set.mem_Ico] at out
    rw [walk₃ x low, if_neg out]
  · have inTables : x ∉ tableBytes s₂.mem pd := by
      intro inTables
      apply h₂.clear x inTables
      simp only [Set.mem_Ico]
      omega
    have kept : s₃.mem x = s₂.mem x := by
      apply frame
      simp only [Set.mem_Ico]
      omega
    rw [kept, mapping.frame x inTables, bytes]

/-- The whole loop, for regions on disjoint addresses: a later region neither maps over an earlier
one nor writes to its bytes. -/
theorem Cloning.run : ∀ (old : List VmRegion) (off : Nat) (regions : List VmRegion) (s : Store)
    {r : List VmRegion × Store}, Cloning init pd blk sz from' src s → (∀ m ∈ old, m.User) →
    (∀ m ∈ old, m.len ≠ 0 → from'.addr ≤ p2v m.pa ∧ p2v m.pa + m.len ≤ from'.addr + from'.sz) →
    (old.map VmRegion.range).Pairwise Disjoint → off % 0x1000 = 0 → off + span old ≤ sz →
    copyRegions pd old (u32 (blk + off)) regions s = .ok r →
    Clones src pd blk off old s r.2 := by
  intro old
  induction old with
  | nil =>
      intro off regions s r _ _ _ _ _ _ done
      cases done
      exact ⟨.nil, fun _ _ _ => rfl, fun _ _ _ => rfl⟩
  | cons m rest ih =>
      intro off regions s r h users inside disjoint aligned room done
      have user := users m List.mem_cons_self
      have whole := user.1
      have spanEq : span (m :: rest) = m.len + span rest := by
        simp only [span, List.map_cons, List.sum_cons, user.rounded]
      rw [List.map_cons, List.pairwise_cons] at disjoint
      rw [copyRegions] at done
      obtain ⟨⟨node, s₁⟩, allocated, afterNode⟩ := bind_eq_ok.mp done
      obtain ⟨_, _, afterTouch⟩ := bind_eq_ok.mp afterNode
      obtain ⟨s₂, linked, afterLink⟩ := bind_eq_ok.mp afterTouch
      obtain ⟨s₃, moved, afterMove⟩ := bind_eq_ok.mp afterLink
      obtain ⟨bytes, free, given⟩ := Store.kmalloc_heap allocated
      have filling := copyRegion_filling h.sound h.dir h.own h.clear user.light (by omega) bytes free given
        linked moved
      obtain ⟨first, walks, before⟩ := h.region user (by omega) aligned (inside m List.mem_cons_self) bytes
        free given linked moved
      have next : u32 (u32 (blk + off) + pgRoundup m.len) = u32 (blk + (off + m.len)) := by
        rw [u32_add, user.rounded, Nat.add_assoc]
      simp only [next] at afterMove
      have later := ih (off + m.len) _ s₃ (h.filled filling)
        (fun other mem => users other (List.mem_cons_of_mem _ mem))
        (fun other mem => inside other (List.mem_cons_of_mem _ mem)) disjoint.2 (by omega) (by omega)
        afterMove
      have out : ∀ x ∈ m.range, ∀ other ∈ rest, x ∉ other.range := fun x within other mem =>
        Set.disjoint_left.mp (disjoint.1 _ (List.mem_map_of_mem mem)) within
      have paged := h.sound.paged h.own
      simp only at paged
      refine ⟨?_, fun x low apart => ?_, fun x lo hi => ?_⟩
      · rw [copies, next]
        refine .cons ⟨rfl, rfl, rfl, fun x within => ?_, fun i lt => ?_⟩ later.cloned
        · rw [later.others x (user.below within) (out x within)]
          exact first.mapped x within
        · have target : p2v (v2p (u32 (blk + off))) = blk + off := by
            rw [u32_of_lt (by omega), p2v_v2p (by omega) (by omega)]
          rw [← first.bytes i lt, target]
          exact later.before _ (by omega) (by omega)
      · rw [later.others x low fun other mem => apart other (List.mem_cons_of_mem _ mem)]
        exact walks x low (apart m List.mem_cons_self)
      · rw [later.before x lo (by omega)]
        exact before x lo hi

end Cloning

/-! ## The parent -/

theorem layout_places (blk : Nat) : ∀ (segs : List Proghdr) (off : Nat),
    blk + (off + strides segs) < 0x100000000 → ∀ m ∈ layout segs (blk + off), ∃ q ∈ places segs off,
      pgRounddown m.va = q.ph.firstPage ∧ m.len = q.ph.len ∧ m.pa = v2p (blk + q.off) := by
  intro segs
  induction segs with
  | nil =>
      intro off _ m mem
      cases mem
  | cons ph rest ih =>
      intro off bound m mem
      have sum : strides (ph :: rest) = pgRoundup ph.memsz + strides rest := rfl
      rw [sum] at bound
      rw [layout, u32_of_lt (by omega), Nat.add_assoc] at mem
      rcases List.mem_cons.mp mem with rfl | later
      · exact ⟨⟨ph, off⟩, List.mem_cons_self, rfl, rfl, rfl⟩
      · obtain ⟨q, inPlaces, found⟩ := ih (off + pgRoundup ph.memsz) (by omega) m later
        exact ⟨q, List.mem_cons_of_mem _ inPlaces, found⟩

structure VmRegion.Backed (mem : Mem) (pd blk sz : Nat) (m : VmRegion) : Prop where
  mapped : ∀ x ∈ m.range, walk mem pd x = some (m.pa + (x - pgRounddown m.va))
  low : blk ≤ p2v m.pa
  high : p2v m.pa + m.len ≤ blk + sz
  physical : m.pa + m.len ≤ 0x80000000

theorem VmRegion.Backed.place {mem : Mem} {pd blk sz : Nat} {m : VmRegion} (h : m.Backed mem pd blk sz)
    {x : Nat} (within : x ∈ m.range) :
    ∃ pa, walk mem pd x = some pa ∧ p2v pa = p2v m.pa + (x - pgRounddown m.va) ∧
      p2v pa = 0x80000000 + pa ∧ blk ≤ p2v pa ∧ p2v pa < blk + sz := by
  have mapped := h.mapped x within
  have low := h.low
  have high := h.high
  have physical := h.physical
  simp only [VmRegion.range, Set.mem_Ico] at within
  have first : p2v m.pa = 0x80000000 + m.pa := p2v_of_lt (by omega)
  have place : p2v (m.pa + (x - pgRounddown m.va)) = 0x80000000 + (m.pa + (x - pgRounddown m.va)) :=
    p2v_of_lt (by omega)
  exact ⟨_, mapped, by omega, place, by omega, by omega⟩

theorem VmRegion.len_ne_zero {m : VmRegion} {x : Nat} (within : x ∈ m.range) : m.len ≠ 0 := by
  simp only [VmRegion.range, Set.mem_Ico] at within
  omega

theorem LoadedAt.backed {init : List Block} {m : Mem} {bin pd blk base sz : Nat}
    {segs : List Proghdr} {regions : List VmRegion} {s : Store} (ok : SegsOk segs)
    (h : LoadedAt init m bin segs pd blk regions base sz s) :
    ∀ r ∈ regions, r.Backed s.mem pd blk sz := by
  have paged := h.loading.sound.paged h.loading.own
  simp only at paged
  have room := h.room
  -- a place in the block, and its region
  have place : ∀ q ∈ places segs 0 ++ [stackAt segs], q.off + q.ph.len ≤ sz → ∀ r : VmRegion,
      pgRounddown r.va = q.ph.firstPage → r.len = q.ph.len → r.pa = v2p (blk + q.off) → q.off < sz →
      r.Backed s.mem pd blk sz := by
    intro q mem fits r first len pa inside
    have physical : r.pa = blk - 0x80000000 + q.off := by
      rw [pa, v2p_eq]
      omega
    have kernel : p2v r.pa = blk + q.off := by
      rw [physical, p2v_of_lt (by omega)]
      omega
    refine ⟨fun x within => ?_, by omega, by omega, by omega⟩
    simp only [VmRegion.range, Set.mem_Ico, first, len] at within
    rw [h.loading.mapped q mem x within.1 within.2, physical, first]
  intro r mem
  rw [h.list] at mem
  rcases List.mem_cons.mp mem with rfl | inLayout
  · obtain ⟨lenEq, firstEq, offEq, _, _⟩ := stackAt_spec segs
    have stackPage : pgRounddown 0x7FFFF000 = 0x7FFFF000 := by decide
    refine place (stackAt segs) (List.mem_append_right _ (List.mem_singleton_self _)) (by omega) _ ?_ ?_ ?_
      (by omega)
    · rw [firstEq]
      exact stackPage
    · exact lenEq.symm
    · rw [offEq]
  · have start : layout segs blk = layout segs (blk + 0) := rfl
    rw [List.mem_reverse, start] at inLayout
    obtain ⟨q, inPlaces, first, len, pa⟩ := layout_places blk segs 0 (by omega) r inLayout
    have bounds := h.place ok inPlaces
    exact place q (List.mem_append_left _ inPlaces) (by omega) r first len pa (by omega)

/-- The running process has the image that its last `loadelf` made of a well-formed file: the
list and the size are those, and nobody wrote to its directory and its tables since. -/
inductive Kernel.HasImage (init : List Block) (env : Env) (k : Kernel) : Prop where
  | intro (bin entry base : Nat) (s₀ s₁ : Store) (sound : s₀.Sound init)
      (ok : SegsOk (env.initrd.segments bin))
      (image : loadImage env.kpagedir env.initrd.bytes bin s₀ = .ok (.loaded k.proc.cr3 entry base
        (k.memtab k.proc.pid).sz (k.memtab k.proc.pid).regions, s₁))
      (given : ∀ b ∈ s₁.given, b ∈ k.store.given)
      (tables : ∀ x ∈ tableBytes s₁.mem (k.dir k.curthread), k.store.mem x = s₁.mem x)

section HasImage

variable {init : List Block} {env : Env} {k : Kernel}

structure Kernel.Imaged (init : List Block) (k : Kernel) (blk : Nat) : Prop where
  dir : PageDir k.store (k.dir k.curthread)
  own : ⟨blk, (k.memtab k.proc.pid).sz⟩ ∈ k.store.given
  tab : ImageTab (k.memtab k.proc.pid)
  ok : RegionsOk (k.regions k.curthread)
  backed : ∀ m ∈ k.regions k.curthread,
    m.Backed k.store.mem (k.dir k.curthread) blk (k.memtab k.proc.pid).sz

theorem Kernel.HasImage.imaged (h : k.HasImage init env) : ∃ blk, k.Imaged init blk := by
  cases h with
  | intro bin entry base s₀ s₁ sound ok image given tables =>
      obtain ⟨blk, loaded⟩ := loadImage_loaded sound ok image
      have frame : Frame s₁.mem k.store.mem (tableBytes s₁.mem (k.dir k.curthread))ᶜ := by
        intro x out
        exact tables x (Set.notMem_compl_iff.mp out)
      have avoid : ∀ x ∈ tableBytes s₁.mem (k.dir k.curthread),
          x ∉ (tableBytes s₁.mem (k.dir k.curthread))ᶜ := fun x inTables => Set.notMem_compl_iff.mpr inTables
      have old : PageDir s₁ (k.dir k.curthread) := loaded.loading.dir
      obtain ⟨dir, _⟩ := old.of_frame given frame fun x inPage => avoid x (Or.inl inPage)
      refine ⟨blk, dir, given _ loaded.loading.own, loadImage_imageTab sound ok image,
        (loadImage_arranged sound ok image).toRegionsOk, fun m mem => ?_⟩
      have backed := loaded.backed ok m mem
      have user := (loadImage_imageTab sound ok image).users m mem
      refine ⟨fun x within => ?_, backed.low, backed.high, backed.physical⟩
      rw [walk_of_frame frame (user.below within) avoid]
      exact backed.mapped x within

end HasImage

/-! ## Fork -/

/-- What the child of a fork has, and what its parent keeps. -/
structure ForkClones (k k' : Kernel) (child : Nat) : Prop where
  equal : ∀ m ∈ k.regions k.curthread, ∀ x ∈ m.range, ∃ pa pa',
    walk k.store.mem (k.dir k.curthread) x = some pa ∧ walk k'.store.mem (k'.dir child) x = some pa' ∧
      k'.store.mem (p2v pa') = k.store.mem (p2v pa)
  separate : ∀ m ∈ k.regions k.curthread, ∀ m' ∈ k.regions k.curthread, ∀ x ∈ m.range, ∀ y ∈ m'.range,
    ∀ pa pa', walk k.store.mem (k.dir k.curthread) x = some pa →
      walk k'.store.mem (k'.dir child) y = some pa' → pa / 0x1000 ≠ pa' / 0x1000
  taken : ∀ m ∈ k.regions k.curthread, ∀ x ∈ m.range, ∀ pa', walk k'.store.mem (k'.dir child) x = some pa' →
    ∀ y ∈ page (p2v (pgRounddown pa')), Outside k'.store.free y
  memory : ∀ m ∈ k.regions k.curthread, ∀ x ∈ m.range, ∀ pa,
    walk k.store.mem (k.dir k.curthread) x = some pa → k'.store.mem (p2v pa) = k.store.mem (p2v pa)
  mappings : k'.dir k.curthread = k.dir k.curthread ∧ ∀ x < 0x80000000,
    walk k'.store.mem (k.dir k.curthread) x = walk k.store.mem (k.dir k.curthread) x

theorem exists_of_forall₂ {α β : Type} {R : α → β → Prop} {L : List α} {L' : List β}
    (h : List.Forall₂ R L L') {a : α} (mem : a ∈ L) : ∃ b ∈ L', R a b := by
  induction h with
  | nil => cases mem
  | cons related rest ih =>
      rcases List.mem_cons.mp mem with rfl | later
      · exact ⟨_, List.mem_cons_self, related⟩
      · obtain ⟨b, inRest, found⟩ := ih later
        exact ⟨b, List.mem_cons_of_mem _ inRest, found⟩

theorem copies_physical : ∀ (old : List VmRegion) (mem : Nat), ∀ c ∈ copies old mem, c.pa < 0x80000000 := by
  intro old
  induction old with
  | nil =>
      intro mem c inside
      cases inside
  | cons m rest ih =>
      intro mem c inside
      rcases List.mem_cons.mp inside with rfl | later
      · simp only [v2p_eq]
        exact Nat.mod_lt _ (by decide)
      · exact ih _ c later

section Fork

variable {init : List Block} {env : Env} {k k' : Kernel} {blk : Nat} {r : Int}

theorem Kernel.Imaged.cloning {kstack mem pd : Nat} {s s₁ s₂ : Store} (h : k.Imaged init blk)
    (took : k.store.Took init kstack s) (block : s.allocPages (k.memtab k.proc.pid).sz = (mem, s₁))
    (nonnull : mem ≠ 0) (made : copykvm env.kpagedir s₁ = .ok (pd, s₂)) :
    Cloning init pd mem (k.memtab k.proc.pid).sz ⟨blk, (k.memtab k.proc.pid).sz⟩ k.store.mem s₂ := by
  have prepared := h.tab.prepared took.sound block nonnull made
  have inTook : (⟨blk, (k.memtab k.proc.pid).sz⟩ : Block) ∈ s.given := by
    rw [took.given]
    exact List.mem_cons_of_mem _ h.own
  have inPrepared : (⟨blk, (k.memtab k.proc.pid).sz⟩ : Block) ∈ s₂.given := by
    rw [prepared.given]
    exact List.mem_append_right _ inTook
  have newBlock : (⟨mem, (k.memtab k.proc.pid).sz⟩ : Block) ∉ s.given :=
    prepared.sound.not_mem_of_new prepared.given (List.mem_cons_of_mem _ List.mem_cons_self)
  have newDir : (⟨pd, 0x1000⟩ : Block) ∉ s.given :=
    prepared.sound.not_mem_of_new prepared.given List.mem_cons_self
  have stack : (⟨kstack, 0x1000⟩ : Block) ∈ s.given := by
    rw [took.given]
    exact List.mem_cons_self
  refine ⟨prepared.sound, prepared.dir, prepared.own, prepared.clear List.mem_cons_self, inPrepared, ?_,
    prepared.clear (List.mem_cons_of_mem _ inTook), fun x lo hi => ?_⟩
  · intro same
    exact newBlock (same ▸ inTook)
  · have apartDir := prepared.sound.apart_of_ne inPrepared prepared.dir.own
      fun same => newDir (same ▸ inTook)
    have apartStack := took.sound.apart_of_ne inTook stack fun same => took.fresh (same ▸ h.own)
    simp only [Block.Apart] at apartDir apartStack lo hi
    have first : s₂.mem x = s.mem x := by
      apply prepared.frame
      simp only [page, Set.mem_Ico]
      omega
    rw [first]
    apply took.frame
    simp only [page, Set.mem_Ico]
    omega

theorem Cloned.backed {src mem : Mem} {pd sz start : Nat} {m c : VmRegion} (h : Cloned src mem pd m c)
    (physical : c.pa < 0x80000000) (low : start ≤ p2v c.pa) (high : p2v c.pa + c.len ≤ start + sz)
    (bound : start + sz ≤ 0x100000000) : c.Backed mem pd start sz := by
  have first := p2v_of_lt physical
  refine ⟨fun x within => ?_, low, high, by omega⟩
  rw [h.range] at within
  rw [h.first]
  exact h.mapped x within

theorem ForkClones.of_blocks {child mem sz : Nat}
    (parent : ∀ m ∈ k.regions k.curthread, m.Backed k.store.mem (k.dir k.curthread) blk sz)
    (clones : ∀ m ∈ k.regions k.curthread, ∀ x ∈ m.range, ∃ c,
      Cloned k.store.mem k'.store.mem (k'.dir child) m c ∧ c.Backed k'.store.mem (k'.dir child) mem sz)
    (apart : blk + sz ≤ mem ∨ mem + sz ≤ blk) (aligned : blk % 0x1000 = 0 ∧ mem % 0x1000 = 0 ∧ sz % 0x1000 = 0)
    (bound : mem + sz ≤ 0x100000000)
    (unchanged : ∀ x, blk ≤ x → x < blk + sz → k'.store.mem x = k.store.mem x)
    (taken : ∀ x, mem ≤ x → x < mem + sz → Outside k'.store.free x)
    (mappings : k'.dir k.curthread = k.dir k.curthread ∧ ∀ x < 0x80000000,
      walk k'.store.mem (k.dir k.curthread) x = walk k.store.mem (k.dir k.curthread) x) :
    ForkClones k k' child := by
  refine ⟨fun m mem x within => ?_, fun m inside m' inside' x within y within' pa pa' found found' => ?_,
    fun m inside x within pa' found y inPage => ?_, fun m inside x within pa found => ?_, mappings⟩
  · obtain ⟨pa, found, place, _⟩ := (parent m mem).place within
    obtain ⟨c, cloned, backed⟩ := clones m mem x within
    obtain ⟨pa', found', place', _⟩ := backed.place (cloned.range ▸ within)
    refine ⟨pa, pa', found, found', ?_⟩
    simp only [VmRegion.range, Set.mem_Ico] at within
    rw [place, place', cloned.first]
    exact cloned.bytes _ (by omega)
  · obtain ⟨_, walked, _, kernel, low, high⟩ := (parent m inside).place within
    obtain ⟨c, cloned, backed⟩ := clones m' inside' y within'
    obtain ⟨_, walked', _, kernel', low', high'⟩ := backed.place (cloned.range ▸ within')
    cases walked.symm.trans found
    cases walked'.symm.trans found'
    omega
  · obtain ⟨c, cloned, backed⟩ := clones m inside x within
    obtain ⟨_, walked, _, kernel, low, high⟩ := backed.place (cloned.range ▸ within)
    cases walked.symm.trans found
    rw [pgRounddown_eq, p2v_of_lt (by omega)] at inPage
    simp only [page, Set.mem_Ico] at inPage
    exact taken y (by omega) (by omega)
  · obtain ⟨_, walked, _, _, low, high⟩ := (parent m inside).place within
    cases walked.symm.trans found
    exact unchanged _ low high

/-- A fork of a process with an image that returns a child has cloned it. -/
theorem Kernel.Imaged.clones (h : k.Imaged init blk) (sound : k.store.Sound init)
    (home : k.Home k.curthread) (done : sysFork env k = .ok (r, k')) (success : r ≠ -1) :
    ∃ child, k'.created = k.created ++ [child] ∧ r = (k'.procs child).pid ∧ ForkClones k k' child := by
  cases sysFork_cases sound home done with
  | failed => exact absurd rfl success
  | child kstack mem pd s s₁ s₂ s₃ s₄ regions ofile frames files k₁ took made block nonnull copied filled
      bytes free given queued =>
      have cloning := h.cloning took block nonnull copied
      have whole := h.tab.copied took block nonnull copied filled
      have ne := took.ne_home home
      obtain ⟨q, inserted, rfl⟩ := enqueue_proc queued
      have paged := cloning.sound.paged cloning.own
      have pagedParent := cloning.sound.paged cloning.parent
      have pagedDir := cloning.sound.paged cloning.dir.own
      simp only at paged pagedParent pagedDir
      have apart := cloning.sound.apart_of_ne cloning.parent cloning.own cloning.apart
      simp only [Block.Apart] at apart
      have start : mem = u32 (mem + 0) := (u32_of_lt (by omega)).symm
      have parent : ∀ m ∈ (k.memtab k.proc.pid).regions,
          m.Backed k.store.mem (k.dir k.curthread) blk (k.memtab k.proc.pid).sz := h.backed
      have run : Clones k.store.mem pd mem 0 (k.memtab k.proc.pid).regions s₂ s₃ := by
        have room := h.tab.room
        rw [start] at filled
        exact cloning.run _ 0 _ s₂ h.tab.users (fun m inside _ => ⟨(parent m inside).low, (parent m inside).high⟩)
          h.ok.apart rfl (by omega) filled
      -- every region that is not empty has its clone in the block of the child
      have child : ∀ m ∈ (k.memtab k.proc.pid).regions, ∀ x ∈ m.range, ∃ c,
          Cloned k.store.mem s₃.mem pd m c ∧ c.Backed s₃.mem pd mem (k.memtab k.proc.pid).sz := by
        intro m inside x within
        obtain ⟨c, inCopies, cloned⟩ := exists_of_forall₂ run.cloned inside
        rw [← start] at inCopies
        have nonempty : c.len ≠ 0 := by
          rw [cloned.len]
          exact VmRegion.len_ne_zero within
        obtain ⟨low, high⟩ := whole.inside c inCopies nonempty
        exact ⟨c, cloned, cloned.backed (copies_physical _ _ c inCopies) low high (by omega)⟩
      have sound₃ := whole.built.filling.sound
      have own₃ := whole.built.mem_block
      have older : ∀ b ∈ k.store.given, b ∈ s₃.given := fun b old =>
        whole.built.mem_given (took.given ▸ List.mem_cons_of_mem _ old)
      have kept : ∀ b ∈ k.store.given, ∀ x, b.addr ≤ x → x < b.addr + b.sz → x ∉ k.store.newBytes s₃ :=
        fun b old x lo hi fresh => sound₃.newBytes_outside older fresh b old ⟨lo, hi⟩
      have dirChild : p2v (v2p pd) = pd := p2v_v2p (by omega) (by omega)
      refine ⟨kstack + 3992, rfl, ?_, ?_⟩
      · simp only [Kernel.setQueue, Function.update_self]
      · refine ForkClones.of_blocks parent ?_ apart ⟨pagedParent.1, paged.1, paged.2.1⟩
          paged.2.2.2.2 ?_ ?_ ⟨?_, ?_⟩
        all_goals simp only [Kernel.dir, Kernel.setQueue, Function.update_self, bytes, free, dirChild,
          Function.update_of_ne ne]
        · exact child
        · intro x lo hi
          exact whole.newBytes x (kept _ h.own x lo hi)
        · intro x lo hi
          exact sound₃.given_not_free own₃ ⟨lo, hi⟩
        · intro x low
          refine walk_of_frame whole.newBytes low fun y inTables fresh => ?_
          obtain ⟨b, inGiven, inside⟩ := h.dir.mem_block inTables
          exact kept b inGiven y inside.1 inside.2 fresh

end Fork

/-- A fork that succeeds gives the child of a process with its image an address space of its own,
with the same bytes at the same addresses, and leaves that of the parent alone. -/
theorem fork_clones {init : List Block} {env : Env} {k k' : Kernel} {r : Int} (sound : k.store.Sound init)
    (home : k.Home k.curthread) (image : k.HasImage init env) (done : sysFork env k = .ok (r, k'))
    (success : r ≠ -1) :
    ∃ child, k'.created = k.created ++ [child] ∧ r = (k'.procs child).pid ∧ ForkClones k k' child := by
  obtain ⟨blk, imaged⟩ := image.imaged
  exact imaged.clones sound home done success

/-! ## Where an image comes from -/

theorem loadelf_hasImage {init : List Block} {env : Env} {k k' : Kernel} {path : List UInt8} {p : Proc}
    (sound : k.store.Sound init)
    (ok : ∀ bin, env.initrd.program path = some bin → SegsOk (env.initrd.segments bin))
    (done : loadelf env k k.proc path = .ok (some p, k')) :
    (k'.setProc k'.curthread p).HasImage init env := by
  rcases loadelf_cases done with ⟨none, _⟩ | ⟨bin, cr3, entry, base, sz, regions, s, file, image, same, rfl⟩
  · cases none
  · cases same
    refine .intro bin entry base k.store s sound (ok bin file) ?_ (fun b mem => mem) fun x _ => rfl
    simp only [Kernel.proc, Kernel.setProc, Kernel.setFrame, Kernel.setMemtab, Function.update_self]
    exact image

theorem Started.hasImage {init : List Block} {env : Env} {k₀ k : Kernel} (h : Started init env k₀ k)
    (tables : TablesAtBoot env k₀) : k.HasImage init env := by
  obtain ⟨root, scheduled⟩ := h.scheduled
  have member := scheduled.mem_created
  obtain ⟨kstack, idle, bin, cr3, entry, base, sz, regions, s₁, s₂, s₃, took, file, image, _, grown, bytes,
    last, memtab, _, created, number, directory, _, _⟩ := h.stages
  rw [created] at member
  have running : k.curthread = kstack + 3992 := List.mem_singleton.mp member
  have tab : k.memtab k.proc.pid = ⟨regions, sz⟩ := by
    rw [Kernel.proc, running, number, memtab, Function.update_self]
  have ok := tables.ok bin file
  have cur : k.proc.cr3 = cr3 := by
    rw [Kernel.proc, running, directory]
  have older : ∀ b ∈ s₂.given, b ∈ k.store.given := by
    intro b mem
    rw [last.given]
    exact List.mem_cons_of_mem _ (grown.given b mem)
  refine .intro bin entry base s₁ s₂ took.sound ok ?_ older fun x inTables => ?_
  · rw [cur, tab]
    exact image
  · obtain ⟨blk, loaded⟩ := loadImage_loaded took.sound ok image
    rw [Kernel.dir, ← Kernel.proc, cur] at inTables
    obtain ⟨b, mem, inside⟩ := loaded.loading.dir.mem_block inTables
    have stack : (⟨idle, 0x1000⟩ : Block) ∈ k.store.given := by
      rw [last.given]
      exact List.mem_cons_self
    have apart := last.sound.apart_of_ne (older b mem) stack
      fun same => last.fresh (same ▸ grown.given b mem)
    simp only [Block.Apart] at apart
    rw [← bytes]
    apply last.frame
    simp only [page, Set.mem_Ico]
    omega

theorem fork_clones_first : ∃ k k', smallBoot alignedSegment = .ok k ∧
    sysFork (smallEnv alignedSegment) k = .ok (2, k') ∧
    ∃ child, k'.created = k.created ++ [child] ∧ (2 : Int) = (k'.procs child).pid ∧
      ForkClones k k' child := by
  have result : (smallBoot alignedSegment >>= fun k => sysFork (smallEnv alignedSegment) k >>= fun r =>
      (.ok r.1 : Except Halt _)) = .ok 2 := by
    decide +kernel
  obtain ⟨k, boot, afterBoot⟩ := bind_eq_ok.mp result
  obtain ⟨⟨r, k'⟩, forked, values⟩ := bind_eq_ok.mp afterBoot
  cases values
  obtain ⟨k₁, booted, started⟩ := bind_eq_ok.mp boot
  obtain ⟨root, scheduled⟩ := (initSched_scheduled smallKernel_atBoot booted).of_ok started
  have home := scheduled.homes _ (List.mem_cons_of_mem _ scheduled.mem_created)
  have image := (boot_started smallKernel_atBoot booted started).hasImage smallKernel_tables
  exact ⟨k, k', boot, forked, fork_clones scheduled.sound home image forked (by decide)⟩

end Trunix
