import Trunix.Kernel.Anon
import Trunix.Kernel.Program

/-!
# The address space of any child

`sys_fork` may copy regions from several blocks: those of the program and of every mapping
that was made since.  As long as the copies fit into the block for the child, it finds what
its parent finds, in memory that was free before.
-/

set_option autoImplicit false

namespace Trunix

open Trunix.Lib

theorem Cloning.run_blocks {init B : List Block} {pd blk sz : Nat} {src : Mem} :
    ∀ (old : List VmRegion) (off : Nat) (regions : List VmRegion) (s : Store) {r : List VmRegion × Store},
    (∀ b ∈ B, Cloning init pd blk sz b src s) → (∀ m ∈ old, m.User) →
    (∀ m ∈ old, ∃ b ∈ B, b.addr ≤ p2v m.pa ∧ p2v m.pa + m.len ≤ b.addr + b.sz) →
    (old.map VmRegion.range).Pairwise Disjoint → off % 0x1000 = 0 → off + span old ≤ sz →
    copyRegions pd old (u32 (blk + off)) regions s = .ok r → Clones src pd blk off old s r.2 := by
  intro old
  induction old with
  | nil =>
      intro off regions s r _ _ _ _ _ _ done
      cases done
      exact ⟨.nil, fun _ _ _ => rfl, fun _ _ _ => rfl⟩
  | cons m rest ih =>
      intro off regions s r cloning users inside disjoint aligned room done
      have user := users m List.mem_cons_self
      have whole := user.1
      have spanEq : span (m :: rest) = m.len + span rest := by
        simp only [span, List.map_cons, List.sum_cons, user.rounded]
      rw [List.map_cons, List.pairwise_cons] at disjoint
      obtain ⟨b, memB, low, high⟩ := inside m List.mem_cons_self
      have h := cloning b memB
      rw [copyRegions] at done
      obtain ⟨⟨node, s₁⟩, allocated, afterNode⟩ := bind_eq_ok.mp done
      obtain ⟨_, _, afterTouch⟩ := bind_eq_ok.mp afterNode
      obtain ⟨s₂, linked, afterLink⟩ := bind_eq_ok.mp afterTouch
      obtain ⟨s₃, moved, afterMove⟩ := bind_eq_ok.mp afterLink
      obtain ⟨bytes, free, given⟩ := Store.kmalloc_heap allocated
      have filling := copyRegion_filling h.sound h.dir h.own h.clear user.light (by omega) bytes free given
        linked moved
      obtain ⟨first, walks, before⟩ := h.region user (by omega) aligned (fun _ => ⟨low, high⟩) bytes free
        given linked moved
      have next : u32 (u32 (blk + off) + pgRoundup m.len) = u32 (blk + (off + m.len)) := by
        rw [u32_add, user.rounded, Nat.add_assoc]
      simp only [next] at afterMove
      have later := ih (off + m.len) _ s₃ (fun c mem => (cloning c mem).filled filling)
        (fun other mem => users other (List.mem_cons_of_mem _ mem))
        (fun other mem => inside other (List.mem_cons_of_mem _ mem)) disjoint.2 (by omega) (by omega)
        afterMove
      have out : ∀ x ∈ m.range, ∀ other ∈ rest, x ∉ other.range := fun x within other mem =>
        Set.disjoint_left.mp (disjoint.1 _ (List.mem_map_of_mem mem)) within
      have paged := h.sound.paged h.own
      simp only at paged
      have target : u32 (blk + off) = blk + off ∨ m.len = 0 := by
        by_cases empty : m.len = 0
        · exact Or.inr empty
        · exact Or.inl (u32_of_lt (by omega))
      refine ⟨?_, fun x low apart => ?_, fun x lo hi => ?_⟩
      · rw [copies, next]
        refine .cons ⟨rfl, rfl, rfl, fun x within => ?_, fun i lt => ?_⟩ later.cloned
        · rw [later.others x (user.below within) (out x within)]
          exact first.mapped x within
        · have place : p2v (v2p (u32 (blk + off))) = blk + off := by
            rw [target.resolve_right (by omega), p2v_v2p (by omega) (by omega)]
          rw [← first.bytes i lt, place]
          exact later.before _ (by omega) (by omega)
      · rw [later.others x low fun other mem => apart other (List.mem_cons_of_mem _ mem)]
        exact walks x low (apart m List.mem_cons_self)
      · rw [later.before x lo (by omega)]
        exact before x lo hi

section Child

variable {init : List Block} {env : Env} {k k' : Kernel} {kstack mem pd n : Nat} {s s₁ s₂ s₃ : Store}
  {regions : List VmRegion}

theorem prepared_of_room {sz : Nat} (sound : s.Sound init) (pos : 0 < pgRoundup sz)
    (block : s.allocPages sz = (mem, s₁)) (nonnull : mem ≠ 0)
    (copied : copykvm env.kpagedir s₁ = .ok (pd, s₂)) : Prepared init pd mem (pgRoundup sz) s s₂ := by
  have alloc := sound.alloc sz
  rw [block] at alloc
  cases alloc with
  | none small => exact absurd rfl nonnull
  | zero a free nothing =>
      rw [nothing] at pos
      exact absurd pos (by decide)
  | some a free _ fits sound₁ =>
      obtain ⟨sound₂, dir, empty, _, given, frame⟩ := copykvm_spec sound₁ copied
      exact ⟨sound₂, dir, given, frame, empty⟩

/-- What was handed out before the fork is still as it was when the copying starts. -/
theorem Prepared.cloning {sz : Nat} {b : Block} (h : Prepared init pd mem sz s s₂)
    (took : k.store.Took init kstack s) (old : b ∈ k.store.given) :
    Cloning init pd mem sz b k.store.mem s₂ := by
  have inTook : b ∈ s.given := took.given ▸ List.mem_cons_of_mem _ old
  have inPrepared : b ∈ s₂.given := by
    rw [h.given]
    exact List.mem_append_right _ inTook
  have newBlock : (⟨mem, sz⟩ : Block) ∉ s.given :=
    h.sound.not_mem_of_new h.given (List.mem_cons_of_mem _ List.mem_cons_self)
  have newDir : (⟨pd, 0x1000⟩ : Block) ∉ s.given := h.sound.not_mem_of_new h.given List.mem_cons_self
  have stack : (⟨kstack, 0x1000⟩ : Block) ∈ s.given := took.given ▸ List.mem_cons_self
  refine ⟨h.sound, h.dir, h.own, h.clear List.mem_cons_self, inPrepared, ?_,
    h.clear (List.mem_cons_of_mem _ inTook), fun x lo hi => ?_⟩
  · intro same
    exact newBlock (same ▸ inTook)
  · have apartDir := h.sound.apart_of_ne inPrepared h.dir.own fun same => newDir (same ▸ inTook)
    have apartStack := took.sound.apart_of_ne inTook stack fun same => took.fresh (same ▸ old)
    simp only [Block.Apart] at apartDir apartStack
    have first : s₂.mem x = s.mem x := by
      apply h.frame
      simp only [page, Set.mem_Ico]
      omega
    rw [first]
    apply took.frame
    simp only [page, Set.mem_Ico]
    omega

theorem Kernel.Housed.users (h : k.Housed n) : ∀ m ∈ k.regions n, m.User := fun _ listed =>
  ⟨(h.piece listed).2.1, (h.piece listed).2.2.2.2.2.1⟩

theorem Kernel.Housed.span_pos (h : k.Housed n) : 0 < span (k.regions n) := by
  obtain ⟨m, listed⟩ := List.exists_mem_of_ne_nil _ h.some
  have nonempty := (h.piece listed).1
  have whole := (h.users m listed).rounded
  have part := List.single_le_sum (fun _ _ => Nat.zero_le _) _
    (List.mem_map_of_mem (f := fun m => pgRoundup m.len) listed)
  simp only [span]
  omega

/-- The child of a process at home is at home, in memory that was handed out after its stack,
and finds what its parent finds. -/
theorem Kernel.Housed.child (h : k.Housed k.curthread)
    (room : span (k.memtab k.proc.pid).regions ≤ pgRoundup (k.memtab k.proc.pid).sz)
    (empty : (k.memtab k.pid).regions = []) (took : k.store.Took init kstack s)
    (block : s.allocPages (k.memtab k.proc.pid).sz = (mem, s₁)) (nonnull : mem ≠ 0)
    (copied : copykvm env.kpagedir s₁ = .ok (pd, s₂))
    (filled : copyRegions pd (k.memtab k.proc.pid).regions mem (k.memtab k.pid).regions s₂ =
      .ok (regions, s₃))
    (bytes : k'.store.mem = s₃.mem) (given : k'.store.given = s₃.given)
    (dirEq : k'.dir n = pd) (listEq : k'.regions n = regions) (base : (k'.procs n).mmapBase = 0) :
    k'.Housed n ∧ k'.footprint n ⊆ s.newBytes k'.store ∧
      Frame k.store.mem k'.store.mem (k.store.newBytes k'.store) ∧ k'.space n = k.space k.curthread := by
  have parent : (k.memtab k.proc.pid).regions = k.regions k.curthread := rfl
  rw [parent] at room filled
  have size : 0 < pgRoundup (k.memtab k.proc.pid).sz := Nat.lt_of_lt_of_le h.span_pos room
  have prepared := prepared_of_room took.sound size block nonnull copied
  generalize pgRoundup (k.memtab k.proc.pid).sz = sz at room size prepared
  have paged := prepared.sound.paged prepared.own
  have pagedDir := prepared.sound.paged prepared.dir.own
  simp only at paged pagedDir
  have start : mem = u32 (mem + 0) := (u32_of_lt (by omega)).symm
  have clear := prepared.clear List.mem_cons_self
  have list : regions = (copies (k.regions k.curthread) mem).reverse := by
    have result := copyRegions_regions _ _ _ _ filled
    rw [empty, List.append_nil] at result
    exact result
  have lights : ∀ m ∈ k.regions k.curthread, m.Light := fun m listed => (h.users m listed).light
  have filled' := filled
  rw [start] at filled'
  have filling := copyRegions_filling _ 0 _ s₂ prepared.sound prepared.dir prepared.own clear lights
    (by omega) filled'
  have clones := Cloning.run_blocks (B := k.store.given) _ 0 _ s₂
    (fun b old => prepared.cloning took old) h.users (fun m listed => by
      obtain ⟨b, memB, inside⟩ := h.supplied.inside _ (List.mem_map_of_mem listed)
      exact ⟨b, memB, inside.1, inside.2⟩) h.list.apart rfl (by omega) filled'
  have pairs : List.Forall₂ (Cloned k.store.mem s₃.mem pd) (k.regions k.curthread)
      (copies (k.regions k.curthread) (u32 (mem + 0))) := clones.cloned
  rw [← start] at pairs
  have built : Built init pd mem sz s s₂ s₃ :=
    ⟨⟨_, prepared.given, fun b => by simp [or_comm]⟩, prepared.frame, prepared.empty, clear, filling⟩
  have older : ∀ b ∈ k.store.given, b ∈ s.given := fun b old => took.given ▸ List.mem_cons_of_mem _ old
  have fresh : s.newBytes s₃ ⊆ s.newBytes k'.store :=
    Store.newBytes_mono (fun _ old => old) fun b old => given ▸ old
  have inside := copies_inside paged.2.2.2.1 paged.2.2.2.2 (k.regions k.curthread) 0 lights (by omega)
  rw [← start] at inside
  have nonempty : ∀ c ∈ copies (k.regions k.curthread) mem, c.len ≠ 0 := by
    intro c listed
    obtain ⟨m, inOld, _, len⟩ := mem_copies _ _ listed
    have := (h.piece inOld).1
    omega
  have place : ∀ c ∈ copies (k.regions k.curthread) mem, c.place ⊆ Set.Ico mem (mem + sz) := by
    intro c listed x within
    have bounds := inside c listed (nonempty c listed)
    simp only [VmRegion.place, Set.mem_Ico] at within ⊢
    omega
  have tables : k'.tables n = tableBytes s₃.mem pd := by rw [Kernel.tables, dirEq, bytes]
  have cloned : ∀ c ∈ copies (k.regions k.curthread) mem, ∃ m ∈ k.regions k.curthread,
      Cloned k.store.mem s₃.mem pd m c := fun c listed =>
    exists_of_forall₂ pairs.flip listed
  have housed : k'.Housed n := by
    refine ⟨?_, ?_, ?_, ?_, ?_, fun c listed x inTables within => ?_, fun c listed x within => ?_,
      fun x low out => ?_, ?_⟩
    · rw [dirEq]
      exact filling.dir.of_same bytes given
    · rw [listEq, list]
      exact (h.list.copy mem).toRegionsOk
    · rw [listEq, list]
      intro none
      have count := congrArg List.length (List.reverse_eq_nil_iff.mp none)
      have same := pairs.length_eq
      exact h.some (List.length_eq_zero_iff.mp (same.trans count))
    · rw [listEq, list, given]
      have own := built.mem_block
      refine copies_supplied own (filling.sound.tidy.grained _ (List.mem_append_right _ own)) paged.2.2.2.1
        (fun m listed => ⟨(h.piece listed).2.1, (h.piece listed).1⟩) room
    · intro c listed
      rw [listEq, list] at listed
      exact copies_physical _ _ c (List.mem_reverse.mp listed)
    · rw [listEq, list] at listed
      rw [tables] at inTables
      exact filling.clear prepared.own clear x inTables (place c (List.mem_reverse.mp listed) within)
    · rw [listEq, list] at listed
      obtain ⟨m, _, same⟩ := cloned c (List.mem_reverse.mp listed)
      rw [bytes, dirEq, same.first]
      exact same.mapped x (same.range ▸ within)
    · rw [bytes, dirEq, clones.others x low fun m listed within => ?_]
      · exact walk_absent (prepared.empty _ (by omega))
      · obtain ⟨c, inCopies, same⟩ := exists_of_forall₂ pairs listed
        have listed' : c ∈ k'.regions n := by
          rw [listEq, list]
          exact List.mem_reverse.mpr inCopies
        exact out c listed' (same.range ▸ within)
    · rw [base]
      exact ⟨Nat.zero_le _, rfl⟩
  refine ⟨housed, ?_, ?_, funext fun x => ?_⟩
  · rintro x (inTables | ⟨c, listed, within⟩)
    · exact fresh (built.new (Or.inl (tables ▸ inTables)))
    · rw [listEq, list] at listed
      exact fresh (built.new (Or.inr (place c (List.mem_reverse.mp listed) within)))
  · have grown : ∀ b ∈ s.given, b ∈ k'.store.given := fun b old => given ▸ built.mem_given old
    have first := took.newBytes.mono (Store.newBytes_mono (fun _ old => old) grown)
    rw [bytes]
    exact first.trans (built.newBytes.mono (fresh.trans (Store.newBytes_mono older fun _ old => old)))
  · by_cases found : ∃ m ∈ k.regions k.curthread, x ∈ m.range
    · obtain ⟨m, listed, within⟩ := found
      obtain ⟨c, inCopies, same⟩ := exists_of_forall₂ pairs listed
      have listed' : c ∈ k'.regions n := by
        rw [listEq, list]
        exact List.mem_reverse.mpr inCopies
      rw [h.space_region listed within, housed.space_region listed' (same.range ▸ within), same.first, bytes]
      congr 1
      refine same.bytes _ ?_
      simp only [VmRegion.range, Set.mem_Ico] at within
      omega
    · rw [h.space_none fun m listed within => found ⟨m, listed, within⟩]
      refine housed.space_none fun c listed within => ?_
      rw [listEq, list] at listed
      obtain ⟨m, inOld, same⟩ := cloned c (List.mem_reverse.mp listed)
      exact found ⟨m, inOld, same.range ▸ within⟩

end Child

end Trunix
