import Trunix.Mem.Free
import Trunix.Libc.Malloc

/-!
# `free` of the C library

`free` of `lib/libc/stdlib/malloc.c`.  The header that `malloc` stores is a `size_t` four bytes
in front of the pointer; `free` reads an `unsigned short` two bytes in front of it, and makes
the node there.  The first byte of a block therefore never becomes free again: a node in
front of the list starts behind it, and a block behind the first node is left out altogether.
-/

set_option autoImplicit false

namespace Trunix.Libc

open Trunix.Lib

def walkList (m : Mem) : Nat → Nat → Except KfreeStop Unit
  | 0, _ => .error (.halt .loops)
  | fuel + 1, n => if n = 0 then .ok () else walkList m fuel (sleNext m n)

/-- Where `free` looks for the size of the block behind `a`. -/
def freeNode (a : Nat) : Nat := u32 (a + 0xFFFFFFFE)

/-- `tmp` is not set where its size is added. -/
def free (heap : Nat) (m : Mem) (a : Nat) : Except KfreeStop Mem := do
  let p := freeNode a
  let m := store32 m p (load16 m p)
  let n := load32 m heap
  if p < n then
    let m ← if u32 (p + load32 m p) = n then do
        let m ← removeNode m heap n
        let sz ← tmpSize m none
        pure (store32 m p (u32 (load32 m p + sz)))
      else pure m
    return slistInsertHead m heap p
  else
    walkList m walkLimit n
    return m

/-! ## Runs -/

inductive UserCall where
  | malloc (r : Request)
  | free (b : UserBlock)
  | write (addr : Nat) (byte : UInt8)

def UserHeap.step (heap : Nat) (s : UserHeap) : UserCall → Except KfreeStop UserHeap
  | .malloc r => do
      let (_, s) ← (Libc.malloc heap r.answer s r.size).mapError .halt
      return s
  | .free b => do
      let m ← Libc.free heap s.mem (u32 (b.addr + 4))
      return { s with mem := m, blocks := s.blocks.erase b }
  | .write addr byte => .ok { s with mem := fun x => if x = addr then byte else s.mem x }

/-- `mmap` answers with a fresh region, a block is given back once, and only the bytes asked
for are written. -/
def UserHeap.Admits (heap : Nat) (s : UserHeap) : UserCall → Prop
  | .malloc r => load32 s.mem heap = 0 →
      FreshRegion heap s.regions r.answer (pgRoundup (mallocSize r.size))
  | .free b => b ∈ s.blocks
  | .write addr _ => ∃ b ∈ s.blocks, b.addr + 4 ≤ addr ∧ addr < b.addr + 4 + b.n

def UserBlock.Has (b : UserBlock) (x : Nat) : Prop := b.addr ≤ x ∧ x < b.addr + b.sz

def AddressOrdered (F : List Block) : Prop := F.Pairwise fun c d => c.addr + c.sz ≤ d.addr

/-- A block handed out beside the heap list: no node, no free byte and not the list head is part
of it. -/
structure BesideList (heap : Nat) (m : Mem) (F : List Block) (b : UserBlock) : Prop where
  chained : Chained m heap F
  ordered : AddressOrdered F
  apart : ∀ c ∈ F, c.addr + max 8 c.sz ≤ b.addr ∨ b.addr + b.sz ≤ c.addr
  headApart : heap + 4 ≤ b.addr ∨ b.addr + max 8 b.sz ≤ heap
  bound : b.addr + b.sz ≤ 0x100000000

/-- What `free` should do with `b`: it recovers the size, returns without a look at `tmp`, and
adds the bytes of `b` to those of the list. -/
def GivesBack (heap : Nat) (m : Mem) (b : UserBlock) : Prop :=
  load16 m (freeNode (u32 (b.addr + 4))) = b.sz ∧
    ∃ m', free heap m (u32 (b.addr + 4)) = .ok m' ∧
      ∃ F F', BesideList heap m F b ∧ Chained m' heap F' ∧ AddressOrdered F' ∧
        ∀ x, (∃ c ∈ F', c.Has x) ↔ (∃ c ∈ F, c.Has x) ∨ b.Has x

def ReleasesWork (heap : Nat) (s : UserHeap) : UserCall → Prop
  | .free b => GivesBack heap s.mem b
  | _ => True

/-! ## One release -/

section Release

variable {heap : Nat} {m m' : Mem} {b : UserBlock} {F F' : List Block}

/-- Either the new node is the first on the list, or only its size has been stored. -/
theorem free_cases {a : Nat} (done : free heap m a = .ok m') :
    load32 m' heap = freeNode a ∨ m' = store32 m (freeNode a) (load16 m (freeNode a)) := by
  have word : u32 (freeNode a) = freeNode a := u32_of_lt (u32_lt _)
  simp only [free] at done
  split at done
  · left
    split at done
    · -- a neighbour is joined with the size of `tmp`
      obtain ⟨m₁, _, next⟩ := bind_eq_ok.mp done
      obtain ⟨sz, unset, _⟩ := bind_eq_ok.mp next
      cases unset
    · rw [pure_bind] at done
      rw [← Except.ok.inj done, slistInsertHead, load32_store32_same]
      exact word
  · right
    obtain ⟨_, _, last⟩ := bind_eq_ok.mp done
    exact (Except.ok.inj last).symm

theorem freeNode_eq (bound : b.addr + 4 ≤ 0x100000000) :
    freeNode (u32 (b.addr + 4)) = b.addr + 2 := by
  simp only [freeNode, u32]
  omega

/-- The store of the size leaves the nodes where they are, and the sizes of those in front of
the block as they are. -/
theorem Chained.same_nodes {S : Set Nat} (frame : Frame m m' S) : ∀ (F F' : List Block) (cell : Nat),
    Chained m cell F → Chained m' cell F' → (∀ x, cell ≤ x → x < cell + 4 → x ∉ S) →
    (∀ c ∈ F, ∀ x, c.addr + 4 ≤ x → x < c.addr + 8 → x ∉ S) →
    ∀ c' ∈ F', ∃ c ∈ F, c.addr = c'.addr ∧
      ((∀ x, c.addr ≤ x → x < c.addr + 4 → x ∉ S) → c.sz = c'.sz) := by
  intro F
  induction F with
  | nil =>
      intro F' cell none after outside _ c' mem
      cases F' with
      | nil => exact absurd mem List.not_mem_nil
      | cons d rest =>
          have zero : load32 m' cell = load32 m cell := frame.load32_eq outside
          rw [after.1, none] at zero
          exact absurd zero after.2.1
  | cons c F ih =>
      intro F' cell before after outside links c' mem
      cases F' with
      | nil => exact absurd mem List.not_mem_nil
      | cons d rest =>
          obtain ⟨first, _, size, later⟩ := before
          obtain ⟨first', _, size', later'⟩ := after
          have same : load32 m' cell = load32 m cell := frame.load32_eq outside
          rw [first, first'] at same
          rcases List.mem_cons.mp mem with here | inRest
          · rw [here]
            refine ⟨c, List.mem_cons_self, same.symm, fun header => ?_⟩
            have sizes : load32 m' c.addr = load32 m c.addr := frame.load32_eq header
            rw [← size, ← sizes, ← same, size']
          · rw [same] at later'
            obtain ⟨e, memE, rest'⟩ := ih rest (c.addr + 4) later later'
              (fun x low high => links c List.mem_cons_self x low (by omega))
              (fun e memE => links e (List.mem_cons_of_mem c memE)) c' inRest
            exact ⟨e, List.mem_cons_of_mem c memE, rest'⟩

/-- Wherever the block lies, its first byte is in no block of the list that `free` leaves. -/
theorem free_misses (beside : BesideList heap m F b) (whole : 4 ≤ b.sz)
    (done : free heap m (u32 (b.addr + 4)) = .ok m') (after : Chained m' heap F')
    (ordered : AddressOrdered F') : ¬ ∃ c ∈ F', c.Has b.addr := by
  have bound := beside.bound
  have node := freeNode_eq (b := b) (by omega)
  rintro ⟨c', mem', low, high⟩
  rcases free_cases done with first | stored
  · -- the list starts behind the first byte
    rw [node] at first
    cases F' with
    | nil => exact absurd mem' List.not_mem_nil
    | cons d rest =>
        have head : d.addr = b.addr + 2 := after.1.symm.trans first
        rcases List.mem_cons.mp mem' with here | inRest
        · rw [here] at low
          omega
        · have above := (List.pairwise_cons.mp ordered).1 c' inRest
          omega
  · -- the nodes are those of before
    rw [node] at stored
    have frame : Frame m m' (Set.Ico (b.addr + 2) (b.addr + 2 + 4)) := by
      rw [stored]
      exact store32_frame m (b.addr + 2) _
    have headApart := beside.headApart
    obtain ⟨c, mem, same, size⟩ := Chained.same_nodes frame F F' heap beside.chained after
      (fun x lo hi within => by
        have inside := Set.mem_Ico.mp within
        omega)
      (fun c mem x lo hi within => by
        have inside := Set.mem_Ico.mp within
        have apart := beside.apart c mem
        omega) c' mem'
    have apart := beside.apart c mem
    have kept : c.sz = c'.sz := size fun x lo hi within => by
      have inside := Set.mem_Ico.mp within
      omega
    omega

/-- No release of a block that has bytes does what it should. -/
theorem not_givesBack (whole : 4 ≤ b.sz) : ¬ GivesBack heap m b := by
  intro works
  obtain ⟨_, m', done, F, F', beside, after, ordered, bytes⟩ := works
  have own : b.Has b.addr := ⟨Nat.le_refl _, by omega⟩
  exact free_misses beside whole done after ordered ((bytes b.addr).mpr (.inr own))

/-- The size that is read is the upper half of the header. -/
theorem free_reads_upper (bound : b.addr + 4 ≤ 0x100000000) (header : load32 m b.addr = b.sz) :
    load16 m (freeNode (u32 (b.addr + 4))) = b.sz / 0x10000 := by
  have second : m (b.addr + 1 + 1) = m (b.addr + 2) := rfl
  have third : m (b.addr + 1 + 1 + 1) = m (b.addr + 2 + 1) := rfl
  rw [freeNode_eq bound, ← header]
  simp only [load16, load32, loadLE, second, third]
  have low := (m b.addr).toNat_lt
  have next := (m (b.addr + 1)).toNat_lt
  omega

end Release

/-! ## The blocks of a run -/

def UserHeap.Sized (s : UserHeap) : Prop := ∀ b ∈ s.blocks, b.sz = mallocSize b.n

theorem mallocSize_mod (n : Nat) : mallocSize n % 4 = 0 := by
  simp only [mallocSize, roundup]
  by_cases whole : u32 (n + 4) % 4 = 0
  · rw [if_pos whole]
    exact whole
  · rw [if_neg whole]
    simp only [u32]
    omega

theorem malloc_blocks {heap answer n p : Nat} {s s' : UserHeap}
    (done : malloc heap answer s n = .ok (p, s')) :
    s'.blocks = s.blocks ∨ ∃ a, s'.blocks = ⟨a, mallocSize n, n⟩ :: s.blocks := by
  simp only [malloc] at done
  split at done
  · have out := (Prod.mk.inj (Except.ok.inj done)).2
    right
    rw [← out]
    exact ⟨answer, rfl⟩
  · obtain ⟨q, _, taken⟩ := bind_eq_ok.mp done
    split at taken
    · have out := (Prod.mk.inj (Except.ok.inj taken)).2
      left
      rw [← out]
    · obtain ⟨m', _, last⟩ := bind_eq_ok.mp taken
      have out := (Prod.mk.inj (Except.ok.inj last)).2
      right
      rw [← out]
      exact ⟨q, rfl⟩

theorem UserHeap.Sized.step {heap : Nat} {s s' : UserHeap} {call : UserCall} (sized : s.Sized)
    (done : s.step heap call = .ok s') : s'.Sized := by
  cases call with
  | malloc r =>
      obtain ⟨⟨p, t⟩, called, last⟩ := bind_eq_ok.mp done
      have same : t = s' := Except.ok.inj last
      have call : Libc.malloc heap r.answer s r.size = .ok (p, t) := mapError_eq_ok called
      rw [same] at call
      intro b mem
      rcases malloc_blocks call with kept | ⟨a, new⟩
      · rw [kept] at mem
        exact sized b mem
      · rw [new] at mem
        rcases List.mem_cons.mp mem with here | older
        · rw [here]
        · exact sized b older
  | free b =>
      obtain ⟨m', _, last⟩ := bind_eq_ok.mp done
      intro c mem
      rw [← Except.ok.inj last] at mem
      exact sized c (List.mem_of_mem_erase mem)
  | write addr byte =>
      intro b mem
      rw [← Except.ok.inj done] at mem
      exact sized b mem

def ReleasesBytes : UserCall → Prop
  | .free b => mallocSize b.n ≠ 0
  | _ => False

theorem releasesWork_along {heap : Nat} : ∀ (calls : List UserCall) (s : UserHeap), s.Sized →
    Along (UserHeap.step heap) (UserHeap.Admits heap) s calls →
    Along (UserHeap.step heap) (ReleasesWork heap) s calls →
    Along (UserHeap.step heap) (fun _ call => ¬ ReleasesBytes call) s calls := by
  intro calls
  induction calls with
  | nil =>
      intro s _ _ _
      exact trivial
  | cons call rest ih =>
      intro s sized admitted works
      refine ⟨?_, fun t done => ih t (sized.step done) (admitted.2 t done) (works.2 t done)⟩
      cases call with
      | malloc r => exact id
      | free b =>
          intro bytes
          have size : b.sz = mallocSize b.n := sized b admitted.1
          have whole := mallocSize_mod b.n
          have nonzero : mallocSize b.n ≠ 0 := bytes
          exact not_givesBack (by omega) works.1
      | write addr byte => exact id

theorem releasesWork_of_none {heap : Nat} : ∀ (calls : List UserCall) (s : UserHeap),
    (∀ b, .free b ∉ calls) → Along (UserHeap.step heap) (ReleasesWork heap) s calls := by
  intro calls
  induction calls with
  | nil =>
      intro s _
      exact trivial
  | cons call rest ih =>
      intro s none
      refine ⟨?_, fun t _ => ih t fun b mem => none b (List.mem_cons_of_mem _ mem)⟩
      cases call with
      | malloc r => trivial
      | free b => exact absurd List.mem_cons_self (none b)
      | write addr byte => trivial

/-- `free` never does what it should for a block that has bytes: in every sequence of calls in
which all releases work, no such block is released, and without a release there is nothing
to do. -/
theorem free_never_gives_back {heap : Nat} {m : Mem} {calls : List UserCall}
    (admitted : Along (UserHeap.step heap) (UserHeap.Admits heap) (.start m) calls) :
    (Along (UserHeap.step heap) (ReleasesWork heap) (.start m) calls →
      Along (UserHeap.step heap) (fun _ call => ¬ ReleasesBytes call) (.start m) calls) ∧
    ((∀ b, .free b ∉ calls) → Along (UserHeap.step heap) (ReleasesWork heap) (.start m) calls) :=
  ⟨releasesWork_along calls (.start m) (fun _ none => absurd none List.not_mem_nil) admitted,
    releasesWork_of_none calls (.start m)⟩

def oneRelease : List UserCall := [.malloc ⟨16, 0x10000⟩, .free ⟨0x10000, 20, 16⟩]

theorem oneRelease_first :
    ∃ s, UserHeap.step 0x5000 (.start fun _ => 0) (.malloc ⟨16, 0x10000⟩) = .ok s ∧
      s.blocks = [⟨0x10000, 20, 16⟩] := by
  have run : ((UserHeap.step 0x5000 (.start fun _ => 0) (.malloc ⟨16, 0x10000⟩)).toOption.map
      UserHeap.blocks) = some [⟨0x10000, 20, 16⟩] := by decide +kernel
  obtain ⟨s, done, blocks⟩ := Option.map_eq_some_iff.mp run
  exact ⟨s, ok_of_toOption done, blocks⟩

theorem oneRelease_admitted :
    Along (UserHeap.step 0x5000) (UserHeap.Admits 0x5000) (.start fun _ => 0) oneRelease := by
  have region : FreshRegion 0x5000 [] 0x10000 (pgRoundup (mallocSize 16)) :=
    ⟨by decide, by decide, fun b none => absurd none List.not_mem_nil, by decide⟩
  refine ⟨fun _ => region, fun t done => ⟨?_, fun _ _ => trivial⟩⟩
  obtain ⟨s, first, blocks⟩ := oneRelease_first
  have same : t = s := Except.ok.inj (done.symm.trans first)
  rw [same]
  show _ ∈ s.blocks
  rw [blocks]
  exact List.mem_singleton.mpr rfl

theorem free_never_gives_back_one :
    ¬ Along (UserHeap.step 0x5000) (ReleasesWork 0x5000) (.start fun _ => 0) oneRelease := by
  intro works
  obtain ⟨s, first, _⟩ := oneRelease_first
  have none := (free_never_gives_back oneRelease_admitted).1 works
  exact (none.2 s first).1 (by decide : mallocSize 16 ≠ 0)

/-- The block of 16 bytes is not given back. -/
theorem oneRelease_lost :
    ¬ ∀ (heap : Nat) (m : Mem) (calls : List UserCall),
      Along (UserHeap.step heap) (UserHeap.Admits heap) (.start m) calls →
      Along (UserHeap.step heap) (ReleasesWork heap) (.start m) calls := by
  intro all
  have works := all 0x5000 (fun _ => 0) oneRelease oneRelease_admitted
  obtain ⟨s, first, _⟩ := oneRelease_first
  have gives : GivesBack 0x5000 s.mem ⟨0x10000, 20, 16⟩ := (works.2 s first).1
  exact not_givesBack (by decide) gives

end Trunix.Libc
