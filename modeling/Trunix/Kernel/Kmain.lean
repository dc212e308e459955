import Trunix.Boot.Init
import Trunix.Mem.InitList
import Trunix.Kernel.RamBoot
import Trunix.Kernel.Rootfs

/-!
# `kmain`

The boot in the order of `kernel/main.c`: `init_mem` on the memory of the boot loader,
`load_initrd` on the ramdisk, `init_pmm`, `initsys`, `init_sched`.  What the other modules
assume at the start of a run holds of what `kmain` leaves, as long as the map of the boot
loader keeps off the ramdisk and the variables of the kernel; and the ramdisk stays as it was.
-/

set_option autoImplicit false

namespace Trunix

open Trunix.Lib

/-! ## What `init_mem` writes -/

theorem initEntry_frame {freelist : Nat} {m m' : Mem} {e : MultibootMmapEntry} {L : List Block}
    (available : e.type = multibootMemoryAvailable) (linked : Linked m freelist L)
    (headed : Headed freelist L) (fits : HeadFits e.block freelist L)
    (done : initEntry freelist m e = .ok m') : Frame m m' (insertBytes e.block.addr freelist L) := by
  let m₁ := store32 m e.block.addr e.block.sz
  have size₁ : load32 m₁ e.block.addr = e.block.sz := by
    rw [load32_store32_same]
    exact u32_of_lt (u32_lt _)
  have header : Frame m m₁ (insertBytes e.block.addr freelist L) := by
    refine (store32_frame m _ _).mono fun x inside => Or.inr ?_
    simp only [Set.mem_Ico] at inside ⊢
    omega
  have linked₁ : Linked m₁ freelist L := by
    apply linked.frame (store32_frame m _ _)
    intro x mem inside
    have cellE := fits.cellApart
    simp only [Set.mem_Ico] at inside
    rcases mem with ⟨lo, hi⟩ | ⟨b, memB, lo, hi⟩
    · omega
    · have apart := fits.apart b memB
      simp only [Block.HeadsApart] at apart
      omega
  have unfolded : initEntry freelist m e =
      if load32 m₁ freelist = 0 then pure (listInsertHead m₁ freelist e.block.addr)
      else placeLoop m₁ e.block.addr walkLimit (load32 m₁ freelist) >>= fun n =>
        pure (listInsertAfter m₁ n e.block.addr) := by
    rw [initEntry, if_neg (fun ne => ne available)]
    rfl
  rw [unfolded] at done
  refine header.trans ?_
  cases L with
  | nil =>
      have first : load32 m₁ freelist = 0 := linked₁
      rw [if_pos first] at done
      have written : m' = store32 (store32 (store32 m₁ (e.block.addr + 4) 0) freelist e.block.addr)
          (e.block.addr + 8) freelist := by
        rw [← Except.ok.inj done]
        simp [listInsertHead, first, leNext]
      rw [written]
      refine ((store32_frame _ _ _).mono ?_).trans
        (((store32_frame _ _ _).mono ?_).trans ((store32_frame _ _ _).mono ?_))
      all_goals
        intro x inside
        simp only [insertBytes, linkBytes, Set.mem_union, Set.mem_ofPred_eq, Set.mem_Ico] at inside ⊢
        omega
  | cons b rest =>
      have first : load32 m₁ freelist ≠ 0 := by
        rw [linked₁.1]
        exact linked₁.2.1
      obtain ⟨p, found, _, frame⟩ := placeLoop_linked size₁ (b :: rest) freelist walkLimit (by simp) linked₁
        headed fits headed.length_lt
      rw [if_neg first, found, ok_bind] at done
      rw [← Except.ok.inj done]
      exact frame

theorem initLoop_frame {freelist : Nat} : ∀ (entries : List MultibootMmapEntry) (m : Mem) (L : List Block)
    {m' : Mem}, Linked m freelist L → Headed freelist (L ++ bootBlocks entries) →
      initLoop freelist m entries = .ok m' → Frame m m' (linkBytes freelist (L ++ bootBlocks entries)) := by
  intro entries
  induction entries with
  | nil =>
      intro m L m' _ _ done
      cases done
      exact .refl _ _
  | cons e rest ih =>
      intro m L m' linked headed done
      rw [initLoop] at done
      obtain ⟨m₁, first, later⟩ := bind_eq_ok.mp done
      by_cases available : e.type = multibootMemoryAvailable
      · have blocks : bootBlocks (e :: rest) = e.block :: bootBlocks rest := by
          simp [bootBlocks, available]
        rw [blocks] at headed ⊢
        have front : (L ++ e.block :: bootBlocks rest).Perm (e.block :: (L ++ bootBlocks rest)) :=
          List.perm_middle
        have headedFront := headed.perm front
        have apart := (List.pairwise_cons.mp headedFront.apart).1
        have fits : HeadFits e.block freelist L :=
          ⟨e.block_nonnull, headedFront.bound _ (by simp), fun b mem => apart b (by simp [mem]),
            headedFront.cellApart _ (by simp)⟩
        have headedL := headed.sublist (List.sublist_append_left L (e.block :: bootBlocks rest))
        obtain ⟨m₁', done₁, linked₁⟩ := initEntry_linked available linked headedL fits
        cases Except.ok.inj (done₁.symm.trans first)
        have perm : (L ++ e.block :: bootBlocks rest).Perm (putAfter e.block L ++ bootBlocks rest) :=
          front.trans ((putAfter_perm e.block L).symm.append_right _)
        have written := initEntry_frame available linked headedL fits first
        have frame := ih m₁ (putAfter e.block L) linked₁ (headed.perm perm) later
        refine (written.mono fun x inside => ?_).trans (frame.mono fun x inside => ?_)
        · simp only [insertBytes, linkBytes, Set.mem_union, Set.mem_ofPred_eq, Set.mem_Ico] at inside ⊢
          rcases inside with (cell | ⟨b, mem, within⟩) | within
          · exact Or.inl cell
          · exact Or.inr ⟨b, List.mem_append_left _ mem, within⟩
          · exact Or.inr ⟨e.block, by simp, within⟩
        · simp only [linkBytes, Set.mem_ofPred_eq] at inside ⊢
          refine inside.imp_right fun there => ?_
          obtain ⟨b, mem, within⟩ := there
          exact ⟨b, perm.symm.mem_iff.mp mem, within⟩
      · have blocks : bootBlocks (e :: rest) = bootBlocks rest := by
          simp [bootBlocks, available]
        rw [blocks] at headed ⊢
        have skipped : initEntry freelist m e = .ok m := by
          rw [initEntry, if_pos available]
          rfl
        cases Except.ok.inj (skipped.symm.trans first)
        exact ih m L linked headed later

theorem initMem_frame {k : Kinfo} {freelist heap : Nat} (placed : HeadsPlaced freelist heap)
    (ok : k.Bootable freelist heap) {m m' : Mem} {sb : Nat}
    (boot : initMem freelist heap m k = .ok (sb, m')) {x : Nat} (outside : Outside (bootBlocks k.entries) x)
    (noList : ¬ (freelist ≤ x ∧ x < freelist + 4)) (noHeap : ¬ (heap ≤ x ∧ x < heap + 4)) : m' x = m x := by
  have headApart := ok.head_apart freelist (by simp)
  have empty : Linked (store32 m freelist 0) freelist [] := load32_store32_same _ _ _
  have tidy := ok.tidy
  obtain ⟨m₁, L, done₁, linked₁, perm⟩ := initLoop_linked placed.freelistBound headApart k.entries _ empty
    tidy
  have tidyL : Tidy 0x1000 (bootBlocks k.entries) (L ++ []) := by
    rw [List.append_nil]
    exact tidy.subperm perm.subperm
  have list := (freeListAt_of_tidy linked₁ tidyL placed.freelistBound headApart).memList
  have headed : Headed freelist ([] ++ bootBlocks k.entries) := list.headed.perm perm
  have whole : ∀ b ∈ bootBlocks k.entries, 0x1000 ≤ b.sz := fun b mem =>
    Nat.le_of_dvd (tidy.grained b mem).nonempty (tidy.grained b mem).whole
  have out : ∀ b ∈ bootBlocks k.entries, ¬ (b.addr ≤ x ∧ x < b.addr + b.sz) := outside
  have noLink : ∀ {L' : List Block}, L'.Perm (bootBlocks k.entries) → x ∉ linkBytes freelist L' := by
    rintro L' same (cell | ⟨b, mem, lo, hi⟩)
    · exact noList cell
    · have mem' := same.mem_iff.mp mem
      have size := whole b mem'
      exact out b mem' ⟨lo, by omega⟩
  have cleared : store32 m freelist 0 x = m x := by
    apply store32_frame m freelist 0
    simp only [Set.mem_Ico]
    exact noList
  have looped := initLoop_frame k.entries _ [] empty headed done₁ x (noLink (.refl _))
  rw [initMem] at boot
  simp only [done₁, ok_bind] at boot
  obtain ⟨⟨a, m₂⟩, taken, boot⟩ := bind_eq_ok.mp boot
  by_cases null : a = 0
  · rw [if_pos null] at boot
    cases boot
  rw [if_neg null] at boot
  cases boot
  cases fit : takeFit 0x10000 L with
  | none =>
      rw [allocPages_none list fit] at taken
      cases taken
      exact absurd rfl null
  | some found =>
      obtain ⟨b, rest⟩ := found
      obtain ⟨m₂', done₂, _, frame₂⟩ := allocPages_linked list fit
      cases Except.ok.inj (done₂.symm.trans taken)
      have memB := perm.mem_iff.mp ((takeFit_perm fit).mem_iff.mpr List.mem_cons_self)
      have size := whole b memB
      have outB := out b memB
      have allocated : m₂ x = m₁ x := by
        refine frame₂ x ?_
        rintro (link | inside)
        · exact noLink perm link
        · exact outB (Set.mem_Ico.mp inside)
      have headers : initHeap heap m₂ b.addr x = m₂ x := by
        apply initHeap_frame m₂ b.addr
        simp only [Set.mem_union, Set.mem_Ico]
        omega
      rw [headers, allocated, looped, cleared]

/-! ## The ramdisk in memory -/

theorem isHeader_congr {m m' : Mem} {p : Nat} (same : ∀ i < 512, m' (p + i) = m (p + i)) :
    isHeader m' p ↔ isHeader m p := by
  have bytes : ∀ i < ustar.length, m' (p + 257 + i) = m (p + 257 + i) := by
    intro i lt
    have few : i < 8 := lt
    rw [Nat.add_assoc]
    exact same _ (by omega)
  rw [isHeader_iff, isHeader_iff]
  constructor <;> intro starts i lt
  · rw [← starts i lt]
    exact (bytes i lt).symm
  · rw [← starts i lt]
    exact bytes i lt

theorem StartsWith.congr {s s' : Nat → UInt8} {l : List UInt8} (starts : StartsWith s l)
    (same : ∀ i < l.length, s' i = s i) : StartsWith s' l :=
  fun i lt => (same i lt).trans (starts i lt)

theorem MemberAt.congr {m m' : Mem} {a : Nat} {t : TarMember} (h : MemberAt m a t)
    (same : ∀ i < 512 + t.size, m' (a + i) = m (a + i)) : MemberAt m' a t := by
  have at' : ∀ d i, d + i < 512 + t.size → m' (a + d + i) = m (a + d + i) := by
    intro d i lt
    rw [Nat.add_assoc]
    exact same _ lt
  obtain ⟨digits, eleven, octal, starts, value⟩ := h.digits
  have short := h.short
  refine ⟨h.magic.congr fun i lt => ?_, ?_, ⟨fun i lt => ?_, ?_⟩, short,
    ⟨digits, eleven, octal, starts.congr fun i lt => ?_, value⟩, h.small,
    h.contents.congr fun i lt => at' 512 i (by simp only [TarMember.size]; omega)⟩
  · have few : i < 8 := lt
    exact at' 257 i (by omega)
  · rw [← h.dot]
    exact at' 0 0 (by omega)
  · rw [← h.path.1 i lt]
    exact at' 1 i (by omega)
  · rw [← h.path.2]
    exact at' 1 _ (by omega)
  · exact at' 124 i (by omega)

theorem dataAddrs_bound : ∀ (sizes : List Nat) (a : Nat), ∀ p ∈ dataAddrs a sizes,
    a ≤ p ∧ p + 512 ≤ a + 512 * memberBlocks sizes := by
  intro sizes
  induction sizes with
  | nil => intro a p mem; exact absurd mem List.not_mem_nil
  | cons size rest ih =>
      intro a p mem
      have blocks : memberBlocks (size :: rest) = 1 + dataBlocks size + memberBlocks rest := by
        simp only [memberBlocks, List.map_cons, List.sum_cons]
      rw [blocks]
      rcases List.mem_append.mp mem with own | later
      · obtain ⟨j, inRange, rfl⟩ := List.mem_map.mp own
        have lt := List.mem_range.mp inRange
        omega
      · have := ih _ p later
        omega

theorem headerAddrs_le : ∀ (sizes : List Nat) (a : Nat), ∀ p ∈ headerAddrs a sizes, a ≤ p := by
  intro sizes
  induction sizes with
  | nil => intro a p mem; exact absurd mem List.not_mem_nil
  | cons size rest ih =>
      intro a p mem
      rcases List.mem_cons.mp mem with rfl | later
      · exact Nat.le_refl _
      · have := ih _ p later
        omega

theorem TarArchive.congr {m m' : Mem} {tar len : Nat} {members : List TarMember}
    (h : TarArchive m tar len members) (same : ∀ x, tar ≤ x → x < tar + len → m' x = m x) :
    TarArchive m' tar len members := by
  obtain ⟨n, whole⟩ := h.length
  refine ⟨h.few, h.length, fun j lt lt' => ?_, fun p mem header => ?_, fun j behind inside header => ?_⟩
  · have lt'' : j < (members.map TarMember.size).length := by
      rw [List.length_map]
      exact lt
    have bound := headerAddrs_bound (members.map TarMember.size) tar j lt'' lt'
    have low := headerAddrs_le (members.map TarMember.size) tar _ (List.get_mem _ ⟨j, lt'⟩)
    have size : (members.map TarMember.size).get ⟨j, lt''⟩ = (members.get ⟨j, lt⟩).size := by simp
    rw [size, dataBlocks] at bound
    exact (h.placed j lt lt').congr fun i small => same _ (by omega) (by omega)
  · have bound := dataAddrs_bound _ tar p mem
    exact h.data p mem ((isHeader_congr fun i lt => same _ (by omega) (by omega)).mp header)
  · exact h.trailer j behind inside ((isHeader_congr fun i lt => same _ (by omega) (by omega)).mp header)

/-! ## `kmain` -/

def fieldString : Nat → (Nat → UInt8) → List UInt8
  | 0, _ => []
  | n + 1, s => if s 0 = 0 then [] else s 0 :: fieldString n fun i => s (i + 1)

theorem fieldString_eq : ∀ (c : List UInt8) (s : Nat → UInt8) (n : Nat), 0 ∉ c → c.length ≤ n →
    HoldsString s c → fieldString n s = c := by
  intro c
  induction c with
  | nil =>
      intro s n _ _ holds
      cases n with
      | zero => rfl
      | succ n =>
          rw [fieldString]
          exact if_pos holds.2
  | cons b rest ih =>
      intro s n plain fits holds
      cases n with
      | zero => exact absurd fits (by simp)
      | succ n =>
          have first : s 0 = b := holds.1 0 (Nat.succ_pos _)
          have nonzero : ¬ b = 0 := fun zero => plain (zero ▸ List.mem_cons_self)
          have later := ih (fun i => s (i + 1)) n (fun mem => plain (List.mem_cons_of_mem _ mem))
            (Nat.le_of_succ_le_succ fits)
            ⟨fun i lt => holds.1 (i + 1) (Nat.succ_lt_succ lt), holds.2⟩
          rw [fieldString, first, if_neg nonzero, later]

/-- The ramdisk as `loadelf` and `sys_open` find it in the tables. -/
def Ramdisk.view (bytes : Mem) (k : Ramdisk) : Initrd :=
  ⟨bytes, (List.range (k.inoN - rootIno)).map fun j => fieldString dirsiz (k.dirTbl (rootIno + j)).name,
    fun i => (k.inoTbl i).toInode⟩

theorem TarArchive.view_eq {bytes : Mem} {tar len : Nat} {members : List TarMember}
    (archive : TarArchive bytes tar len members) (inodes : Nat → DiskInode) (dirents : Nat → Dirent) :
    (loadInitrd bytes tar len inodes dirents).view bytes =
      (loadInitrd bytes tar len inodes dirents).initrd bytes members := by
  have count : (loadInitrd bytes tar len inodes dirents).inoN - rootIno = members.length := by
    rw [archive.count, Nat.add_sub_cancel_left]
  rw [Ramdisk.view, Ramdisk.initrd, count]
  congr 1
  refine List.ext_getElem (by simp) fun j lt lt' => ?_
  have inside : j < members.length := by simpa using lt'
  have short := (archive.placed j inside (by rw [headerAddrs_length, List.length_map]; exact inside)).short
  have entry := (@TarArchive.entry _ _ _ _ inodes dirents archive _ inside).2.1
  have wide : dirsiz = 128 := rfl
  have name := fieldString_eq _ _ dirsiz (members.get ⟨j, inside⟩).path.plain (by omega) entry
  simpa using name

/-- `init_pmm`: the lists of the table are empty, the sizes are what the pages held. -/
def initPmm (k : Kernel) : Except Halt Kernel :=
  let (memtab, s) := k.store.allocPages (8 * maxprocs)
  if memtab = 0 then .error .assertion
  else .ok { k with
    store := s
    memtab := fun i => if 1 ≤ i ∧ i ≤ maxprocs then { k.memtab i with regions := [] } else k.memtab i }

/-- `kmain` from `init_mem` on, with the variables of `proc.c` in `k`; `inodes` and `dirents` are
what the pages for the tables held.  A table that could not be allocated stops it. -/
def kmain (freelist heap cr3 framebuffer entry : Nat) (info : BootInfo) (inodes : Nat → DiskInode)
    (dirents : Nat → Dirent) (m : Mem) (k : Kernel) : Except Halt (Env × Kernel) := do
  let (sb, m) ← initMem freelist heap m info.toKinfo
  let free ← freeBlocks freelist m
  let (ino, s) := (Store.boot m free sb).allocPages tableSize
  let (dir, s) := s.allocPages tableSize
  if ino = 0 ∨ dir = 0 then .error .fault
  else
    let len := u32 (info.initrdEnd + 0x100000000 - info.initrdStart)
    let disk := loadInitrd m (p2v info.initrdStart) len inodes dirents
    let env : Env := ⟨disk.view m, p2v cr3, framebuffer⟩
    let k ← initPmm { k with store := s }
    let k ← initsys env k
    let k ← initSched k entry
    return (env, k)

structure Kernel.Linked (k : Kernel) : Prop where
  first : k.tqhFirst = 0
  last : k.tqhLast = .head
  pid : k.pid = 1
  created : k.created = []

/-- The bytes of the ramdisk are neither in the map nor in the two list heads. -/
def BootInfo.Keeps (info : BootInfo) (freelist heap len : Nat) : Prop :=
  ∀ x, p2v info.initrdStart ≤ x → x < p2v info.initrdStart + len →
    Outside (bootBlocks info.entries) x ∧ ¬ (freelist ≤ x ∧ x < freelist + 4) ∧
      ¬ (heap ≤ x ∧ x < heap + 4)

section Kmain

variable {freelist heap cr3 framebuffer entry : Nat} {info : BootInfo} {inodes : Nat → DiskInode}
  {dirents : Nat → Dirent} {m : Mem} {k k₂ : Kernel} {env : Env}

theorem initPmm_spec {init : List Block} {k k' : Kernel} (sound : k.store.Sound init)
    (done : initPmm k = .ok k') : k'.store.Sound init ∧ k'.store.mem = k.store.mem ∧
      (∀ i, 1 ≤ i → i ≤ maxprocs → (k'.memtab i).regions = []) ∧
      k' = { k with store := k'.store, memtab := k'.memtab } := by
  rw [initPmm] at done
  simp only at done
  split at done
  · cases done
  · cases done
    refine ⟨(Store.allocPages_grows sound _).sound, (k.store.allocPages_mem _).1, fun i lo hi => ?_, rfl⟩
    simp only [if_pos (And.intro lo hi)]

/-- The stages of a `kmain` that comes to the first process. -/
theorem kmain_stages (placed : HeadsPlaced freelist heap) (ok : info.toKinfo.Bootable freelist heap)
    (linked : k.Linked)
    (done : kmain freelist heap cr3 framebuffer entry info inodes dirents m k = .ok (env, k₂)) :
    ∃ sb m' free k₀ k₁, initMem freelist heap m info.toKinfo = .ok (sb, m') ∧
      (∀ b ∈ free, ∃ c ∈ bootBlocks info.entries, b.Inside c) ∧ AtBoot free k₀ ∧ k₀.store.mem = m' ∧
      (∀ i, 1 ≤ i → i ≤ maxprocs → (k₀.memtab i).regions = []) ∧
      env = ⟨(loadInitrd m' (p2v info.initrdStart)
        (u32 (info.initrdEnd + 0x100000000 - info.initrdStart)) inodes dirents).view m', p2v cr3,
          framebuffer⟩ ∧
      initsys env k₀ = .ok k₁ ∧ initSched k₁ entry = .ok k₂ := by
  rw [kmain] at done
  obtain ⟨⟨sb, m'⟩, boot, afterBoot⟩ := bind_eq_ok.mp done
  obtain ⟨free, list, afterList⟩ := bind_eq_ok.mp afterBoot
  obtain ⟨free', list', inside, _, holds⟩ := initMem_holds placed ok boot
  obtain rfl : free = free' := Except.ok.inj (list.symm.trans list')
  have sound : (Store.boot m' free sb).Sound free := holds.sound
  have first := (Store.boot m' free sb).allocPages_mem tableSize
  have grown := Store.allocPages_grows sound tableSize
  simp only at afterList
  generalize (Store.boot m' free sb).allocPages tableSize = taken at afterList first grown
  obtain ⟨ino, s⟩ := taken
  have second := s.allocPages_mem tableSize
  have grown₂ := Store.allocPages_grows grown.sound tableSize
  simp only at afterList
  generalize s.allocPages tableSize = taken₂ at afterList second grown₂
  obtain ⟨dir, s₂⟩ := taken₂
  simp only at afterList first second grown grown₂
  split at afterList
  · cases afterList
  · obtain ⟨k₀, table, afterTable⟩ := bind_eq_ok.mp afterList
    obtain ⟨k₁, booted, afterSys⟩ := bind_eq_ok.mp afterTable
    obtain ⟨k₂', sched, result⟩ := bind_eq_ok.mp afterSys
    cases result
    obtain ⟨sound₀, bytes, empty, same⟩ := @initPmm_spec free _ _ grown₂.sound table
    refine ⟨sb, m', free, k₀, k₁, boot, inside, ?_, ?_, empty, rfl, booted, sched⟩
    · exact ⟨sound₀, by rw [same]; exact linked.first, by rw [same]; exact linked.last,
        by rw [same]; exact linked.pid, by rw [same]; exact linked.created⟩
    · rw [bytes]
      exact second.1.trans first.1

end Kmain

/-- The boot of the processes writes to free memory only. -/
theorem Started.outside {init : List Block} {env : Env} {k₀ k : Kernel} (h : Started init env k₀ k)
    (tables : TablesAtBoot env k₀) {x : Nat} (out : Outside init x) : k.store.mem x = k₀.store.mem x := by
  obtain ⟨kstack, idle, bin, cr3, start, base, sz, regions, s₁, s₂, s₃, took, file, image, _, grown, bytes,
    last, _⟩ := h.stages
  obtain ⟨blk, s, built, _⟩ := loadImage_built took.sound (tables.ok bin file) image
  have grown₂ := (loadImage_grows took.sound env.kpagedir env.initrd.bytes bin).of_ok image
  have page : ∀ {a : Nat} {s s' : Store}, s.Took init a s' → s'.mem x = s.mem x := by
    intro a s s' took
    refine took.frame x fun inside => ?_
    have own : (⟨a, 0x1000⟩ : Block) ∈ s'.given := took.given ▸ List.mem_cons_self
    exact took.sound.outside out _ own (by simpa [page] using inside)
  have loaded : s₂.mem x = s₁.mem x := by
    refine built.newBytes x fun there => ?_
    obtain ⟨b, given, _, inside⟩ := there
    exact grown₂.sound.outside out b given inside
  rw [page last, bytes, loaded, page took]

/-- From `kmain` to any state that the processes reach: when the map keeps off the ramdisk and
the list heads, and `/sbin/init` in the archive is a program, the processes live on the programs
in the archive, and the archive stays in memory as the boot loader left it. -/
theorem kmain_runs {freelist heap cr3 framebuffer entry len : Nat} {info : BootInfo}
    {inodes : Nat → DiskInode} {dirents : Nat → Dirent} {m : Mem} {k k₂ : Kernel} {env : Env}
    {members : List TarMember} {m₁ : TarMember} {t : Journal} (placed : HeadsPlaced freelist heap)
    (ok : info.toKinfo.Bootable freelist heap) (linked : k.Linked)
    (size : u32 (info.initrdEnd + 0x100000000 - info.initrdStart) = len)
    (archive : TarArchive m (p2v info.initrdStart) len members)
    (fits : p2v info.initrdStart + len ≤ 0x100000000) (keeps : info.Keeps freelist heap len)
    (first : (members.find? fun m => m.path = initPath) = some m₁) (exe : Executable m₁.contents)
    (done : kmain freelist heap cr3 framebuffer entry info inodes dirents m k = .ok (env, k₂))
    (run : Runs (Journal.step env) (fun t c => t.kernel.Proper env members c ∧ t.kernel.Steady env c)
      (.start env k₂) t) :
    t.OfArchive env members k₂.curthread m₁ ∧
      ∀ x, p2v info.initrdStart ≤ x → x < p2v info.initrdStart + len → t.kernel.store.mem x = m x := by
  obtain ⟨sb, m', free, k₀, k₁, boot, inside, atBoot, bytes, fresh, rfl, booted, sched⟩ :=
    kmain_stages placed ok linked done
  rw [size] at booted run ⊢
  have ramdisk : ∀ x, p2v info.initrdStart ≤ x → x < p2v info.initrdStart + len → m' x = m x := by
    intro x lo hi
    obtain ⟨out, noList, noHeap⟩ := keeps x lo hi
    exact initMem_frame placed ok boot out noList noHeap
  have there := archive.congr ramdisk
  have rootfs : Rootfs ⟨(loadInitrd m' (p2v info.initrdStart) len inodes dirents).view m', p2v cr3,
      framebuffer⟩ (p2v info.initrdStart) len members :=
    ⟨there, fits, inodes, dirents, there.view_eq inodes dirents⟩
  have faithful := (rootfs.reached atBoot fresh first exe booted sched run).faithful
  have proper : Runs (Journal.step _) (fun t c => t.kernel.Proper _ members c) _ t :=
    run.mono fun _ _ ok => ok.1
  refine ⟨rootfs.ofArchive faithful first exe proper, fun x lo hi => ?_⟩
  -- the map has no byte of the ramdisk, so the allocators hand out none
  have outside : Outside free x := by
    intro b mem within
    obtain ⟨c, memC, insideC⟩ := inside b mem
    simp only [Block.Inside] at insideC
    exact (keeps x lo hi).1 c memC (by omega)
  obtain ⟨segs, snug⟩ := rootfs.init_ok first exe
  have started := boot_started atBoot booted sched
  have begun := started.faithful ⟨fresh, segs⟩ snug sched
  have kept := begun.own_kept (Or.inl outside) (proper.mono fun t c ok => rootfs.orderly ok)
  rw [kept, ← ramdisk x lo hi, ← bytes]
  exact started.outside ⟨fresh, segs⟩ outside

/-! ## A boot -/

def countInfo : BootInfo := ⟨mapOf [(0x1000, 0x9E000), (0x400000, 0x100000)], 0x300000, 0x300C00⟩

theorem countInfo_entries : countInfo.entries =
    [⟨0x1000, 0x9E000, multibootMemoryAvailable⟩, ⟨0x400000, 0x100000, multibootMemoryAvailable⟩] := rfl

theorem countInfo_bootable : countInfo.toKinfo.Bootable 0x80200000 0x80200010 := by
  refine ⟨by decide, by decide, ?_, by decide⟩
  rw [countInfo_entries, List.filter_eq_self.mpr (by decide), List.pairwise_pair, Set.disjoint_left]
  intro x first second
  rw [MultibootMmapEntry.mem_bytes] at first second
  simp only at first second
  omega

theorem countInfo_keeps : countInfo.Keeps 0x80200000 0x80200010 3072 := by
  have place : p2v countInfo.initrdStart = 0x80300000 := by decide
  intro x lo hi
  rw [place] at lo hi
  refine ⟨fun b mem within => ?_, by omega, by omega⟩
  rw [countInfo_entries] at mem
  have two : ∀ b ∈ bootBlocks [⟨0x1000, 0x9E000, multibootMemoryAvailable⟩,
      ⟨0x400000, 0x100000, multibootMemoryAvailable⟩],
      b.addr + b.sz ≤ 0x80300000 ∨ 0x80300C00 ≤ b.addr := by decide
  have side := two b mem
  omega

/-- The first process executes its own program again, and finds the last of its bytes. -/
theorem kmain_runs_init : ∃ env k₂ t,
    kmain 0x80200000 0x80200010 0x101000 0xE0000000 0 countInfo zeroInodes zeroDirents countTar
      smallKernel = .ok (env, k₂) ∧
    (Journal.start env k₂).step env (.call (.other (.execve initPath.bytes))) = .ok t ∧
    t.kernel.load 0x400007 = some 8 ∧
    t.OfArchive env countMembers k₂.curthread ⟨initPath, countFile⟩ ∧
    ∀ x, 0x80300000 ≤ x → x < 0x80300C00 → t.kernel.store.mem x = countTar x := by
  have result : (kmain 0x80200000 0x80200010 0x101000 0xE0000000 0 countInfo zeroInodes zeroDirents
      countTar smallKernel >>= fun r =>
      (Journal.start r.1 r.2).step r.1 (.call (.other (.execve initPath.bytes))) >>= fun t =>
      (.ok (t.kernel.load 0x400007, (r.1.initrd.program initPath.bytes).map r.1.initrd.segments) :
        Except Halt _)) = .ok (some 8, some [alignedSegment]) := by
    decide +kernel
  obtain ⟨⟨env, k₂⟩, boot, afterBoot⟩ := bind_eq_ok.mp result
  obtain ⟨t, executed, values⟩ := bind_eq_ok.mp afterBoot
  obtain ⟨value, program⟩ := Prod.mk.inj (Except.ok.inj values)
  obtain ⟨bin, found, segs⟩ := Option.map_eq_some_iff.mp program
  have steady : (Journal.start env k₂).kernel.Steady env (.call (.other (.execve initPath.bytes))) := by
    refine Journal.steady executed fun call same => ?_
    cases same
    refine Kernel.not_overruns_execve fun bin' found' => SegsOk.loadFits ?_
    exact segsOk_program found segs (by decide) (by decide) bin' found'
  have first : (countMembers.find? fun m => m.path = initPath) = some ⟨initPath, countFile⟩ := rfl
  have proper : (Journal.start env k₂).kernel.Proper env countMembers
      (.call (.other (.execve initPath.bytes))) := by
    refine ⟨initPath, rfl, fun m found => ?_⟩
    cases first.symm.trans found
    exact Or.inl countFile_executable
  have runs := kmain_runs ⟨by decide, by decide, by decide⟩ countInfo_bootable
    (⟨rfl, rfl, rfl, rfl⟩ : smallKernel.Linked) rfl countTar_archive (by decide) countInfo_keeps first
    countFile_executable boot (.snoc _ .refl ⟨proper, steady⟩ executed)
  exact ⟨env, k₂, t, boot, executed, value, runs⟩

end Trunix
