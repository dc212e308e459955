import Trunix.Lib.Logged
import Trunix.Kernel.Archive

/-!
# What the scan of the ramdisk reads and writes

`load_initrd` again, now with a log of the bytes of the archive that it reads and of the
table entries that it writes.  The string routines stop early: `memcmp` at the first
difference, `strlcpy` and `oct2int` at a NUL.  A whole block lies inside the archive, so
only a last block that is cut short can lead outside, and only with the right bytes in it.
Addresses are numbers, which the pointers of the code are as long as `tar + len + 511` is at
most 4 GiB.
-/

set_option autoImplicit false

namespace Trunix

open Trunix.Lib

inductive ScanAccess where
  /-- the byte at an address is read -/
  | byte (x : Nat)
  /-- the entry of the inode table is written -/
  | inode (i : Nat)
  /-- the entry of the directory is written -/
  | dirent (i : Nat)

abbrev Scan := Logged ScanAccess Empty

def readByte (bytes : Mem) (x : Nat) : Scan UInt8 := ⟨[.byte x], .ok (bytes x)⟩

def writeEntry (t : ScanAccess) : Scan Unit := ⟨[t], .ok ()⟩

def memcmpReads (bytes : Mem) : List UInt8 → Nat → Scan Int
  | [], _ => return 0
  | a :: rest, p => do
      let c ← readByte bytes p
      if a = c then memcmpReads bytes rest (p + 1) else return (a.toNat : Int) - (c.toNat : Int)

def strlcpyReads (bytes : Mem) : Nat → Nat → Nat → (Nat → UInt8) → Scan (Nat → UInt8)
  | 0, _, _, dst => return dst
  | n + 1, p, i, dst => do
      let c ← readByte bytes p
      let dst := Function.update dst i c
      if c = 0 then return dst else strlcpyReads bytes n (p + 1) (i + 1) dst

def octReads (bytes : Mem) : Nat → Nat → Nat → Scan Nat
  | 0, _, n => return n
  | len + 1, p, n => do
      let c ← readByte bytes p
      if c = 0 then return n
      else octReads bytes len (p + 1) (u32 (n * 8 + c.toNat + (0x100000000 - 48)))

def addReads (bytes : Mem) (k : Ramdisk) (p : Nat) : Scan Ramdisk := do
  let i := k.inoN
  writeEntry (.dirent i)
  let name ← strlcpyReads bytes dirsiz (p + 1) 0 (k.dirTbl i).name
  writeEntry (.inode i)
  let mode ← octReads bytes 6 (p + 100) 0
  let uid ← octReads bytes 6 (p + 108) 0
  let gid ← octReads bytes 6 (p + 116) 0
  let size ← octReads bytes 11 (p + 124) 0
  let mTime ← octReads bytes 11 (p + 136) 0
  let flag ← readByte bytes (p + 156)
  let major ← octReads bytes 6 (p + 329) 0
  let inode : DiskInode :=
    { mode := mode % 0x10000, uid := uid % 0x10000, gid := gid % 0x10000, size := size
      mTime := mTime, type := inodeType flag (k.inoTbl i).type, major := major
      addr := if 0 < size then p + 512 else 0 }
  return { inoTbl := Function.update k.inoTbl i inode
           dirTbl := Function.update k.dirTbl i ⟨i, name⟩
           inoN := i + 1 }

def blockReads (bytes : Mem) (k : Ramdisk) (p : Nat) : Scan Ramdisk := do
  let order ← memcmpReads bytes ustar (p + 257)
  if order ≠ 0 then return k else addReads bytes k p

def scanReads (bytes : Mem) (stop : Nat) : Nat → Nat → Ramdisk → Scan Ramdisk
  | 0, _, k => return k
  | fuel + 1, p, k =>
      if p < stop then do
        let k ← blockReads bytes k p
        scanReads bytes stop fuel (p + 512) k
      else return k

def loadInitrdReads (bytes : Mem) (tar len : Nat) (inodes : Nat → DiskInode)
    (dirents : Nat → Dirent) : Scan Ramdisk :=
  scanReads bytes (tar + len) len tar ⟨inodes, dirents, rootIno⟩

/-! ## The log does not change what is computed -/

theorem memcmpReads_result (bytes : Mem) : ∀ (l : List UInt8) (p : Nat),
    (memcmpReads bytes l p).result = .ok (memcmp l fun j => bytes (p + j)) := by
  intro l
  induction l with
  | nil => intro p; rfl
  | cons a rest ih =>
      intro p
      have shift : (fun j => bytes (p + (j + 1))) = fun j => bytes (p + 1 + j) := by
        funext j
        congr 1
        omega
      rw [memcmpReads, Logged.result_bind, memcmp, shift]
      simp only [Nat.add_zero]
      by_cases same : a = bytes p
      · simp only [readByte, ok_bind, if_pos same, ih]
      · simp only [readByte, ok_bind, if_neg same, Logged.result_pure]

theorem strlcpyReads_result {bytes : Mem} {src : Nat → UInt8} : ∀ (n p i : Nat)
    (dst : Nat → UInt8), (∀ j, src (i + j) = bytes (p + j)) →
      (strlcpyReads bytes n p i dst).result = .ok (strlcpyLoop src n i dst) := by
  intro n
  induction n with
  | zero => intro p i dst _; rfl
  | succ n ih =>
      intro p i dst same
      have here : src i = bytes p := same 0
      have later : ∀ j, src (i + 1 + j) = bytes (p + 1 + j) := by
        intro j
        have shifted := same (j + 1)
        rwa [show i + (j + 1) = i + 1 + j by omega, show p + (j + 1) = p + 1 + j by omega] at shifted
      rw [strlcpyReads, Logged.result_bind, strlcpyLoop, here]
      by_cases nul : bytes p = 0
      · simp only [readByte, ok_bind, if_pos nul, Logged.result_pure]
      · simp only [readByte, ok_bind, if_neg nul]
        exact ih (p + 1) (i + 1) _ later

theorem octReads_result (bytes : Mem) : ∀ (len p n : Nat),
    (octReads bytes len p n).result = .ok (octLoop (fun j => bytes (p + j)) len n) := by
  intro len
  induction len with
  | zero => intro p n; rfl
  | succ len ih =>
      intro p n
      have shift : (fun j => bytes (p + (j + 1))) = fun j => bytes (p + 1 + j) := by
        funext j
        congr 1
        omega
      rw [octReads, Logged.result_bind, octLoop, shift]
      simp only [Nat.add_zero]
      by_cases nul : bytes p = 0
      · simp only [readByte, ok_bind, if_pos nul, Logged.result_pure]
      · simp only [readByte, ok_bind, if_neg nul, ih]

theorem nameReads_result (bytes : Mem) (p : Nat) (dst : Nat → UInt8) :
    (strlcpyReads bytes dirsiz (p + 1) 0 dst).result =
      .ok (strlcpy dst (fun j => bytes (p + 1 + j)) dirsiz) :=
  strlcpyReads_result dirsiz (p + 1) 0 dst fun j => by rw [Nat.zero_add]

theorem addReads_result (bytes : Mem) (k : Ramdisk) (p : Nat) :
    (addReads bytes k p).result = .ok (k.add bytes p) := by
  have name := nameReads_result bytes p (k.dirTbl k.inoN).name
  simp only [addReads, Logged.result_bind, writeEntry, ok_bind, name, octReads_result, readByte,
    Logged.result_pure]
  rfl

theorem blockReads_result (bytes : Mem) (k : Ramdisk) (p : Nat) :
    (blockReads bytes k p).result = .ok (if ¬ isHeader bytes p then k else k.add bytes p) := by
  rw [blockReads, Logged.result_bind, memcmpReads_result, ok_bind]
  by_cases header : isHeader bytes p
  · have equal : ¬ memcmp ustar (fun j => bytes (p + 257 + j)) ≠ 0 := not_not.mpr header
    rw [if_neg equal, if_neg (not_not.mpr header), addReads_result]
  · have differ : memcmp ustar (fun j => bytes (p + 257 + j)) ≠ 0 := header
    rw [if_pos differ, if_pos header, Logged.result_pure]

theorem scanReads_result (bytes : Mem) (stop : Nat) : ∀ (fuel p : Nat) (k : Ramdisk),
    (scanReads bytes stop fuel p k).result = .ok (scanLoop bytes stop fuel p k) := by
  intro fuel
  induction fuel with
  | zero => intro p k; rfl
  | succ fuel ih =>
      intro p k
      by_cases more : p < stop
      · rw [scanReads, if_pos more, scanLoop, if_pos more, Logged.result_bind, blockReads_result,
          ok_bind, ih]
      · rw [scanReads, if_neg more, scanLoop, if_neg more]
        rfl

theorem loadInitrdReads_result (bytes : Mem) (tar len : Nat) (inodes : Nat → DiskInode)
    (dirents : Nat → Dirent) : (loadInitrdReads bytes tar len inodes dirents).result =
      .ok (loadInitrd bytes tar len inodes dirents) :=
  scanReads_result bytes (tar + len) len tar _

/-! ## Inside the archive and the tables -/

/-- Inside the archive of `len` bytes at `tar`, or inside the pages of the table. -/
def ScanAccess.Inside (tar len : Nat) : ScanAccess → Prop
  | .byte x => tar ≤ x ∧ x < tar + len
  | .inode i => (i + 1) * inodeSize ≤ tableSize
  | .dirent i => (i + 1) * direntSize ≤ tableSize

/-- Of the `n` bytes from `p` on, those up to the first that `ends` lie before `stop`. -/
def EndsInside (stop : Nat) (ends : Nat → Prop) (p n : Nat) : Prop :=
  ∀ j < n, (∀ i < j, ¬ ends i) → p + j < stop

theorem endsInside_zero (stop : Nat) (ends : Nat → Prop) (p : Nat) : EndsInside stop ends p 0 := by
  intro j lt
  omega

theorem endsInside_succ {stop : Nat} {ends : Nat → Prop} {p n : Nat} :
    EndsInside stop ends p (n + 1) ↔
      p < stop ∧ (¬ ends 0 → EndsInside stop (fun i => ends (i + 1)) (p + 1) n) := by
  constructor
  · intro inside
    have first : p < stop := inside 0 (Nat.succ_pos n) (fun i lt => absurd lt (Nat.not_lt_zero i))
    refine ⟨first, fun goes j lt before => ?_⟩
    have later := inside (j + 1) (Nat.succ_lt_succ lt) (fun i lt' => by
      cases i with
      | zero => exact goes
      | succ i => exact before i (Nat.lt_of_succ_lt_succ lt'))
    omega
  · rintro ⟨first, later⟩ j lt before
    cases j with
    | zero => exact first
    | succ j =>
        have goes : ¬ ends 0 := before 0 (Nat.succ_pos j)
        have place := later goes j (Nat.lt_of_succ_lt_succ lt)
          (fun i lt' => before (i + 1) (Nat.succ_lt_succ lt'))
        omega

theorem endsInside_of_le {stop : Nat} (ends : Nat → Prop) {p n : Nat} (le : p + n ≤ stop) :
    EndsInside stop ends p n := by
  intro j lt _
  omega

section Inside

variable {bytes : Mem} {tar len : Nat}

theorem readByte_inside {x : Nat} (lo : tar ≤ x) :
    (readByte bytes x).All (ScanAccess.Inside tar len) ↔ x < tar + len := by
  simp [readByte, Logged.All, ScanAccess.Inside, lo]

theorem writeEntry_inside {t : ScanAccess} :
    (writeEntry t).All (ScanAccess.Inside tar len) ↔ t.Inside tar len := by
  simp [writeEntry, Logged.All]

theorem memcmpReads_inside : ∀ (l : List UInt8) (p : Nat), tar ≤ p →
    ((memcmpReads bytes l p).All (ScanAccess.Inside tar len) ↔
      EndsInside (tar + len) (fun i => l[i]? ≠ some (bytes (p + i))) p l.length) := by
  intro l
  induction l with
  | nil =>
      intro p _
      exact iff_of_true (Logged.all_pure _) (endsInside_zero _ _ _)
  | cons a rest ih =>
      intro p lo
      have shift : (fun i => (a :: rest)[i + 1]? ≠ some (bytes (p + (i + 1)))) =
          fun i => rest[i]? ≠ some (bytes (p + 1 + i)) := by
        funext i
        rw [List.getElem?_cons_succ, show p + (i + 1) = p + 1 + i by omega]
      have first : ¬ (a :: rest)[0]? ≠ some (bytes (p + 0)) ↔ a = bytes p := by simp
      rw [memcmpReads, Logged.all_bind_ok (a := bytes p) rfl, readByte_inside lo, List.length_cons,
        endsInside_succ, first, shift]
      by_cases same : a = bytes p
      · rw [if_pos same, ih (p + 1) (by omega)]
        simp only [same, forall_const]
      · rw [if_neg same]
        simp only [Logged.all_pure, same, false_imp_iff]

theorem octReads_inside : ∀ (n p m : Nat), tar ≤ p →
    ((octReads bytes n p m).All (ScanAccess.Inside tar len) ↔
      EndsInside (tar + len) (fun i => bytes (p + i) = 0) p n) := by
  intro n
  induction n with
  | zero =>
      intro p m _
      exact iff_of_true (Logged.all_pure _) (endsInside_zero _ _ _)
  | succ n ih =>
      intro p m lo
      have shift : (fun i => bytes (p + (i + 1)) = 0) = fun i => bytes (p + 1 + i) = 0 := by
        funext i
        rw [show p + (i + 1) = p + 1 + i by omega]
      rw [octReads, Logged.all_bind_ok (a := bytes p) rfl, readByte_inside lo, endsInside_succ, shift]
      simp only [Nat.add_zero]
      by_cases nul : bytes p = 0
      · rw [if_pos nul]
        simp only [Logged.all_pure, nul, not_true_eq_false, false_imp_iff]
      · rw [if_neg nul, ih (p + 1) _ (by omega)]
        simp only [nul, not_false_eq_true, forall_const]

theorem strlcpyReads_inside : ∀ (n p i : Nat) (dst : Nat → UInt8), tar ≤ p → p + n ≤ tar + len →
    (strlcpyReads bytes n p i dst).All (ScanAccess.Inside tar len) := by
  intro n
  induction n with
  | zero => intro p i dst _ _; exact Logged.all_pure _
  | succ n ih =>
      intro p i dst lo hi
      rw [strlcpyReads, Logged.all_bind_ok (a := bytes p) rfl, readByte_inside lo]
      refine ⟨by omega, ?_⟩
      by_cases nul : bytes p = 0
      · rw [if_pos nul]
        exact Logged.all_pure _
      · rw [if_neg nul]
        exact ih (p + 1) (i + 1) _ (by omega) (by omega)

/-- The part of a block that the scan looks at ends before `stop`: `memcmp` finds a
difference in time, and where there is none so does `oct2int` find the end of the major
number. -/
def BlockInside (bytes : Mem) (stop p : Nat) : Prop :=
  EndsInside stop (fun i => ustar[i]? ≠ some (bytes (p + 257 + i))) (p + 257) 8 ∧
    (isHeader bytes p → EndsInside stop (fun i => bytes (p + 329 + i) = 0) (p + 329) 6)

theorem blockInside_of_le {stop p : Nat} (le : p + 512 ≤ stop) : BlockInside bytes stop p :=
  ⟨endsInside_of_le _ (by omega), fun _ => endsInside_of_le _ (by omega)⟩

theorem entry_inside (tar len : Nat) {i : Nat} : ((ScanAccess.dirent i).Inside tar len ∧
    (ScanAccess.inode i).Inside tar len) ↔ i < 62 := by
  have sizes : inodeSize = 36 ∧ direntSize = 132 ∧ tableSize = 8192 := by decide
  obtain ⟨inode, dirent, table⟩ := sizes
  simp only [ScanAccess.Inside, inode, dirent, table]
  omega

theorem addReads_inside {k : Ramdisk} {p : Nat} (lo : tar ≤ p) (magic : p + 257 < tar + len) :
    (addReads bytes k p).All (ScanAccess.Inside tar len) ↔
      k.inoN < 62 ∧ EndsInside (tar + len) (fun i => bytes (p + 329 + i) = 0) (p + 329) 6 := by
  have name := nameReads_result bytes p (k.dirTbl k.inoN).name
  have wide : dirsiz = 128 := rfl
  have nameInside := @strlcpyReads_inside bytes tar len dirsiz (p + 1) 0 (k.dirTbl k.inoN).name
    (by omega) (by omega)
  have field : ∀ (n a : Nat), tar ≤ a → a + n ≤ tar + len →
      (octReads bytes n a 0).All (ScanAccess.Inside tar len) := by
    intro n a above below
    exact (octReads_inside n a 0 above).mpr (endsInside_of_le _ below)
  rw [addReads, Logged.all_bind_ok (a := ()) rfl, writeEntry_inside, Logged.all_bind_ok name,
    Logged.all_bind_ok (a := ()) rfl, writeEntry_inside,
    Logged.all_bind_ok (octReads_result bytes 6 (p + 100) 0),
    Logged.all_bind_ok (octReads_result bytes 6 (p + 108) 0),
    Logged.all_bind_ok (octReads_result bytes 6 (p + 116) 0),
    Logged.all_bind_ok (octReads_result bytes 11 (p + 124) 0),
    Logged.all_bind_ok (octReads_result bytes 11 (p + 136) 0),
    Logged.all_bind_ok (a := bytes (p + 156)) rfl,
    Logged.all_bind_ok (octReads_result bytes 6 (p + 329) 0),
    readByte_inside (by omega), octReads_inside 6 (p + 329) 0 (by omega), ← entry_inside tar len]
  have mode := field 6 (p + 100) (by omega) (by omega)
  have uid := field 6 (p + 108) (by omega) (by omega)
  have gid := field 6 (p + 116) (by omega) (by omega)
  have size := field 11 (p + 124) (by omega) (by omega)
  have mTime := field 11 (p + 136) (by omega) (by omega)
  have flag : p + 156 < tar + len := by omega
  have done : ∀ k' : Ramdisk, (pure k' : Scan Ramdisk).All (ScanAccess.Inside tar len) :=
    Logged.all_pure
  simp only [nameInside, mode, uid, gid, size, mTime, flag, done, true_and, and_true, and_assoc]

theorem blockReads_inside {k : Ramdisk} {p : Nat} (lo : tar ≤ p) :
    (blockReads bytes k p).All (ScanAccess.Inside tar len) ↔
      BlockInside bytes (tar + len) p ∧ (isHeader bytes p → k.inoN < 62) := by
  have count : ustar.length = 8 := by decide
  rw [blockReads, Logged.all_bind_ok (memcmpReads_result bytes ustar (p + 257)),
    memcmpReads_inside ustar (p + 257) (by omega), count]
  by_cases header : isHeader bytes p
  · have equal : ¬ memcmp ustar (fun j => bytes (p + 257 + j)) ≠ 0 := not_not.mpr header
    rw [if_neg equal]
    constructor
    · rintro ⟨magic, add⟩
      have first : p + 257 < tar + len := (endsInside_succ.mp magic).1
      obtain ⟨room, major⟩ := (addReads_inside lo first).mp add
      exact ⟨⟨magic, fun _ => major⟩, fun _ => room⟩
    · rintro ⟨⟨magic, major⟩, room⟩
      have first : p + 257 < tar + len := (endsInside_succ.mp magic).1
      exact ⟨magic, (addReads_inside lo first).mpr ⟨room header, major header⟩⟩
  · have differ : memcmp ustar (fun j => bytes (p + 257 + j)) ≠ 0 := header
    rw [if_pos differ]
    simp only [BlockInside, header, Logged.all_pure, false_imp_iff, and_true]

/-- The scan of `n` blocks, the last of which may be cut short. -/
theorem scanReads_inside : ∀ (n fuel p : Nat) (k : Ramdisk), n ≤ fuel → tar ≤ p →
    tar + len ≤ p + 512 * n → p + 512 * n < tar + len + 512 → k.inoN ≤ 62 →
    ((scanReads bytes (tar + len) fuel p k).All (ScanAccess.Inside tar len) ↔
      (∀ j < n, BlockInside bytes (tar + len) (p + 512 * j)) ∧
        k.inoN + (headersFrom bytes n p).length ≤ 62) := by
  intro n
  induction n with
  | zero =>
      intro fuel p k _ _ covers _ few
      have stop : ¬ p < tar + len := by omega
      have empty : scanReads bytes (tar + len) fuel p k = pure k := by
        cases fuel with
        | zero => rfl
        | succ fuel => rw [scanReads, if_neg stop]
      rw [empty]
      exact iff_of_true (Logged.all_pure k) ⟨fun j lt => absurd lt (Nat.not_lt_zero j), few⟩
  | succ n ih =>
      intro fuel p k enough lo covers tight few
      cases fuel with
      | zero => omega
      | succ fuel =>
          have go : p < tar + len := by omega
          have blocks : (∀ j < n + 1, BlockInside bytes (tar + len) (p + 512 * j)) ↔
              BlockInside bytes (tar + len) p ∧
                ∀ j < n, BlockInside bytes (tar + len) (p + 512 + 512 * j) := by
            have place : ∀ j, p + 512 * (j + 1) = p + 512 + 512 * j := fun j => by omega
            constructor
            · intro all
              refine ⟨all 0 (Nat.succ_pos n), fun j lt => ?_⟩
              rw [← place]
              exact all (j + 1) (Nat.succ_lt_succ lt)
            · rintro ⟨first, later⟩ j lt
              cases j with
              | zero => exact first
              | succ j =>
                  rw [place]
                  exact later j (Nat.lt_of_succ_lt_succ lt)
          rw [scanReads, if_pos go, Logged.all_bind_ok (blockReads_result bytes k p),
            blockReads_inside lo, blocks, headersFrom]
          by_cases header : isHeader bytes p
          · have count : (k.add bytes p).inoN = k.inoN + 1 := rfl
            rw [if_neg (not_not.mpr header), if_pos header]
            by_cases room : k.inoN < 62
            · rw [ih fuel (p + 512) _ (by omega) (by omega) (by omega) (by omega)
                (by rw [count]; omega), count, List.length_append, List.length_singleton]
              constructor
              · rintro ⟨⟨first, _⟩, later, total⟩
                exact ⟨⟨first, later⟩, by omega⟩
              · rintro ⟨⟨first, later⟩, total⟩
                exact ⟨⟨first, fun _ => room⟩, later, by omega⟩
            · constructor
              · rintro ⟨⟨_, entry⟩, _⟩
                exact absurd (entry header) room
              · rintro ⟨_, total⟩
                rw [List.length_append, List.length_singleton] at total
                omega
          · rw [if_pos header, if_neg header, ih fuel (p + 512) k (by omega) (by omega) (by omega)
              (by omega) few, List.nil_append]
            constructor
            · rintro ⟨⟨first, _⟩, later, total⟩
              exact ⟨⟨first, later⟩, total⟩
            · rintro ⟨⟨first, later⟩, total⟩
              exact ⟨⟨first, fun magic => absurd magic header⟩, later, total⟩

end Inside

/-- The blocks of the archive, a last one that is cut short among them. -/
def archiveBlocks (len : Nat) : Nat := (len + 511) / 512

/-- Whole blocks lie inside, so it is enough to look at what is left behind them. -/
theorem blocks_inside {bytes : Mem} {tar len : Nat} :
    (∀ j < archiveBlocks len, BlockInside bytes (tar + len) (tar + 512 * j)) ↔
      (len % 512 ≠ 0 → BlockInside bytes (tar + len) (tar + 512 * (len / 512))) := by
  constructor
  · intro all cut
    have last : len / 512 < archiveBlocks len := by
      simp only [archiveBlocks]
      omega
    exact all (len / 512) last
  · intro rest j lt
    unfold archiveBlocks at lt
    by_cases whole : 512 * (j + 1) ≤ len
    · exact blockInside_of_le (by omega)
    · have last : j = len / 512 := by omega
      subst last
      exact rest (by omega)

theorem loadInitrdReads_inside {bytes : Mem} {tar len : Nat} {inodes : Nat → DiskInode}
    {dirents : Nat → Dirent} :
    (loadInitrdReads bytes tar len inodes dirents).All (ScanAccess.Inside tar len) ↔
      (∀ j < archiveBlocks len, BlockInside bytes (tar + len) (tar + 512 * j)) ∧
        (headersFrom bytes (archiveBlocks len) tar).length ≤ 60 := by
  have root : (Ramdisk.mk inodes dirents rootIno).inoN = 2 := rfl
  have fuel : archiveBlocks len ≤ len := by
    unfold archiveBlocks
    omega
  have covers : tar + len ≤ tar + 512 * archiveBlocks len := by
    unfold archiveBlocks
    omega
  have tight : tar + 512 * archiveBlocks len < tar + len + 512 := by
    unfold archiveBlocks
    omega
  rw [loadInitrdReads, scanReads_inside (archiveBlocks len) len tar _ fuel (Nat.le_refl tar) covers
    tight (by omega), root]
  constructor
  · rintro ⟨blocks, few⟩
    exact ⟨blocks, by omega⟩
  · rintro ⟨blocks, few⟩
    exact ⟨blocks, by omega⟩

/-- `load_initrd` stays inside the tables and the archive exactly when no more than sixty
blocks have the magic and a block that is cut short at the end shows in time that it is no
header, or has a major number that ends in time. -/
theorem load_initrd_inside_iff (bytes : Mem) (tar len : Nat) (inodes : Nat → DiskInode)
    (dirents : Nat → Dirent) :
    (loadInitrdReads bytes tar len inodes dirents).All (ScanAccess.Inside tar len) ↔
      (headersFrom bytes (archiveBlocks len) tar).length ≤ 60 ∧
        (len % 512 ≠ 0 → BlockInside bytes (tar + len) (tar + 512 * (len / 512))) := by
  rw [loadInitrdReads_inside, blocks_inside]
  exact And.comm

def manyHeaders : Mem := fun x =>
  if 257 ≤ x % 512 ∧ x % 512 < 265 then ustar.getD (x % 512 - 257) 0
  else if x % 512 < 10 then 97 else 0

/-- The header of a 61st file has its entry outside the tables. -/
theorem load_initrd_inside_full :
    ¬ (loadInitrdReads manyHeaders 0 (512 * 61) zeroInodes zeroDirents).All
      (ScanAccess.Inside 0 (512 * 61)) := by
  have header : ∀ j, isHeader manyHeaders (0 + 512 * j) := by
    intro j
    refine isHeader_iff.mpr fun i lt => ?_
    have eight : i < 8 := lt
    have place : (0 + 512 * j + 257 + i) % 512 = 257 + i := by omega
    have magic : 257 ≤ 257 + i ∧ 257 + i < 265 := by omega
    have index : 257 + i - 257 = i := by omega
    simp only [manyHeaders, place, if_pos magic, index]
    rw [List.getD_eq_getElem _ _ lt]
    rfl
  have all : ∀ a ∈ (List.range 61).map fun j => 0 + 512 * j, isHeader manyHeaders a := by
    intro a mem
    obtain ⟨j, _, rfl⟩ := List.mem_map.mp mem
    exact header j
  have count : (headersFrom manyHeaders (archiveBlocks (512 * 61)) 0).length = 61 := by
    have blocks : archiveBlocks (512 * 61) = 61 := by decide
    rw [blocks, headersFrom_length, List.filter_eq_self.mpr (fun a mem => decide_eq_true (all a mem)),
      List.length_map, List.length_range]
  rw [loadInitrdReads_inside, count]
  omega

end Trunix
