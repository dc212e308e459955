import Trunix.Kernel.Ramdisk

/-!
# Archives in the ramdisk

A ustar archive is a sequence of members, each of them a header block and the data blocks
of its file, and a trailer of zero blocks.  `load_initrd` does not step over the data of a
member: it looks at every block and takes it for a header when it has the magic.  This
module says which entries come of that.
-/

set_option autoImplicit false

namespace Trunix

open Trunix.Lib

/-! ## The scan -/

def headersFrom (bytes : Mem) : Nat → Nat → List Nat
  | 0, _ => []
  | n + 1, p => (if isHeader bytes p then [p] else []) ++ headersFrom bytes n (p + 512)

/-- `n` blocks cover what is to be scanned; the last one may be cut short. -/
theorem scanLoop_eq (bytes : Mem) (stop : Nat) : ∀ (n fuel p : Nat) (k : Ramdisk), n ≤ fuel →
    stop ≤ p + 512 * n → p + 512 * n < stop + 512 →
    scanLoop bytes stop fuel p k = (headersFrom bytes n p).foldl (Ramdisk.add bytes) k := by
  intro n
  induction n with
  | zero =>
      intro fuel p k _ covers _
      cases fuel with
      | zero => rfl
      | succ fuel =>
          have done : ¬ p < stop := by omega
          rw [scanLoop, if_neg done]
          rfl
  | succ n ih =>
      intro fuel p k enough covers tight
      cases fuel with
      | zero => omega
      | succ fuel =>
          have go : p < stop := by omega
          rw [scanLoop, if_pos go, ih fuel (p + 512) _ (by omega) (by omega) (by omega), headersFrom,
            List.foldl_append]
          by_cases header : isHeader bytes p
          · rw [if_neg (not_not.mpr header), if_pos header]
            rfl
          · rw [if_pos header, if_neg header]
            rfl

theorem headersFrom_append (bytes : Mem) : ∀ (n m p : Nat),
    headersFrom bytes (n + m) p = headersFrom bytes n p ++ headersFrom bytes m (p + 512 * n) := by
  intro n
  induction n with
  | zero => intro m p; rw [Nat.zero_add]; rfl
  | succ n ih =>
      intro m p
      have count : n + 1 + m = n + m + 1 := by omega
      have next : p + 512 + 512 * n = p + 512 * (n + 1) := by omega
      rw [count, headersFrom, headersFrom, ih, next, List.append_assoc]

theorem headersFrom_nil {bytes : Mem} : ∀ {n p : Nat}, (∀ j < n, ¬ isHeader bytes (p + 512 * j)) →
    headersFrom bytes n p = [] := by
  intro n
  induction n with
  | zero => intro p _; rfl
  | succ n ih =>
      intro p none
      have first : ¬ isHeader bytes p := none 0 (Nat.succ_pos _)
      have later := ih (p := p + 512) (fun j lt => by
        have place : p + 512 + 512 * j = p + 512 * (j + 1) := by omega
        rw [place]
        exact none (j + 1) (Nat.succ_lt_succ lt))
      rw [headersFrom, if_neg first, later]
      rfl

theorem headersFrom_length (bytes : Mem) : ∀ (n p : Nat), (headersFrom bytes n p).length =
    (((List.range n).map fun j => p + 512 * j).filter fun a => isHeader bytes a).length := by
  intro n
  induction n with
  | zero => intro p; rfl
  | succ n ih =>
      intro p
      have shift : ((fun j => p + 512 * j) ∘ Nat.succ) = fun j => p + 512 + 512 * j := by
        funext j
        simp only [Function.comp, Nat.succ_eq_add_one]
        omega
      rw [headersFrom, List.length_append, ih, List.range_succ_eq_map, List.map_cons, List.map_map, shift]
      by_cases header : isHeader bytes p
      · simp [header, Nat.add_comm]
      · simp [header]

structure Added (bytes : Mem) (hs : List Nat) (k k' : Ramdisk) : Prop where
  count : k'.inoN = k.inoN + hs.length
  inode : ∀ j (lt : j < hs.length),
    k'.inoTbl (k.inoN + j) = readInode bytes (hs.get ⟨j, lt⟩) (k.inoTbl (k.inoN + j))
  dirent : ∀ j (lt : j < hs.length), k'.dirTbl (k.inoN + j) =
    readDirent bytes (hs.get ⟨j, lt⟩) (k.inoN + j) (k.dirTbl (k.inoN + j))
  older : ∀ i < k.inoN, k'.inoTbl i = k.inoTbl i ∧ k'.dirTbl i = k.dirTbl i

theorem foldl_added (bytes : Mem) : ∀ (hs : List Nat) (k : Ramdisk),
    Added bytes hs k (hs.foldl (Ramdisk.add bytes) k) := by
  intro hs
  induction hs with
  | nil =>
      intro k
      exact ⟨rfl, fun j lt => absurd lt (Nat.not_lt_zero j), fun j lt => absurd lt (Nat.not_lt_zero j),
        fun i _ => ⟨rfl, rfl⟩⟩
  | cons p rest ih =>
      intro k
      have later := ih (k.add bytes p)
      have next : (k.add bytes p).inoN = k.inoN + 1 := rfl
      have others : ∀ i, i ≠ k.inoN →
          (k.add bytes p).inoTbl i = k.inoTbl i ∧ (k.add bytes p).dirTbl i = k.dirTbl i := by
        intro i ne
        exact ⟨Function.update_of_ne ne _ _, Function.update_of_ne ne _ _⟩
      rw [List.foldl_cons]
      refine ⟨?_, fun j lt => ?_, fun j lt => ?_, fun i lt => ?_⟩
      · rw [later.count, next, List.length_cons]
        omega
      · cases j with
        | zero =>
            rw [Nat.add_zero, (later.older k.inoN (by omega)).1]
            exact Function.update_self _ _ _
        | succ j =>
            have index : k.inoN + (j + 1) = (k.add bytes p).inoN + j := by omega
            rw [index, later.inode j (Nat.lt_of_succ_lt_succ lt), (others _ (by omega)).1]
            rfl
      · cases j with
        | zero =>
            rw [Nat.add_zero, (later.older k.inoN (by omega)).2]
            exact Function.update_self _ _ _
        | succ j =>
            have index : k.inoN + (j + 1) = (k.add bytes p).inoN + j := by omega
            rw [index, later.dirent j (Nat.lt_of_succ_lt_succ lt), (others _ (by omega)).2]
            rfl
      · have step := later.older i (by omega)
        have first := others i (by omega)
        exact ⟨step.1.trans first.1, step.2.trans first.2⟩

/-- The tables after the scan of an archive of any length. -/
theorem loadInitrd_scanned (bytes : Mem) (tar len : Nat) (inodes : Nat → DiskInode)
    (dirents : Nat → Dirent) :
    Added bytes (headersFrom bytes ((len + 511) / 512) tar) ⟨inodes, dirents, rootIno⟩
      (loadInitrd bytes tar len inodes dirents) := by
  rw [loadInitrd, scanLoop_eq bytes (tar + len) ((len + 511) / 512) len tar _ (by omega) (by omega) (by omega)]
  exact foldl_added bytes _ _

theorem loadInitrd_added (bytes : Mem) (tar n : Nat) (inodes : Nat → DiskInode)
    (dirents : Nat → Dirent) :
    Added bytes (headersFrom bytes n tar) ⟨inodes, dirents, rootIno⟩
      (loadInitrd bytes tar (512 * n) inodes dirents) := by
  have scanned := loadInitrd_scanned bytes tar (512 * n) inodes dirents
  have blocks : (512 * n + 511) / 512 = n := by omega
  rw [blocks] at scanned
  exact scanned

/-! ## Members one behind the other -/

def dataBlocks (size : Nat) : Nat := (size + 511) / 512

def headerAddrs : Nat → List Nat → List Nat
  | _, [] => []
  | a, size :: rest => a :: headerAddrs (a + 512 * (1 + dataBlocks size)) rest

def dataAddrs : Nat → List Nat → List Nat
  | _, [] => []
  | a, size :: rest =>
      (List.range (dataBlocks size)).map (fun j => a + 512 + 512 * j) ++
        dataAddrs (a + 512 * (1 + dataBlocks size)) rest

def memberBlocks (sizes : List Nat) : Nat := (sizes.map fun size => 1 + dataBlocks size).sum

theorem headerAddrs_length : ∀ (sizes : List Nat) (a : Nat),
    (headerAddrs a sizes).length = sizes.length := by
  intro sizes
  induction sizes with
  | nil => intro a; rfl
  | cons size rest ih => intro a; rw [headerAddrs, List.length_cons, List.length_cons, ih]

/-- The blocks with the magic in the part of the archive that the members make up, when
every header has it. -/
theorem memberHeaders {bytes : Mem} : ∀ (sizes : List Nat) (a : Nat),
    (∀ p ∈ headerAddrs a sizes, isHeader bytes p) →
    (headersFrom bytes (memberBlocks sizes) a).length =
        sizes.length + ((dataAddrs a sizes).filter fun p => isHeader bytes p).length ∧
      ((∀ p ∈ dataAddrs a sizes, ¬ isHeader bytes p) →
        headersFrom bytes (memberBlocks sizes) a = headerAddrs a sizes) := by
  intro sizes
  induction sizes with
  | nil => intro a _; exact ⟨rfl, fun _ => rfl⟩
  | cons size rest ih =>
      intro a magic
      have here := magic a List.mem_cons_self
      obtain ⟨count, list⟩ := ih (a + 512 * (1 + dataBlocks size))
        (fun p mem => magic p (List.mem_cons_of_mem _ mem))
      have blocks : memberBlocks (size :: rest) = dataBlocks size + memberBlocks rest + 1 := by
        simp only [memberBlocks, List.map_cons, List.sum_cons]
        omega
      have place : a + 512 + 512 * dataBlocks size = a + 512 * (1 + dataBlocks size) := by omega
      have split : headersFrom bytes (memberBlocks (size :: rest)) a =
          a :: (headersFrom bytes (dataBlocks size) (a + 512) ++
            headersFrom bytes (memberBlocks rest) (a + 512 * (1 + dataBlocks size))) := by
        rw [blocks, headersFrom, if_pos here, headersFrom_append, place]
        rfl
      rw [split]
      refine ⟨?_, fun none => ?_⟩
      · rw [List.length_cons, List.length_append, count, headersFrom_length, dataAddrs,
          List.filter_append, List.length_append, List.length_cons]
        omega
      · have noData : headersFrom bytes (dataBlocks size) (a + 512) = [] := by
          apply headersFrom_nil
          intro j lt
          exact none _ (List.mem_append_left _ (List.mem_map.mpr ⟨j, List.mem_range.mpr lt, rfl⟩))
        rw [noData, list (fun p mem => none p (List.mem_append_right _ mem)), headerAddrs]
        rfl

def StartsWith (s : Nat → UInt8) (l : List UInt8) : Prop := ∀ i (lt : i < l.length), s i = l.get ⟨i, lt⟩

theorem isHeader_iff {bytes : Mem} {p : Nat} :
    isHeader bytes p ↔ StartsWith (fun j => bytes (p + 257 + j)) ustar := memcmp_eq_zero _ _

def Octal (digits : List UInt8) : Prop := ∀ d ∈ digits, 48 ≤ d.toNat ∧ d.toNat ≤ 55

def octalValue (digits : List UInt8) : Nat := digits.foldl (fun n d => n * 8 + (d.toNat - 48)) 0

/-! ## Archives with any contents -/

/-- A ustar header for a file of `size` bytes: the magic, and the size in up to eleven
octal digits with a NUL or a space behind them. -/
structure UstarHeader (bytes : Mem) (a size : Nat) : Prop where
  magic : StartsWith (fun j => bytes (a + 257 + j)) ustar
  size : ∃ digits : List UInt8, digits.length ≤ 11 ∧ Octal digits ∧
    StartsWith (fun j => bytes (a + 124 + j)) digits ∧
    (bytes (a + 124 + digits.length) = 0 ∨ bytes (a + 124 + digits.length) = 0x20) ∧
    octalValue digits = size

/-- Members of the given sizes, with any contents, and zero blocks behind them. -/
structure UstarArchive (bytes : Mem) (tar len : Nat) (sizes : List Nat) : Prop where
  length : ∃ n, len = 512 * (memberBlocks sizes + n)
  headers : ∀ j (lt : j < sizes.length) (lt' : j < (headerAddrs tar sizes).length),
    UstarHeader bytes ((headerAddrs tar sizes).get ⟨j, lt'⟩) (sizes.get ⟨j, lt⟩)
  zeros : ∀ x, tar + 512 * memberBlocks sizes ≤ x → x < tar + len → bytes x = 0

/-- The tables have one entry for each of the headers, in order, made from that header,
and the entries are entries of the tables. -/
structure Created (bytes : Mem) (hs : List Nat) (inodes : Nat → DiskInode) (dirents : Nat → Dirent)
    (k : Ramdisk) : Prop where
  count : k.inoN = rootIno + hs.length
  inode : ∀ j (lt : j < hs.length),
    k.inoTbl (rootIno + j) = readInode bytes (hs.get ⟨j, lt⟩) (inodes (rootIno + j))
  dirent : ∀ j (lt : j < hs.length),
    k.dirTbl (rootIno + j) = readDirent bytes (hs.get ⟨j, lt⟩) (rootIno + j) (dirents (rootIno + j))
  room : k.inoN * inodeSize ≤ tableSize ∧ k.inoN * direntSize ≤ tableSize

theorem tables_room {n : Nat} :
    ((rootIno + n) * inodeSize ≤ tableSize ∧ (rootIno + n) * direntSize ≤ tableSize) ↔ n ≤ 60 := by
  have sizes : rootIno = 2 ∧ inodeSize = 36 ∧ direntSize = 132 ∧ tableSize = 8192 := by decide
  obtain ⟨root, inode, dirent, table⟩ := sizes
  rw [root, inode, dirent, table]
  omega

theorem not_isHeader_of_zero {bytes : Mem} {p : Nat} (zero : bytes (p + 257) = 0) :
    ¬ isHeader bytes p := by
  intro header
  have first : bytes (p + 257) = 0x75 := isHeader_iff.mp header 0 (by decide)
  rw [zero] at first
  exact absurd first (by decide)

/-- Every member gets its entry and nothing else does exactly when no data block has the
magic of a header and there are at most sixty members. -/
theorem load_initrd_created_iff {bytes : Mem} {tar len : Nat} {sizes : List Nat}
    {inodes : Nat → DiskInode} {dirents : Nat → Dirent} (archive : UstarArchive bytes tar len sizes) :
    Created bytes (headerAddrs tar sizes) inodes dirents (loadInitrd bytes tar len inodes dirents) ↔
      (∀ p ∈ dataAddrs tar sizes, ¬ isHeader bytes p) ∧ sizes.length ≤ 60 := by
  obtain ⟨n, rfl⟩ := archive.length
  have added := loadInitrd_added bytes tar (memberBlocks sizes + n) inodes dirents
  have magic : ∀ p ∈ headerAddrs tar sizes, isHeader bytes p := by
    intro p mem
    obtain ⟨⟨j, lt⟩, rfl⟩ := List.get_of_mem mem
    have header := archive.headers j (headerAddrs_length sizes tar ▸ lt) lt
    exact isHeader_iff.mpr header.magic
  have trailer : headersFrom bytes n (tar + 512 * memberBlocks sizes) = [] := by
    apply headersFrom_nil
    intro j lt
    exact not_isHeader_of_zero (archive.zeros _ (by omega) (by omega))
  rw [headersFrom_append, trailer, List.append_nil] at added
  obtain ⟨count, list⟩ := memberHeaders sizes tar magic
  constructor
  · intro created
    have size := created.count
    have room := created.room
    rw [size, headerAddrs_length] at room
    have none : ((dataAddrs tar sizes).filter fun p => isHeader bytes p).length = 0 := by
      have total := added.count
      rw [size, headerAddrs_length, count] at total
      simp only at total
      omega
    refine ⟨fun p mem header => ?_, tables_room.mp room⟩
    have inFilter : p ∈ (dataAddrs tar sizes).filter fun p => isHeader bytes p :=
      List.mem_filter.mpr ⟨mem, decide_eq_true header⟩
    rw [List.length_eq_zero_iff.mp none] at inFilter
    exact absurd inFilter List.not_mem_nil
  · rintro ⟨clean, few⟩
    rw [list clean] at added
    refine ⟨added.count, added.inode, added.dirent, ?_⟩
    rw [added.count, headerAddrs_length]
    exact tables_room.mpr few

def zeroInodes : Nat → DiskInode := fun _ => ⟨⟨0, 0⟩, 0, 0, 0, .file, 0, 0⟩

def zeroDirents : Nat → Dirent := fun _ => ⟨0, fun _ => 0⟩

/-- An archive with one file of 512 bytes that looks like a header: an archive in an
archive. -/
def nestedTar : Mem := fun x =>
  if 124 ≤ x ∧ x < 135 then (if x = 131 then 0x31 else 0x30)
  else if 257 ≤ x ∧ x < 265 then ustar.getD (x - 257) 0
  else if 769 ≤ x ∧ x < 777 then ustar.getD (x - 769) 0
  else 0

theorem nestedTar_archive : UstarArchive nestedTar 0 2048 [512] := by
  have digits : StartsWith (fun j => nestedTar (0 + 124 + j))
      [0x30, 0x30, 0x30, 0x30, 0x30, 0x30, 0x30, 0x31, 0x30, 0x30, 0x30] := by
    unfold StartsWith
    decide
  have header : UstarHeader nestedTar 0 512 := by
    refine ⟨?_, _, ?_, ?_, digits, Or.inl ?_, ?_⟩
    · unfold StartsWith
      decide
    · decide
    · unfold Octal
      decide +kernel
    · decide
    · decide
  refine ⟨⟨2, by decide⟩, fun j lt lt' => ?_, fun x lo hi => ?_⟩
  · have first : j = 0 := Nat.lt_one_iff.mp lt
    subst first
    exact header
  · have blocks : memberBlocks [512] = 2 := by decide
    rw [blocks] at lo
    simp only [nestedTar]
    rw [if_neg (by omega), if_neg (by omega), if_neg (by omega)]

/-- The data block of its only file gets an entry too. -/
theorem nestedTar_two_entries : UstarArchive nestedTar 0 2048 [512] ∧
    ¬ Created nestedTar (headerAddrs 0 [512]) zeroInodes zeroDirents
      (loadInitrd nestedTar 0 2048 zeroInodes zeroDirents) := by
  refine ⟨nestedTar_archive, fun created => ?_⟩
  have count := created.count
  have found : (loadInitrd nestedTar 0 2048 zeroInodes zeroDirents).inoN = 4 := by
    decide +kernel
  rw [found] at count
  exact absurd count (by decide)

theorem load_initrd_created_iff_nested :
    UstarArchive nestedTar 0 2048 [512] ∧
      (Created nestedTar (headerAddrs 0 [512]) zeroInodes zeroDirents
        (loadInitrd nestedTar 0 2048 zeroInodes zeroDirents) ↔
        (∀ p ∈ dataAddrs 0 [512], ¬ isHeader nestedTar p) ∧ [512].length ≤ 60) :=
  ⟨nestedTar_archive, load_initrd_created_iff nestedTar_archive⟩

/-! ## Archives of named files -/

/-- A member of the archive, under the path behind the dot of its name. -/
structure TarMember where
  path : CString
  contents : List UInt8

def TarMember.size (m : TarMember) : Nat := m.contents.length

/-- The header and the data of a member: the name is a dot and the path, and ends inside
its field of 100 bytes; the size has eleven octal digits. -/
structure MemberAt (bytes : Mem) (a : Nat) (m : TarMember) : Prop where
  magic : StartsWith (fun j => bytes (a + 257 + j)) ustar
  dot : bytes a = 0x2E
  path : HoldsString (fun j => bytes (a + 1 + j)) m.path.bytes
  short : 1 + m.path.bytes.length + 1 ≤ 100
  digits : ∃ digits : List UInt8, digits.length = 11 ∧ Octal digits ∧
    StartsWith (fun j => bytes (a + 124 + j)) digits ∧ octalValue digits = m.size
  small : m.size < 0x80000000
  contents : StartsWith (fun j => bytes (a + 512 + j)) m.contents

/-- At most sixty members, and no other block with the magic. -/
structure TarArchive (bytes : Mem) (tar len : Nat) (members : List TarMember) : Prop where
  few : members.length ≤ 60
  length : ∃ n, len = 512 * (memberBlocks (members.map TarMember.size) + n)
  placed : ∀ j (lt : j < members.length)
    (lt' : j < (headerAddrs tar (members.map TarMember.size)).length),
    MemberAt bytes ((headerAddrs tar (members.map TarMember.size)).get ⟨j, lt'⟩) (members.get ⟨j, lt⟩)
  data : ∀ p ∈ dataAddrs tar (members.map TarMember.size), ¬ isHeader bytes p
  trailer : ∀ j, memberBlocks (members.map TarMember.size) ≤ j → 512 * (j + 1) ≤ len →
    ¬ isHeader bytes (tar + 512 * j)

theorem le_octalFold : ∀ (digits : List UInt8) (n : Nat),
    n ≤ digits.foldl (fun n d => n * 8 + (d.toNat - 48)) n := by
  intro digits
  induction digits with
  | nil => intro n; exact Nat.le_refl _
  | cons d rest ih =>
      intro n
      have later := ih (n * 8 + (d.toNat - 48))
      rw [List.foldl_cons]
      omega

/-- `oct2int` reads digits whose value is a word, and goes on behind them. -/
theorem octLoop_digits : ∀ (digits : List UInt8) (str : Nat → UInt8) (n m : Nat), Octal digits →
    StartsWith str digits → digits.foldl (fun n d => n * 8 + (d.toNat - 48)) n < 0x100000000 →
    octLoop str (digits.length + m) n =
      octLoop (fun i => str (digits.length + i)) m (digits.foldl (fun n d => n * 8 + (d.toNat - 48)) n) := by
  intro digits
  induction digits with
  | nil =>
      intro str n m _ _ _
      simp only [List.length_nil, Nat.zero_add, List.foldl_nil]
  | cons d rest ih =>
      intro str n m octal starts bound
      have first : str 0 = d := starts 0 (Nat.succ_pos _)
      have digit := octal d List.mem_cons_self
      have nonzero : ¬ d = 0 := by
        intro zero
        rw [zero] at digit
        exact absurd digit.1 (by decide)
      have small := Nat.lt_of_le_of_lt (le_octalFold rest (n * 8 + (d.toNat - 48))) bound
      have step : u32 (n * 8 + d.toNat + (0x100000000 - 48)) = n * 8 + (d.toNat - 48) := by
        rw [u32]
        omega
      have count : (d :: rest).length + m = rest.length + m + 1 := by
        rw [List.length_cons]
        omega
      have behind : (fun i => str (rest.length + i + 1)) = fun i => str ((d :: rest).length + i) := by
        funext i
        have index : rest.length + i + 1 = (d :: rest).length + i := by
          rw [List.length_cons, Nat.add_right_comm]
        rw [index]
      rw [count, octLoop, first, if_neg nonzero, step, List.foldl_cons,
        ih _ _ m (fun e mem => octal e (List.mem_cons_of_mem _ mem))
          (fun i lt => starts (i + 1) (Nat.succ_lt_succ lt)) bound, behind]

theorem octLoop_eq (digits : List UInt8) (str : Nat → UInt8) (n : Nat) (octal : Octal digits)
    (starts : StartsWith str digits)
    (bound : digits.foldl (fun n d => n * 8 + (d.toNat - 48)) n < 0x100000000) :
    octLoop str digits.length n = digits.foldl (fun n d => n * 8 + (d.toNat - 48)) n := by
  have read := octLoop_digits digits str n 0 octal starts bound
  rw [Nat.add_zero, octLoop] at read
  exact read

theorem MemberAt.entry {bytes : Mem} {a i : Nat} {m : TarMember} (h : MemberAt bytes a m)
    (inode : DiskInode) (dirent : Dirent) :
    HoldsString (readDirent bytes a i dirent).name m.path.bytes ∧ (readInode bytes a inode).size = m.size ∧
      (0 < m.size → StartsWith (fun j => bytes ((readInode bytes a inode).addr + j)) m.contents) := by
  obtain ⟨digits, eleven, octal, starts, value⟩ := h.digits
  have short := h.short
  have small := h.small
  have size : oct2int (fun j => bytes (a + 124 + j)) 11 = m.size := by
    rw [oct2int, ← eleven, octLoop_eq digits _ 0 octal starts (by rw [octalValue] at value; omega)]
    exact value
  have wide : dirsiz = 128 := rfl
  refine ⟨strlcpy_holds m.path.plain (by omega) h.path, size, fun pos => ?_⟩
  have place : (readInode bytes a inode).addr = a + 512 := by
    simp only [readInode, size, if_pos pos]
  rw [place]
  exact h.contents

/-- The search over entries with known names finds the first with the path. -/
theorem searchLoop_eq {k : Ramdisk} {path : CString} : ∀ (names : List CString) (fuel i : Nat),
    k.inoN = i + names.length → names.length ≤ fuel →
    (∀ j (lt : j < names.length), HoldsString (k.dirTbl (i + j)).name (names.get ⟨j, lt⟩).bytes) →
    searchLoop k path.bytes fuel i = (names.findIdx? fun c => c = path).map (i + ·) := by
  intro names
  induction names with
  | nil =>
      intro fuel i count _ _
      cases fuel with
      | zero => rfl
      | succ fuel =>
          have stop : ¬ i < k.inoN := by
            rw [count, List.length_nil]
            omega
          rw [searchLoop, if_neg stop]
          rfl
  | cons name rest ih =>
      intro fuel i count enough holds
      cases fuel with
      | zero => exact absurd enough (by simp)
      | succ fuel =>
          rw [List.length_cons] at count enough
          have go : i < k.inoN := by omega
          have first : HoldsString (k.dirTbl i).name name.bytes := holds 0 (Nat.succ_pos _)
          rw [searchLoop, if_pos go, List.findIdx?_cons]
          by_cases same : name = path
          · have equal : strcmp path.bytes (k.dirTbl i).name = 0 :=
              (strcmp_eq_zero path.plain).mpr (same ▸ first)
            simp [equal, same]
          · have differs : ¬ strcmp path.bytes (k.dirTbl i).name = 0 := by
              intro equal
              have bytes := HoldsString.unique name.plain path.plain first
                ((strcmp_eq_zero path.plain).mp equal)
              exact same (CString.ext bytes)
            have later := ih fuel (i + 1) (by omega) (by omega) (fun j lt => by
              have index : i + 1 + j = i + (j + 1) := by omega
              rw [index]
              exact holds (j + 1) (Nat.succ_lt_succ lt))
            have shift : ((i + ·) ∘ fun j => j + 1) = (i + 1 + ·) := by
              funext j
              simp only [Function.comp]
              omega
            simp only [differs, same, if_false, decide_false, Bool.false_eq_true, later, Option.map_map,
              shift]

section Members

variable {bytes : Mem} {tar len : Nat} {members : List TarMember} {inodes : Nat → DiskInode}
  {dirents : Nat → Dirent}

/-- Exactly the headers of the members make entries. -/
theorem TarArchive.added (archive : TarArchive bytes tar len members) :
    Added bytes (headerAddrs tar (members.map TarMember.size)) ⟨inodes, dirents, rootIno⟩
      (loadInitrd bytes tar len inodes dirents) := by
  obtain ⟨n, rfl⟩ := archive.length
  have added := loadInitrd_added bytes tar (memberBlocks (members.map TarMember.size) + n) inodes dirents
  have magic : ∀ p ∈ headerAddrs tar (members.map TarMember.size), isHeader bytes p := by
    intro p mem
    obtain ⟨⟨j, lt⟩, rfl⟩ := List.get_of_mem mem
    have inMembers : j < members.length := by
      rw [headerAddrs_length, List.length_map] at lt
      exact lt
    exact isHeader_iff.mpr (archive.placed j inMembers lt).magic
  have trailer : headersFrom bytes n (tar + 512 * memberBlocks (members.map TarMember.size)) = [] := by
    apply headersFrom_nil
    intro j lt
    have block := archive.trailer (memberBlocks (members.map TarMember.size) + j)
      (Nat.le_add_right _ _) (by omega)
    rw [Nat.mul_add, ← Nat.add_assoc] at block
    exact block
  rw [headersFrom_append, trailer, List.append_nil, (memberHeaders _ tar magic).2 archive.data] at added
  exact added

theorem TarArchive.entry (archive : TarArchive bytes tar len members) {j : Nat}
    (lt : j < members.length) :
    let k := loadInitrd bytes tar len inodes dirents
    (k.dirTbl (rootIno + j)).inode = rootIno + j ∧
      HoldsString (k.dirTbl (rootIno + j)).name (members.get ⟨j, lt⟩).path.bytes ∧
      (k.inoTbl (rootIno + j)).size = (members.get ⟨j, lt⟩).size ∧
      (0 < (members.get ⟨j, lt⟩).size →
        StartsWith (fun i => bytes ((k.inoTbl (rootIno + j)).addr + i)) (members.get ⟨j, lt⟩).contents) := by
  intro k
  have lt' : j < (headerAddrs tar (members.map TarMember.size)).length := by
    rw [headerAddrs_length, List.length_map]
    exact lt
  have added : Added bytes _ _ k := archive.added
  have inode := added.inode j lt'
  have dirent := added.dirent j lt'
  simp only at inode dirent
  rw [inode, dirent]
  exact ⟨rfl, (archive.placed j lt lt').entry _ _⟩

theorem TarArchive.count (archive : TarArchive bytes tar len members) :
    (loadInitrd bytes tar len inodes dirents).inoN = rootIno + members.length := by
  have added : Added bytes _ _ (loadInitrd bytes tar len inodes dirents) := archive.added
  rw [added.count, headerAddrs_length, List.length_map]

theorem TarArchive.search_eq (archive : TarArchive bytes tar len members) (path : CString) :
    (loadInitrd bytes tar len inodes dirents).search path.bytes =
      (members.findIdx? fun m => m.path = path).map (rootIno + ·) := by
  have count : (loadInitrd bytes tar len inodes dirents).inoN = rootIno + members.length :=
    archive.count
  have names := @searchLoop_eq (loadInitrd bytes tar len inodes dirents) path
    (members.map TarMember.path) (loadInitrd bytes tar len inodes dirents).inoN rootIno
    (by rw [count, List.length_map]) (by rw [count, List.length_map]; exact Nat.le_add_left _ _)
    (fun j lt => by
      have lt' : j < members.length := by
        rw [List.length_map] at lt
        exact lt
      simpa using (archive.entry lt').2.1)
  rw [List.findIdx?_map] at names
  exact names

/-- The ramdisk that the rest of the kernel works with is the one `load_initrd` found. -/
theorem TarArchive.lookup_eq (archive : TarArchive bytes tar len members) (path : CString) :
    loadelfInode (loadInitrd bytes tar len inodes dirents) path.bytes =
      Initrd.lookup ⟨bytes, members.map fun m => m.path.bytes,
        fun i => ((loadInitrd bytes tar len inodes dirents).inoTbl i).toInode⟩ path.bytes := by
  have same : (fun m : TarMember => decide (m.path = path)) =
      (· == path.bytes) ∘ fun m : TarMember => m.path.bytes := by
    funext m
    apply Bool.eq_iff_iff.mpr
    simp only [decide_eq_true_eq, Function.comp, beq_iff_eq]
    exact ⟨fun h => congrArg CString.bytes h, CString.ext⟩
  rw [loadelfInode, archive.search_eq path, Initrd.lookup, List.findIdx?_map, same]
  congr 1
  funext i
  exact Nat.add_comm _ _

/-- After `load_initrd` the tables hold the members in the order of the archive, with their
paths, sizes and contents, and each of the three searches finds the first member with a
path or fails when there is none. -/
theorem load_initrd_members (archive : TarArchive bytes tar len members) :
    let k := loadInitrd bytes tar len inodes dirents
    k.inoN = 2 + members.length ∧
      (k.inoN * inodeSize ≤ tableSize ∧ k.inoN * direntSize ≤ tableSize) ∧
      (∀ j (lt : j < members.length),
        HoldsString (k.dirTbl (2 + j)).name (members.get ⟨j, lt⟩).path.bytes ∧
        (k.inoTbl (2 + j)).size = (members.get ⟨j, lt⟩).size ∧
        (0 < (members.get ⟨j, lt⟩).size →
          StartsWith (fun i => bytes ((k.inoTbl (2 + j)).addr + i)) (members.get ⟨j, lt⟩).contents)) ∧
      ∀ path : CString,
        sysOpenInode k path.bytes = (members.findIdx? fun m => m.path = path).map (2 + ·) ∧
        fileOpenInode k path.bytes = (members.findIdx? fun m => m.path = path).map (2 + ·) ∧
        loadelfInode k path.bytes = (members.findIdx? fun m => m.path = path).map (2 + ·) := by
  intro k
  have count : k.inoN = rootIno + members.length := archive.count
  refine ⟨count, ?_, fun j lt => (archive.entry lt).2, fun path => ?_⟩
  · rw [count]
    exact tables_room.mpr archive.few
  · have found : k.search path.bytes = _ := archive.search_eq path
    have opened : (k.search path.bytes).map (fun i => (k.dirTbl i).inode) = k.search path.bytes := by
      rw [found, Option.map_map]
      cases index : members.findIdx? fun m => m.path = path with
      | none => rfl
      | some j =>
          have lt : j < members.length := (List.findIdx?_eq_some_iff_findIdx_eq.mp index).1
          exact congrArg some (archive.entry lt).1
    exact ⟨opened.trans found, opened.trans found, found⟩

end Members

def smallTar : Mem := fun x =>
  if x = 0 then 0x2E
  else if x = 1 then 0x2F
  else if x = 2 then 0x61
  else if 124 ≤ x ∧ x < 135 then (if x = 134 then 0x31 else 0x30)
  else if 257 ≤ x ∧ x < 265 then ustar.getD (x - 257) 0
  else if x = 512 then 7
  else 0

def smallTarFile : TarMember := ⟨⟨[0x2F, 0x61], by decide⟩, [7]⟩

theorem load_initrd_members_small :
    TarArchive smallTar 0 1536 [smallTarFile] ∧
      (loadInitrd smallTar 0 1536 zeroInodes zeroDirents).inoN = 3 ∧
      loadelfInode (loadInitrd smallTar 0 1536 zeroInodes zeroDirents) [0x2F, 0x61] = some 2 ∧
      sysOpenInode (loadInitrd smallTar 0 1536 zeroInodes zeroDirents) [0x2F, 0x62] = none := by
  have digits : StartsWith (fun j => smallTar (0 + 124 + j))
      [0x30, 0x30, 0x30, 0x30, 0x30, 0x30, 0x30, 0x30, 0x30, 0x30, 0x31] := by
    unfold StartsWith
    decide
  have member : MemberAt smallTar 0 smallTarFile := by
    refine ⟨?_, by decide, ?_, by decide, ⟨_, by decide, ?_, digits, by decide⟩, by decide, ?_⟩
    · unfold StartsWith
      decide
    · unfold HoldsString
      decide
    · unfold Octal
      decide +kernel
    · unfold StartsWith
      decide
  have archive : TarArchive smallTar 0 1536 [smallTarFile] := by
    refine ⟨by decide, ⟨1, by decide⟩, fun j lt lt' => ?_, by decide, fun j lo hi => ?_⟩
    · have first : j = 0 := Nat.lt_one_iff.mp lt
      subst first
      exact member
    · have blocks : memberBlocks ([smallTarFile].map TarMember.size) = 2 := by decide
      have last : j = 2 := by omega
      subst last
      decide
  obtain ⟨count, _, _, search⟩ := @load_initrd_members smallTar 0 1536 [smallTarFile] zeroInodes
    zeroDirents archive
  exact ⟨archive, count, (search ⟨[0x2F, 0x61], by decide⟩).2.2, (search ⟨[0x2F, 0x62], by decide⟩).1⟩

end Trunix
