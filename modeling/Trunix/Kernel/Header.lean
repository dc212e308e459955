import Trunix.Kernel.Archive
import Mathlib

/-!
# Headers of the archive

What `load_initrd` records of a valid ustar header.  A header has its name and its numbers
in fields of fixed width: the name fills its field or ends with a NUL, and a number is
followed by NULs or spaces to the end of its field.  `oct2int` counts characters instead:
it stops at a NUL only, takes a space for a digit, and may miss the last digit of a field.
-/

set_option autoImplicit false

namespace Trunix

open Trunix.Lib

/-- A number in the field of `width` bytes at `a`; a blank field has no digits. -/
structure OctalField (bytes : Mem) (a width : Nat) (digits : List UInt8) : Prop where
  room : digits.length < width
  octal : Octal digits
  starts : StartsWith (fun j => bytes (a + j)) digits
  ended : ∀ j < width, digits.length ≤ j → bytes (a + j) = 0 ∨ bytes (a + j) = 0x20

structure HeaderText where
  name : List UInt8
  mode : List UInt8
  uid : List UInt8
  gid : List UInt8
  size : List UInt8
  mTime : List UInt8
  devMajor : List UInt8

/-- The block at `p` is a valid header with this text, and the values fit the inode. -/
structure ValidHeader (bytes : Mem) (p : Nat) (h : HeaderText) : Prop where
  magic : StartsWith (fun j => bytes (p + 257 + j)) ustar
  plain : 0 ∉ h.name
  named : 0 < h.name.length ∧ h.name.length ≤ 100
  name : StartsWith (fun j => bytes (p + j)) h.name
  nameEnd : h.name.length < 100 → bytes (p + h.name.length) = 0
  mode : 0 < h.mode.length ∧ OctalField bytes (p + 100) 8 h.mode
  uid : OctalField bytes (p + 108) 8 h.uid
  gid : OctalField bytes (p + 116) 8 h.gid
  size : OctalField bytes (p + 124) 12 h.size
  mTime : OctalField bytes (p + 136) 12 h.mTime
  devMajor : OctalField bytes (p + 329) 8 h.devMajor
  modeFits : octalValue h.mode < 0x10000
  uidFits : octalValue h.uid < 0x8000
  gidFits : octalValue h.gid < 0x8000
  sizeFits : octalValue h.size < 0x100000000
  mTimeFits : octalValue h.mTime < 0x80000000

/-- Entry `i` has the name without its first byte, and the numbers, and the entries are
entries of the tables. -/
structure Recorded (k : Ramdisk) (i : Nat) (h : HeaderText) : Prop where
  name : HoldsString (k.dirTbl i).name h.name.tail
  mode : (k.inoTbl i).mode = octalValue h.mode
  uid : (k.inoTbl i).uid = octalValue h.uid
  gid : (k.inoTbl i).gid = octalValue h.gid
  size : (k.inoTbl i).size = octalValue h.size
  mTime : (k.inoTbl i).mTime = octalValue h.mTime
  major : (k.inoTbl i).major = octalValue h.devMajor
  room : k.inoN * inodeSize ≤ tableSize ∧ k.inoN * direntSize ≤ tableSize

/-- `oct2int` gets the number right when it reads `n` characters of the field at `a`. -/
def ReadRight (bytes : Mem) (a n : Nat) (digits : List UInt8) : Prop :=
  digits.length = n ∨ digits.length < n ∧ bytes (a + digits.length) = 0 ∨
    n < digits.length ∧ octalValue digits = 0

/-! ## The value of digits -/

theorem octalFold_lt : ∀ (digits : List UInt8) (n : Nat), Octal digits →
    digits.foldl (fun n d => n * 8 + (d.toNat - 48)) n < (n + 1) * 8 ^ digits.length := by
  intro digits
  induction digits with
  | nil => intro n _; simp
  | cons d rest ih =>
      intro n octal
      have digit := octal d List.mem_cons_self
      have later := ih (n * 8 + (d.toNat - 48)) (fun e mem => octal e (List.mem_cons_of_mem _ mem))
      rw [List.foldl_cons, List.length_cons, Nat.pow_succ']
      calc rest.foldl (fun n d => n * 8 + (d.toNat - 48)) (n * 8 + (d.toNat - 48))
          < (n * 8 + (d.toNat - 48) + 1) * 8 ^ rest.length := later
        _ ≤ ((n + 1) * 8) * 8 ^ rest.length := Nat.mul_le_mul_right _ (by omega)
        _ = (n + 1) * (8 * 8 ^ rest.length) := Nat.mul_assoc _ _ _

theorem octalValue_lt {digits : List UInt8} (octal : Octal digits) : octalValue digits < 8 ^ digits.length := by
  have bound := octalFold_lt digits 0 octal
  rw [Nat.zero_add, Nat.one_mul] at bound
  exact bound

/-- A digit that is not read divides the value by eight. -/
theorem octalValue_take {digits : List UInt8} {n : Nat} (more : n < digits.length) :
    8 * octalValue (digits.take n) ≤ octalValue digits := by
  have split : digits = digits.take n ++ digits.drop n := (List.take_append_drop n digits).symm
  cases rest : digits.drop n with
  | nil =>
      have length := congrArg List.length rest
      rw [List.length_drop, List.length_nil] at length
      omega
  | cons d tail =>
      have value : octalValue digits =
          tail.foldl (fun n d => n * 8 + (d.toNat - 48)) (octalValue (digits.take n) * 8 + (d.toNat - 48)) := by
        conv_lhs => rw [split, rest]
        rw [octalValue, List.foldl_append, List.foldl_cons]
        rfl
      have later := le_octalFold tail (octalValue (digits.take n) * 8 + (d.toNat - 48))
      omega

/-! ## oct2int on a field -/

/-- What is read behind the digits of `v`, when a space comes first, is `v` plus an odd
multiple of `7 * v - 16`. -/
def Shifted (v : Nat) (r : Nat) : Prop :=
  ∃ s : Int, s % 2 = 1 ∧ (4294967296 : Int) ∣ r - (v + (7 * v - 16) * s)

theorem Shifted.space {v r : Nat} (h : r = v ∨ Shifted v r) :
    Shifted v (u32 (r * 8 + 32 + (0x100000000 - 48))) := by
  have next : ∀ t : Int, (4294967296 : Int) ∣ t - r →
      (4294967296 : Int) ∣ (u32 (r * 8 + 32 + (0x100000000 - 48)) : Nat) - (8 * t - 16) := by
    intro t near
    simp only [u32]
    omega
  rcases h with rfl | ⟨s, odd, near⟩
  · refine ⟨1, rfl, ?_⟩
    have step := next r (by simp)
    have same : (8 * (r : Int) - 16) = r + (7 * r - 16) * 1 := by ring
    rw [same] at step
    exact step
  · refine ⟨1 + 8 * s, by omega, ?_⟩
    have step := next (v + (7 * v - 16) * s) (by rw [← Int.dvd_neg]; simpa using near)
    have same : (8 * ((v : Int) + (7 * v - 16) * s) - 16) = v + (7 * v - 16) * (1 + 8 * s) := by ring
    rw [same] at step
    exact step

theorem octLoop_shifted {v : Nat} : ∀ (len : Nat) (str : Nat → UInt8) (r : Nat),
    (∀ j < len, str j = 0 ∨ str j = 0x20) → Shifted v r → Shifted v (octLoop str len r) := by
  intro len
  induction len with
  | zero => intro str r _ h; exact h
  | succ len ih =>
      intro str r blank h
      rw [octLoop]
      rcases blank 0 (Nat.succ_pos len) with nul | space
      · rw [if_pos nul]
        exact h
      · have nonzero : ¬ str 0 = 0 := by
          rw [space]
          decide
        have value : (str 0).toNat = 32 := by
          rw [space]
          rfl
        rw [if_neg nonzero, value]
        exact ih _ _ (fun j lt => blank (j + 1) (Nat.succ_lt_succ lt)) (Shifted.space (.inr h))

/-- Such a value is never `v` again, unless `7 * v` is 16. -/
theorem Shifted.ne {v r w : Nat} (h : Shifted v r) (width : ∃ e, e ≤ 32 ∧ w = 2 ^ e)
    (other : ¬ (w : Int) ∣ 7 * v - 16) : r % w ≠ v := by
  intro same
  obtain ⟨s, odd, near⟩ := h
  obtain ⟨e, le, rfl⟩ := width
  apply other
  have divides : ((2 ^ e : Nat) : Int) ∣ 4294967296 := by
    have power : (2 : Nat) ^ e ∣ 2 ^ 32 := Nat.pow_dvd_pow 2 le
    exact Int.natCast_dvd_natCast.mpr power
  have back : ((2 ^ e : Nat) : Int) ∣ (r : Int) - v := by
    rw [← same, Int.natCast_emod]
    exact Int.dvd_self_sub_emod
  have product : ((2 ^ e : Nat) : Int) ∣ (7 * v - 16) * s := by
    have both := Int.dvd_sub back (Int.dvd_trans divides near)
    have value : (r : Int) - v - (r - (v + (7 * v - 16) * s)) = (7 * v - 16) * s := by ring
    rw [value] at both
    exact both
  have coprime : IsCoprime ((2 ^ e : Nat) : Int) s := by
    rw [Nat.cast_pow]
    apply IsCoprime.pow_left
    exact ⟨-(s / 2), 1, by rw [Nat.cast_ofNat]; omega⟩
  exact coprime.dvd_of_dvd_mul_right product

/-! ## When a field is read right -/

section Field

variable {bytes : Mem} {a width : Nat} {digits : List UInt8}

theorem StartsWith.take {s : Nat → UInt8} {l : List UInt8} (h : StartsWith s l) (n : Nat) :
    StartsWith s (l.take n) := by
  intro i lt
  have inList : i < l.length := Nat.lt_of_lt_of_le lt (List.length_take_le' _ _)
  rw [h i inList]
  exact (List.getElem_take ..).symm

theorem OctalField.read_digits (field : OctalField bytes a width digits) {n : Nat} (le : n ≤ digits.length)
    (small : octalValue (digits.take n) < 0x100000000) :
    oct2int (fun j => bytes (a + j)) n = octalValue (digits.take n) := by
  have length : (digits.take n).length = n := List.length_take_of_le le
  have octal : Octal (digits.take n) := fun d mem => field.octal d (List.mem_of_mem_take mem)
  have read := octLoop_eq (digits.take n) _ 0 octal (field.starts.take n) small
  rw [length] at read
  exact read

theorem OctalField.read_behind (field : OctalField bytes a width digits) {n : Nat} (lt : digits.length < n)
    (small : octalValue digits < 0x100000000) :
    oct2int (fun j => bytes (a + j)) n =
      octLoop (fun j => bytes (a + (digits.length + j))) (n - digits.length) (octalValue digits) := by
  have read := octLoop_digits digits _ 0 (n - digits.length) field.octal field.starts small
  have count : digits.length + (n - digits.length) = n := by omega
  rw [count] at read
  exact read

/-- What `oct2int` makes of the first `n` characters of a field, cut to the width of the
inode's field, is the number exactly where it is read right. -/
theorem OctalField.right_iff (field : OctalField bytes a width digits) {n w : Nat} (inside : n ≤ width)
    (power : ∃ e, e ≤ 32 ∧ w = 2 ^ e) (fits : octalValue digits < w)
    (never : ∀ v < 8 ^ (n - 1), ¬ (w : Int) ∣ 7 * (v : Nat) - 16) :
    oct2int (fun j => bytes (a + j)) n % w = octalValue digits ↔ ReadRight bytes a n digits := by
  have word : w ≤ 0x100000000 := by
    obtain ⟨e, le, rfl⟩ := power
    exact Nat.pow_le_pow_right (by decide) le
  unfold ReadRight
  rcases Nat.lt_trichotomy digits.length n with shorter | same | longer
  · rw [field.read_behind shorter (by omega)]
    have count : n - digits.length = n - digits.length - 1 + 1 := by omega
    rcases field.ended digits.length field.room (Nat.le_refl _) with nul | space
    · have stop : octLoop (fun j => bytes (a + (digits.length + j))) (n - digits.length) (octalValue digits) =
          octalValue digits := by
        rw [count, octLoop, Nat.add_zero, if_pos nul]
      rw [stop, Nat.mod_eq_of_lt fits]
      exact iff_of_true rfl (.inr (.inl ⟨shorter, nul⟩))
    · have nonzero : ¬ bytes (a + digits.length) = 0 := by
        rw [space]
        decide
      have value : (bytes (a + digits.length)).toNat = 32 := by
        rw [space]
        rfl
      have shifted : Shifted (octalValue digits)
          (octLoop (fun j => bytes (a + (digits.length + j))) (n - digits.length) (octalValue digits)) := by
        rw [count, octLoop, Nat.add_zero, if_neg nonzero, value]
        apply octLoop_shifted
        · intro j lt
          exact field.ended (digits.length + (j + 1)) (by omega) (by omega)
        · exact Shifted.space (.inl rfl)
      have bound : octalValue digits < 8 ^ (n - 1) :=
        Nat.lt_of_lt_of_le (octalValue_lt field.octal) (Nat.pow_le_pow_right (by decide) (by omega))
      refine iff_of_false (shifted.ne power (never _ bound)) ?_
      rintro (equal | ⟨_, nul⟩ | ⟨longer, _⟩)
      · omega
      · exact nonzero nul
      · omega
  · have whole : digits.take n = digits := List.take_of_length_le (by omega)
    have read := field.read_digits (n := n) (by omega) (by rw [whole]; omega)
    rw [read, whole, Nat.mod_eq_of_lt fits]
    exact iff_of_true rfl (.inl same)
  · have eighth := octalValue_take longer
    rw [field.read_digits (by omega) (by omega), Nat.mod_eq_of_lt (by omega)]
    constructor
    · intro equal
      exact .inr (.inr ⟨longer, by omega⟩)
    · rintro (equal | ⟨shorter, _⟩ | ⟨_, zero⟩)
      · omega
      · omega
      · omega

end Field

theorem octLoop_lt : ∀ (len : Nat) (str : Nat → UInt8) (n : Nat), n < 0x100000000 →
    octLoop str len n < 0x100000000 := by
  intro len
  induction len with
  | zero => intro str n word; exact word
  | succ len ih =>
      intro str n word
      rw [octLoop]
      by_cases nul : str 0 = 0
      · rw [if_pos nul]
        exact word
      · rw [if_neg nul]
        exact ih _ _ (Nat.mod_lt _ (by decide))

/-! ## The header in the tables -/

section Header

variable {bytes : Mem} {p : Nat} {h : HeaderText}

theorem OctalField.six_iff {a : Nat} {digits : List UInt8} (field : OctalField bytes a 8 digits)
    (fits : octalValue digits < 0x10000) :
    oct2int (fun j => bytes (a + j)) 6 % 0x10000 = octalValue digits ↔ ReadRight bytes a 6 digits := by
  apply field.right_iff (by decide) ⟨16, by decide, rfl⟩ fits
  intro v small
  omega

theorem OctalField.word_iff {a width n : Nat} {digits : List UInt8} (field : OctalField bytes a width digits)
    (inside : n ≤ width) (fits : octalValue digits < 0x100000000)
    (never : ∀ v < 8 ^ (n - 1), ¬ (0x100000000 : Int) ∣ 7 * (v : Nat) - 16) :
    oct2int (fun j => bytes (a + j)) n = octalValue digits ↔ ReadRight bytes a n digits := by
  have word : oct2int (fun j => bytes (a + j)) n % 0x100000000 = oct2int (fun j => bytes (a + j)) n :=
    Nat.mod_eq_of_lt (octLoop_lt _ _ _ (by decide))
  rw [← word]
  exact field.right_iff inside ⟨32, by decide, rfl⟩ fits never

theorem ValidHeader.name_iff (valid : ValidHeader bytes p h) (i : Nat) (old : Dirent) :
    HoldsString (readDirent bytes p i old).name h.name.tail ↔ h.name.length < 100 := by
  have plain : 0 ∉ h.name.tail := fun mem => valid.plain (List.mem_of_mem_tail mem)
  have length : h.name.tail.length = h.name.length - 1 := List.length_tail
  have named := valid.named
  have wide : dirsiz = 128 := rfl
  have starts : StartsWith (fun j => bytes (p + 1 + j)) h.name.tail := by
    intro j lt
    have byte : bytes (p + (j + 1)) = h.name.get ⟨j + 1, by omega⟩ := valid.name (j + 1) (by omega)
    have place : p + (j + 1) = p + 1 + j := by omega
    rw [place] at byte
    exact byte.trans (List.getElem_tail lt).symm
  have behind : p + 1 + h.name.tail.length = p + h.name.length := by omega
  constructor
  · intro holds
    by_contra full
    have last : (readDirent bytes p i old).name h.name.tail.length = bytes (p + h.name.length) := by
      have inside : 0 ≤ h.name.tail.length ∧ h.name.tail.length < 0 + dirsiz ∧
          ∀ j, 0 ≤ j → j < h.name.tail.length → bytes (p + 1 + j) ≠ 0 := by
        refine ⟨Nat.zero_le _, by omega, fun j _ lt zero => ?_⟩
        have byte : h.name.tail.get ⟨j, lt⟩ = 0 := (starts j lt).symm.trans zero
        exact plain (byte ▸ List.get_mem _ ⟨j, lt⟩)
      have copied := strlcpyLoop_eq (fun j => bytes (p + 1 + j)) dirsiz 0 old.name h.name.tail.length
      rw [if_pos inside, behind] at copied
      exact copied
    obtain ⟨some, field⟩ := valid.mode
    have first : bytes (p + h.name.length) = h.mode.get ⟨0, some⟩ := by
      have place : p + h.name.length = p + 100 + 0 := by omega
      rw [place]
      exact field.starts 0 some
    have digit := field.octal _ (List.get_mem h.mode ⟨0, some⟩)
    rw [← first, ← last, holds.2] at digit
    exact absurd digit.1 (by decide)
  · intro short
    have nul := valid.nameEnd short
    rw [← behind] at nul
    exact strlcpy_holds plain (by omega) ⟨starts, nul⟩

theorem ValidHeader.recorded_iff (valid : ValidHeader bytes p h) {k : Ramdisk} {i : Nat} {inode : DiskInode}
    {dirent : Dirent} (madeInode : k.inoTbl i = readInode bytes p inode)
    (madeDirent : k.dirTbl i = readDirent bytes p i dirent) :
    Recorded k i h ↔ h.name.length < 100 ∧ ReadRight bytes (p + 100) 6 h.mode ∧
      ReadRight bytes (p + 108) 6 h.uid ∧ ReadRight bytes (p + 116) 6 h.gid ∧
      ReadRight bytes (p + 124) 11 h.size ∧ ReadRight bytes (p + 136) 11 h.mTime ∧
      ReadRight bytes (p + 329) 6 h.devMajor ∧
      (k.inoN * inodeSize ≤ tableSize ∧ k.inoN * direntSize ≤ tableSize) := by
  have uidFits := valid.uidFits
  have gidFits := valid.gidFits
  have mTimeFits := valid.mTimeFits
  have majorFits : octalValue h.devMajor < 8 ^ 7 :=
    Nat.lt_of_lt_of_le (octalValue_lt valid.devMajor.octal)
      (Nat.pow_le_pow_right (by decide) (Nat.le_of_lt_succ valid.devMajor.room))
  rw [← valid.name_iff i dirent, ← valid.mode.2.six_iff valid.modeFits,
    ← valid.uid.six_iff (by omega), ← valid.gid.six_iff (by omega),
    ← valid.size.word_iff (by decide) valid.sizeFits (by omega),
    ← valid.mTime.word_iff (by decide) (by omega) (by omega),
    ← valid.devMajor.word_iff (by decide) (by omega) (by omega), ← madeDirent]
  constructor
  · intro r
    have mode := r.mode
    have uid := r.uid
    have gid := r.gid
    have size := r.size
    have mTime := r.mTime
    have major := r.major
    rw [madeInode] at mode uid gid size mTime major
    exact ⟨r.name, mode, uid, gid, size, mTime, major, r.room⟩
  · rintro ⟨name, mode, uid, gid, size, mTime, major, room⟩
    refine ⟨name, ?_, ?_, ?_, ?_, ?_, ?_, room⟩ <;> rw [madeInode]
    · exact mode
    · exact uid
    · exact gid
    · exact size
    · exact mTime
    · exact major

end Header

/-- What is recorded of the valid header in block `b` is right exactly when the name is
shorter than its field, each number has as many digits as are read or is ended by a NUL
before, and the tables have room for all headers.  A number with a digit too many is right
only when it is zero. -/
theorem header_decoded_iff {bytes : Mem} {tar len b : Nat} {inodes : Nat → DiskInode}
    {dirents : Nat → Dirent} {h : HeaderText} (inside : 512 * b < len)
    (valid : ValidHeader bytes (tar + 512 * b) h) :
    Recorded (loadInitrd bytes tar len inodes dirents) (rootIno + (headersFrom bytes b tar).length) h ↔
      h.name.length < 100 ∧
      ReadRight bytes (tar + 512 * b + 100) 6 h.mode ∧
      ReadRight bytes (tar + 512 * b + 108) 6 h.uid ∧
      ReadRight bytes (tar + 512 * b + 116) 6 h.gid ∧
      ReadRight bytes (tar + 512 * b + 124) 11 h.size ∧
      ReadRight bytes (tar + 512 * b + 136) 11 h.mTime ∧
      ReadRight bytes (tar + 512 * b + 329) 6 h.devMajor ∧
      (headersFrom bytes ((len + 511) / 512) tar).length ≤ 60 := by
  have scanned := loadInitrd_scanned bytes tar len inodes dirents
  have blocks : (len + 511) / 512 = b + ((len + 511) / 512 - b - 1 + 1) := by omega
  have header : isHeader bytes (tar + 512 * b) := isHeader_iff.mpr valid.magic
  have split : headersFrom bytes ((len + 511) / 512) tar = headersFrom bytes b tar ++
      (tar + 512 * b) :: headersFrom bytes ((len + 511) / 512 - b - 1) (tar + 512 * b + 512) := by
    conv_lhs => rw [blocks, headersFrom_append, headersFrom, if_pos header]
    rfl
  have lt : (headersFrom bytes b tar).length < (headersFrom bytes ((len + 511) / 512) tar).length := by
    rw [split, List.length_append, List.length_cons]
    omega
  have here : (headersFrom bytes ((len + 511) / 512) tar).get ⟨(headersFrom bytes b tar).length, lt⟩ =
      tar + 512 * b := by
    simp only [split, List.get_eq_getElem, List.getElem_append_right (Nat.le_refl _), Nat.sub_self,
      List.getElem_cons_zero]
  have madeInode := scanned.inode _ lt
  have madeDirent := scanned.dirent _ lt
  rw [here] at madeInode madeDirent
  rw [← tables_room, ← scanned.count]
  exact valid.recorded_iff madeInode madeDirent

/-- The header of the empty file `./a` with the given digits of its mode; the other numbers
are zero, with as many digits as `oct2int` reads. -/
def modeHeader (mode : List UInt8) : Mem := fun x =>
  if x < 3 then [0x2E, 0x2F, 0x61].getD x 0
  else if 100 ≤ x ∧ x < 108 then mode.getD (x - 100) 0
  else if 108 ≤ x ∧ x < 114 ∨ 116 ≤ x ∧ x < 122 ∨ 124 ≤ x ∧ x < 135 ∨ 136 ≤ x ∧ x < 147 then 0x30
  else if 257 ≤ x ∧ x < 265 then ustar.getD (x - 257) 0
  else if 329 ≤ x ∧ x < 335 then 0x30
  else 0

def modeText (mode : List UInt8) : HeaderText :=
  ⟨[0x2E, 0x2F, 0x61], mode, List.replicate 6 0x30, List.replicate 6 0x30, List.replicate 11 0x30,
    List.replicate 11 0x30, List.replicate 6 0x30⟩

theorem OctalField.zeros {bytes : Mem} {a width n : Nat} (room : n < width)
    (inside : ∀ j < n, bytes (a + j) = 0x30) (behind : ∀ j < width, n ≤ j → bytes (a + j) = 0) :
    OctalField bytes a width (List.replicate n 0x30) where
  room := by
    rw [List.length_replicate]
    exact room
  octal := by
    intro d mem
    rw [List.eq_of_mem_replicate mem]
    decide
  starts := by
    intro j lt
    rw [List.length_replicate] at lt
    rw [List.get_eq_getElem, List.getElem_replicate]
    exact inside j lt
  ended := by
    intro j lt le
    rw [List.length_replicate] at le
    exact .inl (behind j lt le)

theorem octalValue_zeros : ∀ n : Nat, octalValue (List.replicate n 0x30) = 0 := by
  intro n
  induction n with
  | zero => rfl
  | succ n ih => exact ih

theorem modeHeader_valid {mode : List UInt8} (some : 0 < mode.length) (room : mode.length < 8)
    (octal : Octal mode) (fits : octalValue mode < 0x10000) :
    ValidHeader (modeHeader mode) (0 + 512 * 0) (modeText mode) where
  magic := by
    intro j lt
    have inMagic : j < 8 := lt
    interval_cases j <;> rfl
  plain := (by decide : 0 ∉ ([0x2E, 0x2F, 0x61] : List UInt8))
  named := (by decide : 0 < 3 ∧ 3 ≤ 100)
  name := by
    intro j lt
    have inName : j < 3 := lt
    interval_cases j <;> rfl
  nameEnd := fun _ => rfl
  mode := by
    have inField : ∀ j < 8, modeHeader mode (0 + 512 * 0 + 100 + j) = mode.getD j 0 := by
      intro j lt
      have first : ¬ 0 + 512 * 0 + 100 + j < 3 := by omega
      have second : 100 ≤ 0 + 512 * 0 + 100 + j ∧ 0 + 512 * 0 + 100 + j < 108 := by omega
      have index : 0 + 512 * 0 + 100 + j - 100 = j := by omega
      rw [modeHeader, if_neg first, if_pos second, index]
    refine ⟨some, room, octal, ?_, ?_⟩
    · intro j lt
      exact (inField j (Nat.lt_trans lt room)).trans (List.getD_eq_getElem _ _ lt)
    · intro j lt le
      exact .inl ((inField j lt).trans (List.getD_eq_default _ _ le))
  uid := by
    refine OctalField.zeros (by decide) (fun j lt => ?_) (fun j lt le => ?_)
    · interval_cases j <;> rfl
    · interval_cases j <;> rfl
  gid := by
    refine OctalField.zeros (by decide) (fun j lt => ?_) (fun j lt le => ?_)
    · interval_cases j <;> rfl
    · interval_cases j <;> rfl
  size := by
    refine OctalField.zeros (by decide) (fun j lt => ?_) (fun j lt le => ?_)
    · interval_cases j <;> rfl
    · interval_cases j
      rfl
  mTime := by
    refine OctalField.zeros (by decide) (fun j lt => ?_) (fun j lt le => ?_)
    · interval_cases j <;> rfl
    · interval_cases j
      rfl
  devMajor := by
    refine OctalField.zeros (by decide) (fun j lt => ?_) (fun j lt le => ?_)
    · interval_cases j <;> rfl
    · interval_cases j <;> rfl
  modeFits := fits
  uidFits := (octalValue_zeros 6).trans_lt (by decide)
  gidFits := (octalValue_zeros 6).trans_lt (by decide)
  sizeFits := (octalValue_zeros 11).trans_lt (by decide)
  mTimeFits := (octalValue_zeros 11).trans_lt (by decide)

theorem header_decoded_iff_six :
    (0 : Nat) + 512 * 0 < 1024 ∧
      ValidHeader (modeHeader [0x30, 0x30, 0x30, 0x36, 0x34, 0x34]) (0 + 512 * 0)
        (modeText [0x30, 0x30, 0x30, 0x36, 0x34, 0x34]) ∧
      Recorded
        (loadInitrd (modeHeader [0x30, 0x30, 0x30, 0x36, 0x34, 0x34]) 0 1024 zeroInodes zeroDirents) 2
        (modeText [0x30, 0x30, 0x30, 0x36, 0x34, 0x34]) := by
  have valid : ValidHeader (modeHeader [0x30, 0x30, 0x30, 0x36, 0x34, 0x34]) (0 + 512 * 0)
      (modeText [0x30, 0x30, 0x30, 0x36, 0x34, 0x34]) := by
    refine modeHeader_valid (by decide) (by decide) ?_ (by decide)
    unfold Octal
    decide +kernel
  refine ⟨by decide, valid, ?_⟩
  have decoded := @header_decoded_iff _ 0 1024 0 zeroInodes zeroDirents _ (by decide) valid
  exact decoded.mpr ⟨by decide, .inl rfl, .inl rfl, .inl rfl, .inl rfl, .inl rfl, .inl rfl, by decide +kernel⟩

/-- The mode `0000644`, with all seven digits that the field has room for, is recorded as
`000064`. -/
theorem seven_digits_lost : ¬ ∀ (bytes : Mem) (tar len b : Nat) (inodes : Nat → DiskInode)
    (dirents : Nat → Dirent) (h : HeaderText), 512 * b < len → ValidHeader bytes (tar + 512 * b) h →
    Recorded (loadInitrd bytes tar len inodes dirents) (rootIno + (headersFrom bytes b tar).length) h := by
  intro decodes
  have valid : ValidHeader (modeHeader [0x30, 0x30, 0x30, 0x30, 0x36, 0x34, 0x34]) (0 + 512 * 0)
      (modeText [0x30, 0x30, 0x30, 0x30, 0x36, 0x34, 0x34]) := by
    refine modeHeader_valid (by decide) (by decide) ?_ (by decide)
    unfold Octal
    decide +kernel
  have recorded := decodes _ 0 1024 0 zeroInodes zeroDirents _ (by decide) valid
  have read : ((loadInitrd (modeHeader [0x30, 0x30, 0x30, 0x30, 0x36, 0x34, 0x34]) 0 1024 zeroInodes
      zeroDirents).inoTbl 2).mode = 0x34 := by
    decide +kernel
  have encoded : octalValue (modeText [0x30, 0x30, 0x30, 0x30, 0x36, 0x34, 0x34]).mode = 0x1A4 := by decide
  exact absurd (read.symm.trans (recorded.mode.trans encoded)) (by decide)

end Trunix
