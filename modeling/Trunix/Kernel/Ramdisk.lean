import Trunix.Kernel.Strings
import Trunix.Kernel.Elf

/-!
# The ramdisk

`load_initrd` of `kernel/fs.c` and the searches of `file_open`, `sys_open` and `loadelf`.
The archive is a module of the boot loader at the address `tar`.  The two tables are pages
from `alloc_pages`, which does not clear them: an entry keeps what was there in every field
that `load_initrd` does not write.
-/

set_option autoImplicit false

namespace Trunix

open Trunix.Lib

def dirsiz : Nat := 128

/-- `sizeof (struct dirent)`, `sizeof (struct inode)` and the size of either table. -/
def direntSize : Nat := 4 + dirsiz

def inodeSize : Nat := 36

def tableSize : Nat := 0x2000

structure Dirent where
  inode : Nat
  name : Nat → UInt8

inductive InodeType where
  | file
  | link
  | char
  | blk
  | dir
  | fifo
  deriving DecidableEq, Repr

/-- The fields of `struct inode` that `load_initrd` writes; `major` and `addr` are those the
rest of the kernel reads. -/
structure DiskInode extends Inode where
  uid : Nat
  gid : Nat
  mode : Nat
  type : InodeType
  size : Nat
  mTime : Nat
  deriving DecidableEq, Repr

/-- The loop of `oct2int`: at most `len` characters, up to a NUL.  An `int` is a word, and
the sums are taken modulo `2 ^ 32`. -/
def octLoop (str : Nat → UInt8) : Nat → Nat → Nat
  | 0, n => n
  | len + 1, n =>
      if str 0 = 0 then n
      else octLoop (fun i => str (i + 1)) len (u32 (n * 8 + (str 0).toNat + (0x100000000 - 48)))

def oct2int (str : Nat → UInt8) (len : Nat) : Nat := octLoop str len 0

/-- The string `"ustar\000" "00"` that the scan looks for. -/
def ustar : List UInt8 := [0x75, 0x73, 0x74, 0x61, 0x72, 0, 0x30, 0x30]

/-- The `switch` on the type flag; the field keeps its value for any other flag. -/
def inodeType (flag : UInt8) (old : InodeType) : InodeType :=
  if flag = 0x30 ∨ flag = 0 ∨ flag = 0x31 then .file
  else if flag = 0x32 then .link
  else if flag = 0x33 then .char
  else if flag = 0x34 then .blk
  else if flag = 0x35 then .dir
  else if flag = 0x36 then .fifo
  else old

structure Ramdisk where
  inoTbl : Nat → DiskInode
  dirTbl : Nat → Dirent
  inoN : Nat

def readDirent (bytes : Mem) (p i : Nat) (old : Dirent) : Dirent :=
  ⟨i, strlcpy old.name (fun j => bytes (p + 1 + j)) dirsiz⟩

def readInode (bytes : Mem) (p : Nat) (old : DiskInode) : DiskInode :=
  let size := oct2int (fun j => bytes (p + 124 + j)) 11
  { mode := oct2int (fun j => bytes (p + 100 + j)) 6 % 0x10000
    uid := oct2int (fun j => bytes (p + 108 + j)) 6 % 0x10000
    gid := oct2int (fun j => bytes (p + 116 + j)) 6 % 0x10000
    size := size
    mTime := oct2int (fun j => bytes (p + 136 + j)) 11
    type := inodeType (bytes (p + 156)) old.type
    major := oct2int (fun j => bytes (p + 329 + j)) 6
    addr := if 0 < size then p + 512 else 0 }

def isHeader (bytes : Mem) (p : Nat) : Prop := memcmp ustar (fun j => bytes (p + 257 + j)) = 0

instance (bytes : Mem) (p : Nat) : Decidable (isHeader bytes p) := Int.instDecidableEq _ _

/-- The body of the loop for a block with the magic. -/
def Ramdisk.add (bytes : Mem) (k : Ramdisk) (p : Nat) : Ramdisk :=
  { inoTbl := Function.update k.inoTbl k.inoN (readInode bytes p (k.inoTbl k.inoN))
    dirTbl := Function.update k.dirTbl k.inoN (readDirent bytes p k.inoN (k.dirTbl k.inoN))
    inoN := k.inoN + 1 }

/-- The loop over the blocks; its body runs at most `fuel` times. -/
def scanLoop (bytes : Mem) (stop : Nat) : Nat → Nat → Ramdisk → Ramdisk
  | 0, _, k => k
  | fuel + 1, p, k =>
      if p < stop then
        scanLoop bytes stop fuel (p + 512) (if ¬ isHeader bytes p then k else k.add bytes p)
      else k

/-- `inodes` and `dirents` are the pages as `alloc_pages` returns them. -/
def loadInitrd (bytes : Mem) (tar len : Nat) (inodes : Nat → DiskInode) (dirents : Nat → Dirent) :
    Ramdisk :=
  scanLoop bytes (tar + len) len tar ⟨inodes, dirents, rootIno⟩

/-! ## Searches -/

/-- The search for a path; its body runs at most `fuel` times. -/
def searchLoop (k : Ramdisk) (path : List UInt8) : Nat → Nat → Option Nat
  | 0, _ => none
  | fuel + 1, i =>
      if i < k.inoN then
        if strcmp path (k.dirTbl i).name = 0 then some i else searchLoop k path fuel (i + 1)
      else none

def Ramdisk.search (k : Ramdisk) (path : List UInt8) : Option Nat := searchLoop k path k.inoN rootIno

def fileOpenInode (k : Ramdisk) (path : List UInt8) : Option Nat :=
  (k.search path).map fun i => (k.dirTbl i).inode

def sysOpenInode (k : Ramdisk) (path : List UInt8) : Option Nat :=
  (k.search path).map fun i => (k.dirTbl i).inode

def loadelfInode (k : Ramdisk) (path : List UInt8) : Option Nat := k.search path

end Trunix
