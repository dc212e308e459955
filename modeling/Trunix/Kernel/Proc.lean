import Trunix.Kernel.Elf
import Trunix.Lib.Tailq

/-!
# Processes

The state of `kernel/proc.c` and its operations: creation, `fork`, `execve`, `exit`, the
scheduler, and with them `sys_mmap` of `kernel/mem.c` and `sys_open` of `kernel/fs.c`.
Structures that live in kernel pages and on the kernel heap (processes, trap frames,
open files, region lists) are kept by their addresses as values of their own, next to
the bytes of the store.  All gates are interrupt gates, so a system call runs to its
return, or to the switch to the scheduler, without being interrupted.
-/

set_option autoImplicit false

namespace Trunix

open Trunix.Lib

def kstackSize : Nat := 0x1000

def maxfiles : Nat := 16

def sizeofProc : Nat := 104

def sizeofTrapframe : Nat := 68

inductive PState where
  | running
  | ready
  | sleeping
  | blocked
  | dead
  deriving DecidableEq, Repr

structure Trapframe where
  edi : Nat
  esi : Nat
  ebp : Nat
  unusedEsp : Nat
  ebx : Nat
  edx : Nat
  ecx : Nat
  eax : Nat
  gs : Nat
  fs : Nat
  es : Nat
  ds : Nat
  eip : Nat
  cs : Nat
  eflags : Nat
  esp : Nat
  ss : Nat
  deriving DecidableEq, Repr

/-- `struct proc` without the saved context, which only `switch_to` uses. -/
structure Proc where
  pid : Nat
  cr3 : Nat
  kstack : Nat
  mmapBase : Nat
  tf : Nat
  ofile : Fin maxfiles → Nat
  state : PState
  parent : Nat
  entries : TailqEntry

/-- An open file; the inode is its index in the table. -/
structure File where
  inode : Nat
  data : Nat
  deriving DecidableEq, Repr

structure ProcMmap where
  regions : List VmRegion
  sz : Nat
  deriving DecidableEq, Repr

structure Kernel where
  store : Store
  procs : Nat → Proc
  frames : Nat → Trapframe
  files : Nat → File
  /-- the `addr` field of a `struct fbdev` -/
  fbdevs : Nat → Nat
  /-- `GETMEMMAP` of the process with this number -/
  memtab : Nat → ProcMmap
  /-- the number of the next process -/
  pid : Nat
  tqhFirst : Nat
  tqhLast : TailqRef
  curthread : Nat
  idle : Nat
  /-- the local variable `p` of the scheduler -/
  dispatched : Nat
  cr3 : Nat
  esp0 : Nat
  /-- every process made by `initsys` or by a `fork` that returned; no function reads it -/
  created : List Nat

/-- What the boot leaves for the kernel and nothing changes. -/
structure Env where
  initrd : Initrd
  kpagedir : Nat
  framebuffer : Nat

def Kernel.proc (k : Kernel) : Proc := k.procs k.curthread

def Kernel.setProc (k : Kernel) (p : Nat) (v : Proc) : Kernel :=
  { k with procs := Function.update k.procs p v }

def Kernel.setMemtab (k : Kernel) (pid : Nat) (v : ProcMmap) : Kernel :=
  { k with memtab := Function.update k.memtab pid v }

def Kernel.setFrame (k : Kernel) (tf : Nat) (v : Trapframe) : Kernel :=
  { k with frames := Function.update k.frames tf v }

/-! ## The run queue -/

def Kernel.queue (k : Kernel) : Tailq := ⟨k.tqhFirst, k.tqhLast, fun p => (k.procs p).entries⟩

def Kernel.setQueue (k : Kernel) (q : Tailq) : Kernel :=
  { k with
    tqhFirst := q.first
    tqhLast := q.last
    procs := fun p => { k.procs p with entries := q.entry p } }

/-- A queue operation; a store through `NULL` faults. -/
def Kernel.editQueue (k : Kernel) (edited : Option Tailq) : Except Halt Kernel :=
  match edited with
  | none => .error .fault
  | some q => .ok (k.setQueue q)

def enqueue (k : Kernel) (task : Nat) : Except Halt Kernel :=
  k.editQueue (k.queue.insertTail task)

/-- The search through the queue is bounded like every list walk of the kernel. -/
def queueLimit : Nat := 0x100000000

/-- The loop of `scheduler` up to the switch to the process it found. -/
def scheduler (k : Kernel) : Except Halt Kernel :=
  match k.queue.search (fun p => (k.procs p).state = .ready) queueLimit k.tqhFirst with
  | none => .error .loops
  | some none => .error .idle
  | some (some p) => do
      let k := { k with curthread := p }
      let k ← k.editQueue (k.queue.remove p)
      let k := k.setProc p { k.procs p with state := .running }
      return { k with cr3 := (k.procs p).cr3, esp0 := p, dispatched := p }

/-- `yield`, and the scheduler from its switch back to its next switch. -/
def yield (k : Kernel) : Except Halt Kernel := do
  let k :=
    if k.proc.state = .running then k.setProc k.curthread { k.proc with state := .ready } else k
  let k ← enqueue k k.dispatched
  scheduler k

/-! ## Creation -/

def Trapframe.zero : Trapframe := ⟨0, 0, 0, 0, 0, 0, 0, 0, 0, 0, 0, 0, 0, 0, 0, 0, 0⟩

def Proc.zero : Proc := ⟨0, 0, 0, 0, 0, fun _ => 0, .running, 0, ⟨0, .null⟩⟩

/-- The process lies at the top of its kernel stack and its trap frame right below. -/
def allocThread (k : Kernel) : Except Halt (Nat × Kernel) :=
  let (kstack, s) := k.store.allocPages kstackSize
  if kstack = 0 then .error .assertion
  else do
    let s ← s.memset kstack 0 kstackSize
    let p := kstack + kstackSize - sizeofProc
    let tf := p - sizeofTrapframe
    let k := { k with store := s }
    let k := k.setProc p { Proc.zero with kstack := kstack, tf := tf }
    return (p, k.setFrame tf .zero)

def procCreate (k : Kernel) : Except Halt (Nat × Kernel) := do
  let (p, k) ← allocThread k
  let tf := (k.procs p).tf
  let k := k.setFrame tf { k.frames tf with
    gs := (4 * 8) ||| 3, fs := (4 * 8) ||| 3, es := (4 * 8) ||| 3, ds := (4 * 8) ||| 3
    cs := (3 * 8) ||| 3, eflags := 0x0202, ss := (4 * 8) ||| 3 }
  return (p, k.setProc p { k.procs p with state := .ready })

def kthreadCreate (k : Kernel) (eip : Nat) : Except Halt (Nat × Kernel) := do
  let (p, k) ← allocThread k
  let k := k.setProc p { k.procs p with cr3 := 0, state := .ready }
  let tf := (k.procs p).tf
  return (p, k.setFrame tf { k.frames tf with
    gs := 2 * 8, fs := 2 * 8, ds := 2 * 8, es := 2 * 8
    eip := eip, cs := 1 * 8, eflags := 0x0202 })

/-- What `loadelf` writes into the process `p` and the kernel for the result of `file`.  `p` is
a copy of its own: `sys_execve` passes a local variable.  The trap frame is reached through
the pointer in the copy. -/
def loadelfWith (file : Store → Except Halt (LoadResult × Store)) (k : Kernel) (p : Proc) :
    Except Halt (Option Proc × Kernel) := do
  let (result, s) ← file k.store
  let k := { k with store := s }
  match result with
  | .refused => return (none, k)
  | .abandoned _ sz regions => return (none, k.setMemtab p.pid ⟨regions, sz⟩)
  | .loaded cr3 entry mmapBase sz regions =>
      let k := k.setMemtab p.pid ⟨regions, sz⟩
      let k := k.setFrame p.tf { k.frames p.tf with eip := entry, esp := kernelOffset }
      return (some { p with mmapBase := mmapBase, cr3 := cr3 }, k)

def loadelf (env : Env) (k : Kernel) (p : Proc) (path : List UInt8) :
    Except Halt (Option Proc × Kernel) :=
  loadelfWith (loadFile env.kpagedir env.initrd path) k p

/-! ## Files -/

def pathBytes (path : String) : List UInt8 := path.toList.map fun c => UInt8.ofNat c.toNat

/-- `cdevs[major]->open`.  The console opens the framebuffer, which may lead back here. -/
def cdevOpen (env : Env) : Nat → Kernel → Nat → Except Halt Kernel
  | 0, _, _ => .error .loops
  | fuel + 1, k, f =>
      match (env.initrd.inode (k.files f).inode).major with
      | 0 => do
          let (data, s) ← k.store.kmalloc 8
          let (_, s) := s.allocPages 0x1000
          touch data 8
          let k := { k with
            store := s, files := Function.update k.files f { k.files f with data := data } }
          match env.initrd.lookup (pathBytes "/dev/fb") with
          | none => .error .assertion
          | some i => do
              let (fb, s) ← k.store.kmalloc 12
              if fb = 0 then .error .assertion
              else
                let k := { k with
                  store := s, files := Function.update k.files fb { k.files fb with inode := i } }
                cdevOpen env fuel k fb
      | 1 => do
          let (fb, s) ← k.store.kmalloc 28
          touch fb 28
          return { k with
            store := s
            fbdevs := Function.update k.fbdevs fb env.framebuffer
            files := Function.update k.files f { k.files f with data := fb } }
      | _ => .error .bounds

/-- The first descriptor that is not in use.  Past the last one the loop reads the state
of the process, which is zero while it runs. -/
def freeFd (p : Proc) : Option (Fin maxfiles) := (List.finRange maxfiles).find? fun fd => p.ofile fd = 0

def sysOpen (env : Env) (k : Kernel) (path : List UInt8) : Except Halt (Int × Kernel) :=
  match env.initrd.lookup path with
  | none => .ok (-1, k)
  | some i =>
      match freeFd k.proc with
      | none => if k.proc.state = .running then .error .bounds else .ok (-1, k)
      | some fd => do
          let (f, s) ← k.store.kmalloc 12
          let k := { k with store := s }
          let k := k.setProc k.curthread { k.proc with ofile := Function.update k.proc.ofile fd f }
          touch f 12
          let k := { k with files := Function.update k.files f { k.files f with inode := i } }
          let k ← cdevOpen env 16 k f
          return ((fd.val : Int), k)

/-! ## System calls -/

/-- The loop of `sys_fork` over the regions of the parent.  `regions` is the list of the
child so far and `mem` the next free place for it. -/
def copyRegions (pd : Nat) : List VmRegion → Nat → List VmRegion → Store →
    Except Halt (List VmRegion × Store)
  | [], _, regions, s => .ok (regions, s)
  | m1 :: rest, mem, regions, s => do
      let (addr, s) ← s.kmalloc 16
      touch addr 16
      let m2 : VmRegion := ⟨m1.va, v2p mem, m1.len⟩
      let s ← allocPt pd m2.va m2.pa m2.len userFlags s
      let s ← s.memmove mem (fun i => s.mem (p2v m1.pa + i)) m1.len
      copyRegions pd rest (u32 (mem + pgRoundup m2.len)) (m2 :: regions) s

/-- The loop of `sys_fork` over the open files.  It ends at the first empty slot, or
behind the last one at the state of the parent. -/
def copyFiles (parent : Proc) (n : Nat) : List (Fin maxfiles) → Kernel → Except Halt Kernel
  | [], k => if parent.state = .running then .ok k else .error .bounds
  | fd :: rest, k =>
      if parent.ofile fd = 0 then .ok k
      else do
        let (f, s) ← k.store.kmalloc 12
        let k := { k with store := s }
        let k := k.setProc n { k.procs n with ofile := Function.update (k.procs n).ofile fd f }
        touch f 12
        let k := { k with files := Function.update k.files f (k.files (parent.ofile fd)) }
        copyFiles parent n rest k

def sysFork (env : Env) (k : Kernel) : Except Halt (Int × Kernel) := do
  let (n, k) ← procCreate k
  let k := k.setProc n { k.procs n with pid := k.pid }
  let k := { k with pid := u32 (k.pid + 1) }
  let (mem, s) := k.store.allocPages (k.memtab k.proc.pid).sz
  let k := { k with store := s }
  if mem = 0 then return (-1, k)
  else
    let (pd, s) ← copykvm env.kpagedir k.store
    let child := (k.procs n).pid
    let (regions, s) ← copyRegions pd (k.memtab k.proc.pid).regions mem (k.memtab child).regions s
    let k := { k with store := s }
    let k := k.setMemtab child { k.memtab child with regions := regions }
    let k := k.setProc n { k.procs n with parent := k.curthread, cr3 := v2p pd }
    let k := k.setFrame (k.procs n).tf { k.frames k.proc.tf with eax := 0 }
    let k ← copyFiles k.proc n (List.finRange maxfiles) k
    let k ← enqueue k n
    return ((k.procs n).pid, { k with created := k.created ++ [n] })

def sysExecve (env : Env) (k : Kernel) (path : List UInt8) : Except Halt Kernel := do
  let (loaded, k) ← loadelf env k k.proc path
  match loaded with
  | none => return k
  | some p => yield (k.setProc k.curthread p)

def sysExit (k : Kernel) : Except Halt Kernel :=
  if k.proc.pid = 1 then .error .panic
  else yield (k.setProc k.curthread { k.proc with state := .dead })

def mapAnon : Nat := 0x01

/-- The address of the pages behind a mapping: fresh pages that are cleared, or what the
driver of the file says. -/
def backing (env : Env) (k : Kernel) (len flags fd mem : Nat) : Except Halt (Option (Nat × Kernel)) :=
  if flags &&& mapAnon ≠ 0 then do
    let (page, s) := k.store.allocPages len
    touch mem 16
    let s ← s.memset page 0 (pgRoundup len)
    return some (v2p page, { k with store := s })
  else if inside : fd < maxfiles then
    let f := k.proc.ofile ⟨fd, inside⟩
    if f = 0 then .ok none
    else
      match (env.initrd.inode (k.files f).inode).major with
      | 0 => .error .fault
      | 1 => do
          touch mem 16
          let data := (k.files f).data
          return some (if data = 0 then load32 k.store.mem (mem + 4) else k.fbdevs data, k)
      | _ => .error .bounds
  else .error .bounds

def sysMmap (env : Env) (k : Kernel) (len flags fd : Nat) : Except Halt (Nat × Kernel) :=
  if len = 0 then .ok (0, k)
  else
    let len := pgRoundup len
    if mmapLimit ≤ u32 (k.proc.mmapBase + len) then .ok (0, k)
    else do
      let (mem, s) ← k.store.kmalloc 16
      let backed ← backing env { k with store := s } len flags fd mem
      match backed with
      | none => return (0xFFFFFFFF, { k with store := s })
      | some (pa, k) =>
          let p := k.proc
          let r : VmRegion := ⟨p.mmapBase, pa, len⟩
          let k := k.setProc k.curthread { p with mmapBase := u32 (p.mmapBase + len) }
          let s ← allocPt (p2v p.cr3) r.va r.pa r.len userFlags k.store
          let k := { k with store := s }
          let tab := k.memtab p.pid
          return (r.va, k.setMemtab p.pid { tab with regions := r :: tab.regions })

/-! ## Boot -/

/-- The first part of `initsys`: the process and its program. -/
def initproc (env : Env) (k : Kernel) : Except Halt Kernel := do
  let (p, k) ← procCreate k
  let k := { k with curthread := p }
  let k := k.setProc p { k.proc with pid := k.pid }
  let k := { k with pid := u32 (k.pid + 1) }
  let (loaded, k) ← loadelf env k k.proc (pathBytes "/sbin/init")
  match loaded with
  | none => .error .assertion
  | some v => return k.setProc p v

def initsys (env : Env) (k : Kernel) : Except Halt Kernel := do
  let k ← initproc env k
  let (_, k) ← sysOpen env k (pathBytes "/dev/console")
  let (_, k) ← sysOpen env k (pathBytes "/dev/console")
  let (_, k) ← sysOpen env k (pathBytes "/dev/console")
  let k ← enqueue k k.curthread
  return { k with created := k.created ++ [k.curthread] }

/-- `init_sched`; `entry` is the address of `scheduler`. -/
def initSched (k : Kernel) (entry : Nat) : Except Halt Kernel := do
  let (idle, k) ← kthreadCreate k entry
  scheduler { k with idle := idle, curthread := idle }

/-! ## The machine -/

/-- What the running process may do: let the timer interrupt it, make a call, or write
to its own memory. -/
inductive Call where
  | yield
  | fork
  | execve (path : List UInt8)
  | exit
  | mmap (len flags fd : Nat)
  | write (addr : Nat) (byte : UInt8)

def Kernel.step (env : Env) (k : Kernel) : Call → Except Halt Kernel
  | .yield => Trunix.yield k
  | .fork => do
      let (_, k) ← sysFork env k
      return k
  | .execve path => sysExecve env k path
  | .exit => sysExit k
  | .mmap len flags fd => do
      let (_, k) ← sysMmap env k len flags fd
      return k
  | .write addr byte =>
      .ok { k with store := { k.store with
        mem := fun x => if x = addr then byte else k.store.mem x } }

/-- The bytes that a process reaches through a region, whose pages `alloc_pt` maps one after
the other.  What lies at or above `KERNEL_OFFSET` is a device and not memory. -/
def VmRegion.bytes (m : VmRegion) : Set Nat :=
  {x | ∃ j < m.len, u32 (pgRounddown m.pa + j) < 0x80000000 ∧ x = p2v (u32 (pgRounddown m.pa + j))}

/-- A process writes only where its page tables lead: to the pages of its regions. -/
def Kernel.Allowed (k : Kernel) : Call → Prop
  | .write addr _ => ∃ r ∈ (k.memtab k.proc.pid).regions, addr ∈ r.bytes
  | _ => True

end Trunix
