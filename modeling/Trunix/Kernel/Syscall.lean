import Trunix.Lib.Logged
import Trunix.Kernel.Exec
import Trunix.Kernel.Switch

/-!
# System calls from the registers on

`INT_0x80` of `kernel/interrupt.S` jumps through `tbl_syscall` with the `eax` of the
process, and its handlers pass registers of the process on as arguments.  The log of a call
lists the places it reads in the two tables that such an argument is an index of.  An access
outside of a table ends the run of the model: what lies there is no entry.
-/

set_option autoImplicit false

namespace Trunix

open Trunix.Lib

/-! ## The tables -/

inductive Handler where
  | restart
  | exit
  | fork
  | read
  | write
  | open
  | close
  | creat
  | execve
  | mmap
  deriving DecidableEq, Repr

def tblSyscall : List Handler :=
  [.restart, .exit, .fork, .read, .write, .open, .close, .creat, .execve, .mmap]

inductive TableRead where
  | handler (i : Nat)
  | ofile (fd : Nat)
  deriving DecidableEq, Repr

def TableRead.Inside : TableRead → Prop
  | .handler i => i < tblSyscall.length
  | .ofile fd => fd < maxfiles

abbrev Reading := Logged TableRead Halt

/-- `tbl_syscall(, %eax, 4)`: the address is a word, so the two top bits of `eax` do not count. -/
def handlerAt (eax : Nat) : Reading Handler :=
  let i := eax % 0x40000000
  ⟨[.handler i], match tblSyscall[i]? with
    | some h => .ok h
    | none => .error .bounds⟩

def ofileAt (p : Proc) (fd : Nat) : Reading Nat :=
  ⟨[.ofile fd], if inside : fd < maxfiles then .ok (p.ofile ⟨fd, inside⟩) else .error .bounds⟩

/-! ## The calls -/

/-- The functions `read` or `write` in `cdevs`, by the major number: they get the open file, the
address of the bytes of the process, and how many there are. -/
abbrev Transfer := Nat → Kernel → Nat → Nat → Nat → Except Halt Kernel

structure Drivers where
  read : Transfer
  write : Transfer

def answer (r : Int) : Nat := u32 (r + 0x100000000).toNat

def transfer (env : Env) (driver : Transfer) (k : Kernel) (fd buf count : Nat) :
    Reading (Int × Kernel) := do
  let f ← ofileAt k.proc fd
  if f = 0 then return (-1, k)
  else
    let k ← Logged.silent (driver (env.initrd.inode (k.files f).inode).major k f buf count)
    return (0, k)

def sysRead (dev : Drivers) (env : Env) (k : Kernel) (fd buf count : Nat) : Reading (Int × Kernel) :=
  transfer env dev.read k fd buf count

def sysWrite (dev : Drivers) (env : Env) (k : Kernel) (fd buf count : Nat) : Reading (Int × Kernel) :=
  transfer env dev.write k fd buf count

/-- `cdevs[major]->mmap`: the physical address that it leaves in the list node `mem`. -/
def cdevMmap (env : Env) (k : Kernel) (f mem : Nat) : Except Halt Nat :=
  match (env.initrd.inode (k.files f).inode).major with
  | 0 => .error .fault
  | 1 => do
      touch mem 16
      let data := (k.files f).data
      return if data = 0 then load32 k.store.mem (mem + 4) else k.fbdevs data
  | _ => .error .bounds

section Mmap

variable {ω : Type} (file : Kernel → Logged ω Halt Nat)
  (device : Kernel → Nat → Nat → Logged ω Halt Nat)

/-- The part of `sys_mmap` that finds the memory, with a log: `file` reads the slot of the
descriptor, and `device` has the driver answer for a file in the list node. -/
def backingLogged (k : Kernel) (len flags mem : Nat) : Logged ω Halt (Option (Nat × Kernel)) :=
  if flags &&& mapAnon ≠ 0 then do
    let (page, s) := k.store.allocPages len
    Logged.silent (touch mem 16)
    let s ← Logged.silent (s.memset page 0 (pgRoundup len))
    return some (v2p page, { k with store := s })
  else do
    let f ← file k
    if f = 0 then return none
    else
      let pa ← device k f mem
      return some (pa, k)

def sysMmapLogged (k : Kernel) (len flags : Nat) : Logged ω Halt (Nat × Kernel) :=
  if len = 0 then pure (0, k)
  else
    let len := pgRoundup len
    if mmapLimit ≤ u32 (k.proc.mmapBase + len) then pure (0, k)
    else do
      let (mem, s) ← Logged.silent (k.store.kmalloc 16)
      let backed ← backingLogged file device { k with store := s } len flags mem
      match backed with
      | none => return (0xFFFFFFFF, { k with store := s })
      | some (pa, k) =>
          let p := k.proc
          let r : VmRegion := ⟨p.mmapBase, pa, len⟩
          let k := k.setProc k.curthread { p with mmapBase := u32 (p.mmapBase + len) }
          let s ← Logged.silent (allocPt (p2v p.cr3) r.va r.pa r.len userFlags k.store)
          let k := { k with store := s }
          let tab := k.memtab p.pid
          return (r.va, k.setMemtab p.pid { tab with regions := r :: tab.regions })

end Mmap

def sysMmapReads (env : Env) (k : Kernel) (len flags fd : Nat) : Reading (Nat × Kernel) :=
  sysMmapLogged (fun k => ofileAt k.proc fd) (fun k f mem => Logged.silent (cdevMmap env k f mem))
    k len flags

/-! ## The handlers -/

/-- A handler: the kernel behind it, and what it stores as `eax` of the process, if anything.
`path` is the string that `ebx` points to. -/
def Handler.run (dev : Drivers) (env : Env) (k : Kernel) (r : Regs) (path : List UInt8) :
    Handler → Reading (Kernel × Option Nat)
  | .restart | .close | .creat => pure (k, none)
  | .exit => do
      let k ← Logged.silent (sysExit k)
      return (k, none)
  | .fork => do
      let (n, k) ← Logged.silent (sysFork env k)
      return (k, some (answer n))
  | .read => do
      let (n, k) ← sysRead dev env k r.ebx r.ecx r.edx
      return (k, some (answer n))
  | .write => do
      let (n, k) ← sysWrite dev env k r.ebx r.ecx r.edx
      return (k, some (answer n))
  | .open => do
      let (n, k) ← Logged.silent (sysOpen env k path)
      return (k, some (answer n))
  | .execve => do
      let (loaded, k) ← Logged.silent (loadelf env k k.proc path)
      match loaded with
      | none => return (k, some (answer (-1)))
      | some p =>
          let k ← Logged.silent (yield (k.setProc k.curthread p))
          return (k, none)
  | .mmap => do
      let (a, k) ← sysMmapReads env k r.esi r.ebx r.edx
      return (k, some a)

/-- `INT_0x80` between its pushes and `end_syscall`. -/
def int80 (dev : Drivers) (env : Env) (k : Kernel) (r : Regs) (path : List UInt8) :
    Reading (Kernel × Option Nat) := do
  let h ← handlerAt r.eax
  h.run dev env k r path

/-! ## The calls are those of the kernel -/

section Mmap

variable {ω : Type} {file : Kernel → Logged ω Halt Nat} {device : Kernel → Nat → Nat → Logged ω Halt Nat}
  {env : Env} {len flags fd mem : Nat}

theorem backingLogged_result (sameFile : ∀ k, (file k).result = (ofileAt k.proc fd).result)
    (sameDevice : ∀ k f mem, (device k f mem).result = cdevMmap env k f mem) (k : Kernel) :
    (backingLogged file device k len flags mem).result = backing env k len flags fd mem := by
  unfold backingLogged backing
  split
  · rw [Logged.result_bind]
    simp only [Logged.result_silent, Logged.result_bind, Logged.result_pure]
    rfl
  · rw [Logged.result_bind, sameFile]
    unfold ofileAt
    split
    · simp only [ok_bind]
      split
      · rfl
      · rw [Logged.result_bind, sameDevice]
        unfold cdevMmap
        match (env.initrd.inode (k.files (k.proc.ofile ⟨fd, by assumption⟩)).inode).major with
        | 0 => rfl
        | 1 => cases touch mem 16 <;> rfl
        | _ + 2 => rfl
    · rfl

theorem sysMmapLogged_result (sameFile : ∀ k, (file k).result = (ofileAt k.proc fd).result)
    (sameDevice : ∀ k f mem, (device k f mem).result = cdevMmap env k f mem) (k : Kernel) :
    (sysMmapLogged file device k len flags).result = sysMmap env k len flags fd := by
  unfold sysMmapLogged sysMmap
  split
  · rfl
  · simp only
    split
    · rfl
    · rw [Logged.result_bind, Logged.result_silent]
      congr 1
      funext taken
      rw [Logged.result_bind, backingLogged_result sameFile sameDevice]
      congr 1
      funext backed
      cases backed with
      | none => rfl
      | some pair => rw [Logged.result_bind]; rfl

/-- What the call reads and what it has the driver do is all that it logs. -/
theorem backingLogged_all {P : ω → Prop} {k : Kernel} :
    (backingLogged file device k len flags mem).All P ↔
      (flags &&& mapAnon = 0 → (file k).All P ∧
        ∀ f, (file k).result = .ok f → f ≠ 0 → (device k f mem).All P) := by
  unfold backingLogged
  split
  · rename_i anon
    refine iff_of_true ?_ fun none => absurd none anon
    simp only [Logged.all_silent_bind, Logged.all_pure, implies_true]
  · rename_i mapped
    rw [forall_prop_of_true (not_not.mp mapped), Logged.all_bind]
    refine and_congr_right fun _ => forall₂_congr fun f found => ?_
    by_cases closed : f = 0
    · rw [if_pos closed]
      exact iff_of_true (Logged.all_pure _) fun used => absurd closed used
    · rw [if_neg closed, forall_prop_of_true closed]
      exact Logged.all_bind_pure

/-- `sys_mmap` gets to its memory when the length is good, and the list node is there. -/
theorem sysMmapLogged_all {P : ω → Prop} {k : Kernel} :
    (sysMmapLogged file device k len flags).All P ↔
      (len = 0 ∨ mmapLimit ≤ u32 (k.proc.mmapBase + pgRoundup len) ∨
        ∀ node, k.store.kmalloc 16 = .ok node →
          (backingLogged file device { k with store := node.2 } (pgRoundup len) flags node.1).All P) := by
  unfold sysMmapLogged
  split
  · rename_i zero
    simp only [Logged.all_pure, zero, true_or]
  · rename_i nonzero
    simp only
    split
    · rename_i full
      simp only [Logged.all_pure, full, true_or, or_true]
    · rename_i room
      simp only [nonzero, room, false_or]
      rw [Logged.all_silent_bind]
      refine forall₂_congr fun node taken => ?_
      rw [Logged.all_bind]
      refine and_iff_left fun backed found => ?_
      cases backed with
      | none => exact Logged.all_pure _
      | some pair =>
          simp only [Logged.all_silent_bind]
          intro s linked
          exact Logged.all_pure _

end Mmap

theorem sysMmapReads_result {env : Env} {k : Kernel} {len flags fd : Nat} :
    (sysMmapReads env k len flags fd).result = sysMmap env k len flags fd :=
  sysMmapLogged_result (fun _ => rfl) (fun _ _ _ => rfl) k

def Handler.call (r : Regs) (path : List UInt8) : Handler → Option Call
  | .exit => some .exit
  | .fork => some .fork
  | .execve => some (.execve path)
  | .mmap => some (.mmap r.esi r.ebx r.edx)
  | _ => none

theorem Handler.run_step {dev : Drivers} {env : Env} {k : Kernel} {r : Regs} {path : List UInt8}
    {h : Handler} {c : Call} (makes : h.call r path = some c) :
    (h.run dev env k r path).result.map Prod.fst = k.step env c := by
  cases h with
  | exit =>
      cases makes
      rw [Handler.run, Kernel.step, Logged.result_bind, Logged.result_silent]
      cases sysExit k <;> rfl
  | fork =>
      cases makes
      rw [Handler.run, Kernel.step, Logged.result_bind, Logged.result_silent]
      cases sysFork env k <;> rfl
  | execve =>
      cases makes
      rw [Handler.run, Kernel.step, sysExecve, Logged.result_bind, Logged.result_silent]
      cases loadelf env k k.proc path with
      | error e => rfl
      | ok r =>
          obtain ⟨loaded, k₁⟩ := r
          cases loaded with
          | none => rfl
          | some p =>
              show (Logged.silent (yield _) >>= _).result.map Prod.fst = yield _
              rw [Logged.result_bind, Logged.result_silent]
              cases yield (k₁.setProc k₁.curthread p) <;> rfl
  | mmap =>
      cases makes
      rw [Handler.run, Kernel.step, Logged.result_bind, sysMmapReads_result]
      cases sysMmap env k r.esi r.ebx r.edx <;> rfl
  | restart => cases makes
  | read => cases makes
  | write => cases makes
  | «open» => cases makes
  | close => cases makes
  | creat => cases makes

/-! ## Inside the tables -/

def Regs.descriptor (r : Regs) : Option Nat :=
  match tblSyscall[r.eax % 0x40000000]? with
  | some .read | some .write => some r.ebx
  | some .mmap => if r.ebx &&& mapAnon = 0 then some r.edx else none
  | _ => none

/-- Every read is inside of its table, and a call with a descriptor outside of `ofile` returns
`NULL` or -1 and changes nothing. -/
structure InsideTables (dev : Drivers) (env : Env) (k : Kernel) (r : Regs) (path : List UInt8) :
    Prop where
  reads : (int80 dev env k r path).All TableRead.Inside
  refused : ∀ fd, r.descriptor = some fd → maxfiles ≤ fd →
    ∃ a, (int80 dev env k r path).result = .ok (k, some a) ∧ (a = 0 ∨ a = answer (-1))

section Inside

variable {dev : Drivers} {env : Env} {k : Kernel} {r : Regs} {path : List UInt8}

theorem ofileAt_all (p : Proc) (fd : Nat) : (ofileAt p fd).All TableRead.Inside ↔ fd < maxfiles := by
  unfold Logged.All ofileAt
  simp only [List.mem_singleton, forall_eq, TableRead.Inside]

theorem handlerAt_all (eax : Nat) :
    (handlerAt eax).All TableRead.Inside ↔ eax % 0x40000000 < tblSyscall.length := by
  unfold Logged.All handlerAt
  simp only [List.mem_singleton, forall_eq, TableRead.Inside]

theorem transfer_all (driver : Transfer) (fd buf count : Nat) :
    (transfer env driver k fd buf count).All TableRead.Inside ↔ fd < maxfiles := by
  unfold transfer
  rw [Logged.all_bind, ofileAt_all]
  constructor
  · intro both
    exact both.1
  · intro inside
    refine ⟨inside, fun f found => ?_⟩
    split
    · exact Logged.all_pure _
    · rw [Logged.all_silent_bind]
      intro k₁ done
      exact Logged.all_pure _

theorem sysMmapReads_all (len flags fd : Nat) :
    (sysMmapReads env k len flags fd).All TableRead.Inside ↔
      (len = 0 ∨ mmapLimit ≤ u32 (k.proc.mmapBase + pgRoundup len) ∨
        ∀ node, k.store.kmalloc 16 = .ok node → flags &&& mapAnon = 0 → fd < maxfiles) := by
  rw [sysMmapReads, sysMmapLogged_all]
  simp only [backingLogged_all, ofileAt_all, Logged.all_silent, implies_true, and_true]

theorem int80_entry {h : Handler} (entry : tblSyscall[r.eax % 0x40000000]? = some h) :
    (int80 dev env k r path).result = (h.run dev env k r path).result ∧
      ((int80 dev env k r path).All TableRead.Inside ↔
        (h.run dev env k r path).All TableRead.Inside) := by
  have found : (handlerAt r.eax).result = .ok h := by
    unfold handlerAt
    simp only [entry]
  have number : r.eax % 0x40000000 < tblSyscall.length := (List.getElem?_eq_some_iff.mp entry).1
  unfold int80
  refine ⟨?_, ?_⟩
  · rw [Logged.result_bind, found]
    rfl
  · rw [Logged.all_bind, handlerAt_all, found]
    constructor
    · intro both
      exact both.2 h rfl
    · intro all
      exact ⟨number, fun h' same => by cases same; exact all⟩

theorem entry_index {i : Nat} {h : Handler} (entry : tblSyscall[i]? = some h) :
    (h = .read ↔ i = 3) ∧ (h = .write ↔ i = 4) ∧ (h = .mmap ↔ i = 9) := by
  have number : i < tblSyscall.length := (List.getElem?_eq_some_iff.mp entry).1
  have small : i < 10 := number
  interval_cases i <;> cases entry <;> decide

theorem Handler.run_all {h : Handler} (read : h ≠ .read) (write : h ≠ .write) (mmap : h ≠ .mmap) :
    (h.run dev env k r path).All TableRead.Inside := by
  cases h with
  | restart => exact Logged.all_pure _
  | close => exact Logged.all_pure _
  | creat => exact Logged.all_pure _
  | exit =>
      unfold Handler.run
      rw [Logged.all_silent_bind]
      intro k₁ done
      exact Logged.all_pure _
  | fork =>
      unfold Handler.run
      rw [Logged.all_silent_bind]
      intro r done
      exact Logged.all_pure _
  | «open» =>
      unfold Handler.run
      rw [Logged.all_silent_bind]
      intro r done
      exact Logged.all_pure _
  | execve =>
      unfold Handler.run
      rw [Logged.all_silent_bind]
      intro r done
      obtain ⟨loaded, k₁⟩ := r
      cases loaded with
      | none => exact Logged.all_pure _
      | some p =>
          simp only [Logged.all_silent_bind]
          intro k₂ switched
          exact Logged.all_pure _
  | read => exact absurd rfl read
  | write => exact absurd rfl write
  | mmap => exact absurd rfl mmap

theorem Handler.transfer_all {driver : Transfer} {fd buf count : Nat} :
    (do
      let (n, k) ← transfer env driver k fd buf count
      return (k, some (answer n)) : Reading (Kernel × Option Nat)).All TableRead.Inside ↔
        fd < maxfiles := by
  rw [Logged.all_bind, Trunix.transfer_all]
  constructor
  · intro both
    exact both.1
  · intro inside
    exact ⟨inside, fun r done => Logged.all_pure _⟩

theorem Handler.mmap_all : (Handler.mmap.run dev env k r path).All TableRead.Inside ↔
    (sysMmapReads env k r.esi r.ebx r.edx).All TableRead.Inside := by
  unfold Handler.run
  rw [Logged.all_bind]
  constructor
  · intro both
    exact both.1
  · intro inside
    exact ⟨inside, fun r done => Logged.all_pure _⟩

end Inside

/-- The registers name an entry of `tbl_syscall`, and a descriptor below `MAXFILES` where one is
needed: by `read` and `write`, and by `mmap` unless it fails before or maps fresh pages. -/
structure Regs.KeepsInside (k : Kernel) (r : Regs) : Prop where
  handler : r.eax % 0x40000000 < 10
  file : r.eax % 0x40000000 = 3 ∨ r.eax % 0x40000000 = 4 → r.ebx < maxfiles
  mapping : r.eax % 0x40000000 = 9 → r.ebx &&& mapAnon = 0 → r.esi ≠ 0 →
    u32 (k.proc.mmapBase + pgRoundup r.esi) < mmapLimit → r.edx < maxfiles

section Exact

variable {dev : Drivers} {env : Env} {k : Kernel} {r : Regs} {path : List UInt8}

/-- A descriptor that is too large reaches the table, but for a mapping that fails before. -/
theorem InsideTables.keepsInside (h : InsideTables dev env k r path) : r.KeepsInside k := by
  obtain ⟨reads, refused⟩ := h
  have number : r.eax % 0x40000000 < tblSyscall.length := by
    unfold int80 at reads
    rw [Logged.all_bind, handlerAt_all] at reads
    exact reads.1
  obtain ⟨h, entry⟩ : ∃ h, tblSyscall[r.eax % 0x40000000]? = some h :=
    ⟨_, List.getElem?_eq_getElem number⟩
  obtain ⟨result, all⟩ := @int80_entry dev env k r path _ entry
  obtain ⟨read, write, mmap⟩ := entry_index entry
  rw [all] at reads
  refine ⟨number, fun index => ?_, fun index device long below => ?_⟩
  · rcases index with three | four
    · rw [read.mpr three] at reads
      exact Handler.transfer_all.mp reads
    · rw [write.mpr four] at reads
      exact Handler.transfer_all.mp reads
  · by_contra large
    have named : r.descriptor = some r.edx := by
      unfold Regs.descriptor
      rw [entry, mmap.mpr index]
      exact if_pos device
    obtain ⟨a, returned, _⟩ := refused r.edx named (Nat.le_of_not_lt large)
    rw [mmap.mpr index, Handler.mmap_all, sysMmapReads_all] at reads
    rcases reads with zero | full | node
    · exact long zero
    · exact Nat.not_lt_of_le full below
    · -- the list node cannot be had, so the call does not return
      cases taken : k.store.kmalloc 16 with
      | ok pair => exact large (node pair taken device)
      | error e =>
          rw [result, mmap.mpr index, Handler.run, Logged.result_bind, sysMmapReads_result, sysMmap,
            if_neg long, if_neg (Nat.not_le_of_lt below), taken] at returned
          cases returned

theorem Regs.KeepsInside.insideTables (h : r.KeepsInside k) : InsideTables dev env k r path := by
  obtain ⟨entry, found⟩ : ∃ h, tblSyscall[r.eax % 0x40000000]? = some h :=
    ⟨_, List.getElem?_eq_getElem h.handler⟩
  obtain ⟨result, all⟩ := @int80_entry dev env k r path _ found
  obtain ⟨read, write, mmap⟩ := entry_index found
  by_cases isRead : entry = .read
  · have small := h.file (Or.inl (read.mp isRead))
    refine ⟨all.mpr (isRead ▸ Handler.transfer_all.mpr small), fun fd named large => ?_⟩
    rw [Regs.descriptor, found, isRead] at named
    cases named
    exact absurd small (Nat.not_lt_of_le large)
  · by_cases isWrite : entry = .write
    · have small := h.file (Or.inr (write.mp isWrite))
      refine ⟨all.mpr (isWrite ▸ Handler.transfer_all.mpr small), fun fd named large => ?_⟩
      rw [Regs.descriptor, found, isWrite] at named
      cases named
      exact absurd small (Nat.not_lt_of_le large)
    · by_cases isMmap : entry = .mmap
      · have mapping := h.mapping (mmap.mp isMmap)
        have early : r.ebx &&& mapAnon = 0 → maxfiles ≤ r.edx →
            sysMmap env k r.esi r.ebx r.edx = .ok (0, k) := by
          intro device large
          rw [sysMmap]
          split
          · rfl
          · rename_i long
            simp only
            rw [if_pos]
            by_contra below
            exact absurd (mapping device long (Nat.lt_of_not_le below)) (Nat.not_lt_of_le large)
        refine ⟨all.mpr ?_, fun fd named large => ?_⟩
        · rw [isMmap, Handler.mmap_all, sysMmapReads_all]
          by_cases zero : r.esi = 0
          · exact Or.inl zero
          · by_cases full : mmapLimit ≤ u32 (k.proc.mmapBase + pgRoundup r.esi)
            · exact Or.inr (Or.inl full)
            · exact Or.inr (Or.inr fun _ _ device => mapping device zero (Nat.lt_of_not_le full))
        · rw [Regs.descriptor, found, isMmap] at named
          simp only at named
          split at named
          · rename_i device
            cases named
            refine ⟨0, ?_, Or.inl rfl⟩
            rw [result, isMmap, Handler.run, Logged.result_bind, sysMmapReads_result,
              early device large]
            rfl
          · cases named
      · refine ⟨all.mpr (Handler.run_all isRead isWrite isMmap), fun fd named large => ?_⟩
        rw [Regs.descriptor, found] at named
        split at named
        · rename_i same
          exact absurd (Option.some.inj same) isRead
        · rename_i same
          exact absurd (Option.some.inj same) isWrite
        · rename_i same
          exact absurd (Option.some.inj same) isMmap
        · cases named

/-- A system call stays inside the tables of the kernel exactly when its registers do: nothing in
the kernel looks at them. -/
theorem int80_inside_iff (dev : Drivers) (env : Env) (k : Kernel) (r : Regs) (path : List UInt8) :
    InsideTables dev env k r path ↔ r.KeepsInside k := by
  constructor
  · intro h
    exact h.keepsInside
  · intro h
    exact h.insideTables

end Exact

/-! ## Registers of a process -/

def askingRegs (eax ebx : Nat) : Regs where
  edi := 0
  esi := 0
  ebp := 0
  esp := 0x7FFFFF00
  ebx := ebx
  edx := 1
  ecx := 0x400000
  eax := eax
  gs := 0x23
  fs := 0x23
  es := 0x23
  ds := 0x23
  eip := 0x400010
  cs := 0x1B
  eflags := 0x202
  ss := 0x23

def idleDrivers : Drivers := ⟨fun _ k _ _ _ => .ok k, fun _ k _ _ _ => .ok k⟩

/-- The first process leaves the tables behind the ten entries, and behind its last descriptor. -/
theorem int80_leaves_tables : ∃ k, smallBoot alignedSegment = .ok k ∧
    ¬ InsideTables idleDrivers (smallEnv alignedSegment) k (askingRegs 10 0) [] ∧
      ¬ InsideTables idleDrivers (smallEnv alignedSegment) k (askingRegs 4 16) [] := by
  obtain ⟨k, boot⟩ := exists_eq_ok (x := smallBoot alignedSegment) (by decide +kernel)
  refine ⟨k, boot, ?_, ?_⟩
  · intro inside
    have handler : 10 % 0x40000000 < 10 := inside.keepsInside.handler
    omega
  · intro inside
    have file : 16 < maxfiles := inside.keepsInside.file (Or.inr rfl)
    exact absurd file (Nat.lt_irrefl 16)

end Trunix
