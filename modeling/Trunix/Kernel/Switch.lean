import Trunix.Kernel.Effect

/-!
# Traps and switches

The assembly of `kernel/interrupt.S` and `kernel/switch.S` on the registers and the words
of the kernel stacks, around the C functions of the kernel.  What the compiler does with a
stack frame is a parameter: a C function may lay out its frame as it likes, but it
returns with the callee-saved registers it was called with.  All gates are interrupt
gates, so a step of the machine leads from user mode to user mode.

The handlers load no segment register and do not clear the direction flag, so the kernel
works with what the process has there, on the page directory that is in `cr3`.
-/

set_option autoImplicit false

namespace Trunix

open Trunix.Lib

/-! ## The processor -/

structure Regs where
  edi : Nat
  esi : Nat
  ebp : Nat
  esp : Nat
  ebx : Nat
  edx : Nat
  ecx : Nat
  eax : Nat
  gs : Nat
  fs : Nat
  es : Nat
  ds : Nat
  eip : Nat
  cs : Nat
  eflags : Nat
  ss : Nat
  deriving DecidableEq, Repr

def Regs.callee (r : Regs) : Nat × Nat × Nat × Nat := (r.edi, r.esi, r.ebp, r.ebx)

def Regs.User (r : Regs) : Prop := r.cs % 4 = 3

/-- The words of the kernel stacks and of the processes on top of them. -/
abbrev Words := Nat → Nat

structure Cpu where
  regs : Regs
  words : Words

def Cpu.push (c : Cpu) (v : Nat) : Cpu :=
  ⟨{ c.regs with esp := c.regs.esp - 4 }, Function.update c.words (c.regs.esp - 4) v⟩

def Cpu.pushAll (c : Cpu) (L : List Nat) : Cpu := L.foldl Cpu.push c

def Cpu.drop (c : Cpu) (n : Nat) : Cpu := { c with regs := { c.regs with esp := c.regs.esp + 4 * n } }

/-- An interrupt in user mode: the processor takes the stack from the task state segment. -/
def Cpu.trap (c : Cpu) (esp0 : Nat) : Cpu :=
  let r := c.regs
  let c := Cpu.pushAll { c with regs := { r with esp := esp0, ss := 2 * 8 } }
    [r.ss, r.esp, r.eflags, r.cs, r.eip]
  { c with regs := { c.regs with cs := 1 * 8, eflags := r.eflags &&& 0xFFFFFDFF } }

def Cpu.pushal (c : Cpu) : Cpu :=
  let r := c.regs
  c.pushAll [r.eax, r.ecx, r.edx, r.ebx, r.esp, r.ebp, r.esi, r.edi]

/-- `popal` skips the word of the stack pointer. -/
def Cpu.popal (c : Cpu) : Cpu :=
  let e := c.regs.esp
  { c with regs := { c.regs with
    edi := c.words e, esi := c.words (e + 4), ebp := c.words (e + 8), ebx := c.words (e + 16)
    edx := c.words (e + 20), ecx := c.words (e + 24), eax := c.words (e + 28), esp := e + 32 } }

/-- A return to user mode also takes the stack of the process from the frame. -/
def Cpu.iret (c : Cpu) : Cpu :=
  let e := c.regs.esp
  let r := { c.regs with eip := c.words e, cs := c.words (e + 4), eflags := c.words (e + 8) }
  if c.words (e + 4) % 4 = 3 then
    { c with regs := { r with esp := c.words (e + 12), ss := c.words (e + 16) } }
  else { c with regs := { r with esp := e + 12 } }

/-- The beginning of `INT_0x20` and `INT_0x80`. -/
def Cpu.saveRegs (c : Cpu) : Cpu :=
  (c.pushAll [c.regs.ds, c.regs.es, c.regs.fs, c.regs.gs]).pushal

/-- The end of `INT_0x20`, `end_syscall` and `trapret`. -/
def Cpu.restoreRegs (c : Cpu) : Cpu :=
  let c := c.popal
  let e := c.regs.esp
  let c := { c with regs := { c.regs with
    gs := c.words e, fs := c.words (e + 4), es := c.words (e + 8), ds := c.words (e + 12)
    esp := e + 16 } }
  c.iret

def Cpu.popContext (c : Cpu) : Cpu :=
  let e := c.regs.esp
  { c with regs := { c.regs with
    edi := c.words e, esi := c.words (e + 4), ebp := c.words (e + 8), ebx := c.words (e + 12)
    esp := e + 16 } }

def Cpu.switchTo (c : Cpu) : Cpu :=
  let prev := c.words (c.regs.esp + 4)
  let next := c.words (c.regs.esp + 8)
  let c := { c with regs := { c.regs with eax := prev, edx := next } }
  let c := c.pushAll [c.regs.ebx, c.regs.ebp, c.regs.esi, c.regs.edi]
  let c := { c with words := Function.update c.words prev c.regs.esp }
  Cpu.popContext { c with regs := { c.regs with esp := next } }

/-! ## Compiled code -/

/-- A C function from its entry to a call it makes, and from the return of that call to
its own `ret`. -/
structure Compiled where
  enter : Kernel → Cpu → Cpu
  leave : Cpu → Cpu
  /-- the frame lies below the return address, and when there is room nothing else is
  written -/
  enter_esp : ∀ k c, (enter k c).regs.esp ≤ c.regs.esp
  enter_words : ∀ k c, 0 < (enter k c).regs.esp → ∀ x, x < (enter k c).regs.esp ∨ c.regs.esp ≤ x →
    (enter k c).words x = c.words x
  leave_words : ∀ c, (leave c).words = c.words
  /-- when there was room and the call gave back the stack pointer, the callee-saved
  registers and the frame, so does the function -/
  leave_enter : ∀ k c c', 0 < (enter k c).regs.esp → c'.regs.esp = (enter k c).regs.esp →
    c'.regs.callee = (enter k c).regs.callee →
    (∀ x, (enter k c).regs.esp ≤ x → x < c.regs.esp → c'.words x = (enter k c).words x) →
    (leave c').regs.esp = c.regs.esp ∧ (leave c').regs.callee = c.regs.callee

inductive Loc where
  /-- in `INT_0x20`, behind the call of `yield` -/
  | timer
  /-- in `INT_0x80`, behind a call with that many words of arguments -/
  | syscall (args : Nat)
  /-- in `INT_0x80`, behind the call of `sys_exit` -/
  | exit
  /-- behind the call of `switch_to` -/
  | yield
  | scheduler
  /-- behind the call of `yield` -/
  | sysExecve
  | sysExit
  | forkret
  | trapret
  deriving DecidableEq, Repr

/-- What the compiler and the linker made of the kernel. -/
structure Code where
  addr : Loc → Nat
  find : Nat → Option Loc
  find_addr : ∀ l, find (addr l) = some l
  yield : Compiled
  sysFork : Compiled
  sysMmap : Compiled
  sysExecve : Compiled
  sysExit : Compiled
  /-- addresses on the pages of its text, of its data and of the boot stack -/
  pages : List Nat
  /-- one round of the loop; its frame stays where it is -/
  scheduler : Kernel → Regs → Regs
  scheduler_esp : ∀ k r, (scheduler k r).esp = r.esp

/-- Execution from a `ret` to the return to user mode.  The fuel bounds the number of
functions that return. -/
def Code.run (code : Code) : Nat → Cpu → Option Cpu
  | 0, _ => none
  | fuel + 1, c =>
      let ret := c.words c.regs.esp
      let c := c.drop 1
      match code.find ret with
      | some .timer => some c.restoreRegs
      | some (.syscall args) =>
          let c := c.drop args
          let c := { c with words := Function.update c.words (c.regs.esp + 28) c.regs.eax }
          some c.restoreRegs
      | some .exit => some (c.drop 1).restoreRegs
      | some .yield => code.run fuel (code.yield.leave (c.drop 2))
      | some .sysExecve => code.run fuel (code.sysExecve.leave c)
      | some .sysExit => code.run fuel (code.sysExit.leave c)
      | some .forkret => code.run fuel c
      | some .trapret => some c.restoreRegs
      | some .scheduler => none
      | none => none

def contextAt : Nat := 16

/-- The directory in `cr3` has the kernel, and the stack of the running process, where the
kernel was linked to be. -/
def Code.Maps (code : Code) (k : Kernel) : Prop :=
  ∀ a ∈ (k.curthread - 3992) :: code.pages, walk k.store.mem (p2v k.cr3) a = some (v2p a)

instance (code : Code) (k : Kernel) : Decidable (code.Maps k) := List.decidableBAll _ _

/-- The kernel goes on, on the directory in `cr3`. -/
def Code.paged (code : Code) (k : Kernel) : Except Halt Unit :=
  if code.Maps k then .ok () else .error .fault

/-- The scheduler from its choice on: `switch_to(&idle->context, p->context)`. -/
def Code.dispatch (code : Code) (k : Kernel) (c : Cpu) : Except Halt (Kernel × Cpu) :=
  let c := { c with regs := code.scheduler k c.regs }
  let c := c.pushAll [c.words (k.curthread + contextAt), k.idle + contextAt, code.addr .scheduler]
  match code.run 4 c.switchTo with
  | none => .error .fault
  | some c => .ok (k, c)

def Kernel.giveUp (k : Kernel) : Kernel :=
  if k.proc.state = .running then k.setProc k.curthread { k.proc with state := .ready } else k

/-- The scheduler from its switch back to its next choice. -/
def reschedule (k : Kernel) : Except Halt Kernel := do
  let k ← enqueue k k.dispatched
  scheduler k

/-- `yield` as far as the switch: `switch_to(&curthread->context, idle->context)`. -/
def Code.switchOut (code : Code) (k : Kernel) (c : Cpu) : Cpu :=
  let c := code.yield.enter k c
  (c.pushAll [c.words (k.idle + contextAt), k.curthread + contextAt, code.addr .yield]).switchTo

/-- A call of `yield`, the return address already pushed. -/
def Code.callYield (code : Code) (k : Kernel) (c : Cpu) : Except Halt (Kernel × Cpu) :=
  let c := code.switchOut k c
  if code.find (c.words c.regs.esp) = some .scheduler then do
    let k ← reschedule k.giveUp
    code.dispatch k (c.drop 3)
  else .error .fault

/-! ## The machine -/

structure Machine where
  kernel : Kernel
  cpu : Cpu

/-- The stack of the process behind the first instructions of a handler. -/
def Machine.trapped (m : Machine) : Cpu := (m.cpu.trap m.kernel.esp0).saveRegs

/-- `INT_0x20` at the entry of `yield`; `outb` leaves `al` changed. -/
def Machine.timer (code : Code) (m : Machine) : Cpu :=
  let c := m.trapped
  let c := { c with regs := { c.regs with eax := c.regs.eax / 0x100 * 0x100 + 0x20 } }
  c.push (code.addr .timer)

/-- `INT_0x80` at the entry of a function with arguments. -/
def Machine.call (code : Code) (m : Machine) (args : List Nat) : Cpu :=
  (m.trapped.pushAll args).push (code.addr (.syscall args.length))

def Code.ret (code : Code) (k : Kernel) (c : Cpu) (r : Nat) : Except Halt Machine :=
  match code.run 1 { c with regs := { c.regs with eax := r } } with
  | none => .error .fault
  | some c => .ok ⟨k, c⟩

def Code.allocThread (code : Code) (p : Nat) (w : Words) : Words :=
  let w := fun x => if p - 3992 ≤ x ∧ x < p + 104 then 0 else w x
  let w := Function.update w (p - 72) (code.addr .trapret)
  let w := Function.update w (p - 76) (code.addr .forkret)
  Function.update w (p + contextAt) (p - 92)

def Code.procCreate (code : Code) (p : Nat) (w : Words) : Words :=
  let w := code.allocThread p w
  let w := Function.update w (p - 68 + 32) ((4 * 8) ||| 3)
  let w := Function.update w (p - 68 + 36) ((4 * 8) ||| 3)
  let w := Function.update w (p - 68 + 40) ((4 * 8) ||| 3)
  let w := Function.update w (p - 68 + 44) ((4 * 8) ||| 3)
  let w := Function.update w (p - 68 + 52) ((3 * 8) ||| 3)
  let w := Function.update w (p - 68 + 56) 0x0202
  Function.update w (p - 68 + 64) ((4 * 8) ||| 3)

def Code.kthreadCreate (code : Code) (p eip : Nat) (w : Words) : Words :=
  let w := code.allocThread p w
  let w := Function.update w (p - 68 + 32) (2 * 8)
  let w := Function.update w (p - 68 + 36) (2 * 8)
  let w := Function.update w (p - 68 + 44) (2 * 8)
  let w := Function.update w (p - 68 + 40) (2 * 8)
  let w := Function.update w (p - 68 + 48) eip
  let w := Function.update w (p - 68 + 52) (1 * 8)
  Function.update w (p - 68 + 56) 0x0202

/-- `*n->tf = *curthread->tf; n->tf->eax = 0` -/
def copyFrame (dst src : Nat) (w : Words) : Words :=
  Function.update (fun x => if dst ≤ x ∧ x < dst + 68 then w (x - dst + src) else w x) (dst + 28) 0

def loadFrame (k : Kernel) (tf : Nat) (w : Words) : Words :=
  let w := Function.update w (tf + 48) (k.frames tf).eip
  Function.update w (tf + 60) (k.frames tf).esp

def Machine.execve (code : Code) (m : Machine) (k : Kernel) (p : Proc) : Cpu :=
  let r := m.cpu.regs
  let c := code.sysExecve.enter m.kernel (m.call code [r.edx, r.ecx, r.ebx])
  Cpu.push { c with words := loadFrame k p.tf c.words } (code.addr .sysExecve)

def Machine.exit (code : Code) (m : Machine) : Cpu :=
  let c := (m.trapped.push m.cpu.regs.ecx).push (code.addr .exit)
  (code.sysExit.enter m.kernel c).push (code.addr .sysExit)

/-- The call gets to a string instruction: `alloc_thread`, `copykvm`, `sys_mmap` and `alloc_pt`
clear the pages they take. -/
def Kernel.Strings (env : Env) (k : Kernel) : Call → Prop
  | .fork => True
  | .execve path => env.initrd.elf path ≠ none
  | .mmap len flags fd => len ≠ 0 ∧ u32 (k.proc.mmapBase + pgRoundup len) < mmapLimit ∧
      if flags &&& mapAnon ≠ 0 then pgRoundup len ≠ 0 ∨ k.store.free ≠ []
      else (∃ fd' : Fin maxfiles, fd'.val = fd ∧ k.proc.ofile fd' ≠ 0) ∧
        ∃ j < pgRoundup len / 0x1000,
          ¬ present k.store.mem (p2v k.proc.cr3) (u32 (pgRounddown k.proc.mmapBase + 0x1000 * j) / 0x400000)
  | _ => False

instance (env : Env) (k : Kernel) : (c : Call) → Decidable (k.Strings env c)
  | .fork => inferInstanceAs (Decidable True)
  | .execve path => inferInstanceAs (Decidable (env.initrd.elf path ≠ none))
  | .mmap _ _ _ => inferInstanceAs (Decidable (_ ∧ _ ∧ ite _ _ _))
  | .yield => inferInstanceAs (Decidable False)
  | .exit => inferInstanceAs (Decidable False)
  | .write _ _ => inferInstanceAs (Decidable False)

/-- The handlers leave `ds`, `es` and the direction flag as they are, and everything but the
stack is accessed through `ds`; a string instruction also uses `es`.  Any selector of the
user's data segment does; the null selectors, which user mode may load as well, do not. -/
def Machine.enter (env : Env) (m : Machine) (c : Call) : Except Halt Unit :=
  if m.cpu.regs.ds / 4 ≠ 8 then .error .protection
  else if m.kernel.Strings env c then
    if m.cpu.regs.es / 4 ≠ 8 then .error .protection
    else if m.cpu.regs.eflags / 0x400 % 2 = 1 then .error .backwards else .ok ()
  else .ok ()

/-- What the handler of a call does, on a directory with the kernel in it. -/
def Machine.handle (code : Code) (env : Env) (m : Machine) : Call → Except Halt Machine
  | .yield => do
      let (k, c) ← code.callYield m.kernel (m.timer code)
      return ⟨k, c⟩
  | .fork => do
      let c := code.sysFork.enter m.kernel (m.call code [])
      let (n, _) ← procCreate m.kernel
      let w := code.procCreate n c.words
      let (r, k) ← sysFork env m.kernel
      let w := if r < 0 then w else copyFrame (k.procs n).tf k.proc.tf w
      code.ret k (code.sysFork.leave { c with words := w }) (u32 (r + 0x100000000).toNat)
  | .mmap len flags fd => do
      let r := m.cpu.regs
      let c := code.sysMmap.enter m.kernel (m.call code [r.ecx, r.edx, r.ebx, r.ebp, r.esi, r.edi])
      let (addr, k) ← sysMmap env m.kernel len flags fd
      code.ret k (code.sysMmap.leave c) addr
  | .execve path => do
      let r := m.cpu.regs
      let c := code.sysExecve.enter m.kernel (m.call code [r.edx, r.ecx, r.ebx])
      let (loaded, k) ← loadelf env m.kernel m.kernel.proc path
      match loaded with
      | none => code.ret k (code.sysExecve.leave c) 0xFFFFFFFF
      | some p => do
          let (k, c) ← code.callYield (k.setProc k.curthread p) (m.execve code k p)
          return ⟨k, c⟩
  | .exit =>
      if m.kernel.proc.pid = 1 then .error .panic
      else do
        let (k, c) ← code.callYield
          (m.kernel.setProc m.kernel.curthread { m.kernel.proc with state := .dead }) (m.exit code)
        return ⟨k, c⟩
  | .write addr byte => do
      let k ← m.kernel.step env (.write addr byte)
      return ⟨k, m.cpu⟩

/-- A store in user mode, or an interrupt with its handler: the processor needs the kernel in
the directory that is loaded when it takes the interrupt, and the kernel needs itself in the
one that is loaded, and as it is, when it returns. -/
def Machine.step (code : Code) (env : Env) (m : Machine) : Call → Except Halt Machine
  | .write addr byte => m.handle code env (.write addr byte)
  | c => do
      let _ ← code.paged m.kernel
      let _ ← m.enter env c
      let m ← m.handle code env c
      let _ ← code.paged m.kernel
      return m

inductive Event where
  | compute (regs : Regs)
  | call (c : Call)

def Machine.event (code : Code) (env : Env) (m : Machine) : Event → Except Halt Machine
  | .compute regs => .ok ⟨m.kernel, { m.cpu with regs := regs }⟩
  | .call c => m.step code env c

/-- `initsys` and `init_sched`, up to the first process; `c` is the processor when the
scheduler starts, on the boot stack. -/
def Code.boot (code : Code) (env : Env) (entry : Nat) (k : Kernel) (c : Cpu) : Except Halt Machine := do
  let k ← initsys env k
  let p := k.curthread
  let w := loadFrame k (k.procs p).tf (code.procCreate p c.words)
  let k ← initSched k entry
  let (k, c) ← code.dispatch k { c with words := code.kthreadCreate k.idle entry w }
  let _ ← code.paged k
  return ⟨k, c⟩

end Trunix
