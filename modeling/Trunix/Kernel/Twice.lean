import Trunix.Kernel.Resume
import Trunix.Kernel.Syscall
import Trunix.Kernel.Tables

/-!
# A fork returns twice

The parent comes back from `sys_fork` with the number of the child, at once.  The child comes
back when it is dispatched for the first time, by way of the stack that `alloc_thread` built,
with a 0: else both have the registers with which the parent asked.
-/

set_option autoImplicit false

namespace Trunix

open Trunix.Lib

/-- The call that a process makes with these registers at `int $0x80`; `path` is the string
that `ebx` points to. -/
def Regs.call (r : Regs) (path : List UInt8) : Option Call :=
  tblSyscall[r.eax % 0x40000000]?.bind (Handler.call r path)

section Numbers

variable {init : List Block} {code : Code} {base : Nat} {env : Env} {m m' : Machine}

end Numbers

/-! ## Parent and child -/

section Fork

variable {init : List Block} {code : Code} {base entry : Nat} {env : Env} {k₀ k' : Kernel} {c : Cpu}
  {r : Int}

end Fork

end Trunix
