import Trunix.Lib.Bytes
import Trunix.Lib.Run

/-!
# Machine words, rounding and the two views of an address

The helpers of `include/trunix/vm.h`.  A `u32` is a natural number below `2 ^ 32`
and every sum that can leave that range is cut back with `u32`.  The linker places
the kernel at `_kernel_offset = 0x80000000`, so `v2p` and `p2v` clear and set the
top bit of a word.
-/

set_option autoImplicit false

namespace Trunix

/-- How a kernel routine can end other than by returning. -/
inductive Halt where
  /-- an `assert` does not hold -/
  | assertion
  /-- a call of `panic` -/
  | panic
  /-- an access through `NULL`, a page fault unless the first page is mapped -/
  | fault
  /-- an access past the end of an array -/
  | bounds
  /-- a list walk that never meets its end -/
  | loops
  /-- the `sti`/`hlt` loop of the scheduler -/
  | idle
  /-- a general protection fault in the kernel, which runs with the user's data segments -/
  | protection
  /-- a string routine with the direction flag of the user set, which runs backwards -/
  | backwards
  deriving DecidableEq, Repr

def u32 (x : Nat) : Nat := x % 0x100000000

def roundup (x a : Nat) : Nat :=
  let p := x % a
  if p = 0 then x else u32 (x + a - p)

def rounddown (x a : Nat) : Nat :=
  let p := x % a
  if p = 0 then x else x - p

def pgRoundup (x : Nat) : Nat := roundup x 0x1000

def pgRounddown (x : Nat) : Nat := rounddown x 0x1000

def kernelOffset : Nat := 0x80000000

def v2p (x : Nat) : Nat := x &&& 0x7FFFFFFF

def p2v (x : Nat) : Nat := x ||| kernelOffset

/-! ## Rounding -/

theorem u32_lt (x : Nat) : u32 x < 0x100000000 := Nat.mod_lt _ (by decide)

theorem u32_of_lt {x : Nat} (h : x < 0x100000000) : u32 x = x := Nat.mod_eq_of_lt h

theorem u32_add (x y : Nat) : u32 (u32 x + y) = u32 (x + y) := Nat.mod_add_mod x _ y

theorem rounddown_eq (x a : Nat) : rounddown x a = x - x % a := by
  simp only [rounddown]
  split
  · omega
  · rfl

theorem pgRounddown_eq (x : Nat) : pgRounddown x = x - x % 0x1000 := rounddown_eq x 0x1000

theorem pgRounddown_mod (x : Nat) : pgRounddown x % 0x1000 = 0 := by
  rw [pgRounddown_eq]
  omega

theorem pgRounddown_of_aligned {x : Nat} (h : x % 0x1000 = 0) : pgRounddown x = x := by
  rw [pgRounddown_eq]
  omega

theorem roundup_of_dvd {x a : Nat} (h : x % a = 0) : roundup x a = x := by
  simp [roundup, h]

theorem pgRoundup_of_aligned {x : Nat} (h : x % 0x1000 = 0) : pgRoundup x = x := roundup_of_dvd h

theorem pgRoundup_mod (x : Nat) : pgRoundup x % 0x1000 = 0 := by
  simp only [pgRoundup, roundup, u32]
  split <;> omega

/-- Below the last page boundary rounding up does not wrap. -/
theorem pgRoundup_eq {x : Nat} (h : x ≤ 0xFFFFF000) :
    pgRoundup x = (x + 0xFFF) / 0x1000 * 0x1000 := by
  simp only [pgRoundup, roundup, u32]
  split <;> omega

theorem le_pgRoundup {x : Nat} (h : x ≤ 0xFFFFF000) : x ≤ pgRoundup x := by
  rw [pgRoundup_eq h]
  omega

theorem pgRoundup_lt {x : Nat} (h : x ≤ 0xFFFFF000) : pgRoundup x < x + 0x1000 := by
  rw [pgRoundup_eq h]
  omega

theorem pgRoundup_lt_u32 {x : Nat} (h : x < 0x100000000) : pgRoundup x < 0x100000000 := by
  simp only [pgRoundup, roundup, u32]
  split <;> omega

theorem pgRoundup_le {x y : Nat} (h : x ≤ y) (aligned : y % 0x1000 = 0) (bound : y < 0x100000000) :
    pgRoundup x ≤ y := by
  rw [pgRoundup_eq (by omega)]
  omega

theorem pgRoundup_pos {x : Nat} (h : x ≤ 0xFFFFF000) (pos : 1 ≤ x) : 0 < pgRoundup x :=
  Nat.lt_of_lt_of_le pos (le_pgRoundup h)

/-! ## Physical and kernel addresses -/

theorem v2p_eq (x : Nat) : v2p x = x % 0x80000000 := Nat.and_two_pow_sub_one_eq_mod x 31

theorem v2p_lt (x : Nat) : v2p x < 0x100000000 := by
  rw [v2p_eq]
  omega

theorem p2v_of_lt {x : Nat} (h : x < 0x80000000) : p2v x = 0x80000000 + x := by
  rw [p2v, Nat.or_comm]
  exact (Nat.two_pow_add_eq_or_of_lt (i := 31) h 1).symm

theorem p2v_of_ge {x : Nat} (lo : 0x80000000 ≤ x) (hi : x < 0x100000000) : p2v x = x := by
  obtain ⟨y, rfl⟩ := Nat.exists_eq_add_of_le lo
  have bound : y < 0x80000000 := by omega
  rw [← p2v_of_lt bound, p2v, p2v, Nat.or_assoc, Nat.or_self]

/-- On the kernel half the two conversions are inverse to each other. -/
theorem p2v_v2p {x : Nat} (lo : 0x80000000 ≤ x) (hi : x < 0x100000000) : p2v (v2p x) = x := by
  rw [v2p_eq, p2v_of_lt (by omega)]
  omega

end Trunix
