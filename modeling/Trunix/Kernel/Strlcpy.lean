import Trunix.Lib.Bytes
import Trunix.Lib.Copy
import Trunix.Kernel.Strings
import Mathlib

/-!
# strlcpy in memory

`strlcpy` of `kernel/string.c` and of `lib/libc/string/strlcpy.c` on a memory in which the
string and the target may overlap; an object does not wrap around the address space, so
that addresses are sums.  Both give back their value and the memory they leave.  The
kernel's copy gives back the length it was called with and does not end a string that does
not fit; the library's copy ends it one byte behind the target.
-/

set_option autoImplicit false

namespace Trunix

open Trunix.Lib

def strlcpyRounds (dst src : Nat) : Nat → Nat → Mem → Mem
  | 0, _, m => m
  | n + 1, i, m =>
      let m := Function.update m (dst + i) (m (src + i))
      if m (src + i) = 0 then m else strlcpyRounds dst src n (i + 1) m

def strlcpyMem (m : Mem) (dst src len : Nat) : Nat × Mem := (len, strlcpyRounds dst src len 0 m)

def Libc.strlcpyEnd (m : Mem) (src : Nat) : Nat → Nat → Option Nat
  | 0, _ => none
  | n + 1, sz => if m (src + sz) = 0 then some sz else Libc.strlcpyEnd m src n (sz + 1)

/-- `strlcpy` of the C library; a string ends within the address space. -/
def Libc.strlcpy (m : Mem) (dst src len : Nat) : Option (Nat × Mem) := do
  let sz ← Libc.strlcpyEnd m src 4294967296 0
  some (sz, Function.update (copyUp (min sz len) dst src m) (dst + min sz len) 0)

def StringCopied (m m' : Mem) (dst len : Nat) (c : List UInt8) : Prop :=
  HoldsString (fun i => m' (dst + i)) (c.take (len - 1)) ∧ Frame m m' (Set.Ico dst (dst + len))

/-! ## The string that is read -/

section Source

variable {m : Mem} {src : Nat} {c : List UInt8}

theorem source_ne_zero (plain : 0 ∉ c) (string : HoldsString (fun i => m (src + i)) c) :
    ∀ i < c.length, m (src + i) ≠ 0 := by
  intro i lt zero
  have byte : m (src + i) = c.get ⟨i, lt⟩ := string.1 i lt
  rw [byte] at zero
  exact plain (zero ▸ List.get_mem c ⟨i, lt⟩)

theorem strlcpyEnd_eq (plain : 0 ∉ c) (string : HoldsString (fun i => m (src + i)) c) :
    ∀ n sz, sz ≤ c.length → c.length - sz < n → Libc.strlcpyEnd m src n sz = some c.length := by
  intro n
  induction n with
  | zero => intro sz _ lt; exact absurd lt (Nat.not_lt_zero _)
  | succ n ih =>
      intro sz le lt
      rw [Libc.strlcpyEnd]
      by_cases last : sz = c.length
      · have nul : m (src + sz) = 0 := by
          rw [last]
          exact string.2
        rw [if_pos nul, last]
      · rw [if_neg (source_ne_zero plain string sz (by omega)), ih (sz + 1) (by omega) (by omega)]

theorem copied_holds (string : HoldsString (fun i => m (src + i)) c) {m' : Mem} {dst len : Nat}
    (fits : c.length < len) :
    HoldsString (fun i => m' (dst + i)) (c.take (len - 1)) ↔
      (∀ i < c.length, m' (dst + i) = m (src + i)) ∧ m' (dst + c.length) = 0 := by
  have whole : c.take (len - 1) = c := List.take_of_length_le (by omega)
  rw [whole]
  constructor
  · intro holds
    exact ⟨fun i lt => (holds.1 i lt).trans (string.1 i lt).symm, holds.2⟩
  · intro both
    exact ⟨fun i lt => (both.1 i lt).trans (string.1 i lt), both.2⟩

/-- A string that does not fit leaves no NUL at the end of the target. -/
theorem not_copied {m' : Mem} {dst len : Nat} (pos : 0 < len) (long : len ≤ c.length)
    (last : m' (dst + (len - 1)) ≠ 0) : ¬ StringCopied m m' dst len c := by
  intro copied
  have length : (c.take (len - 1)).length = len - 1 := by
    rw [List.length_take]
    omega
  have nul := copied.1.2
  rw [length] at nul
  exact last nul

end Source

/-! ## The kernel's copy -/

theorem strlcpyRounds_outside (dst src : Nat) : ∀ (n i : Nat) (m : Mem) (x : Nat),
    x < dst + i ∨ dst + i + n ≤ x → strlcpyRounds dst src n i m x = m x := by
  intro n
  induction n with
  | zero => intro i m x _; rfl
  | succ n ih =>
      intro i m x out
      have here : Function.update m (dst + i) (m (src + i)) x = m x :=
        Function.update_of_ne (by omega) _ _
      rw [strlcpyRounds]
      split
      · exact here
      · rw [ih _ _ _ (by omega), here]

theorem strlcpyRounds_add (dst src : Nat) (b : Nat) : ∀ (a i : Nat) (m : Mem),
    (∀ j < a, m (src + i + j) ≠ 0) →
    strlcpyRounds dst src (a + b) i m = strlcpyRounds dst src b (i + a) (copyUp a (dst + i) (src + i) m) := by
  intro a
  induction a with
  | zero => intro i m _; rw [Nat.zero_add]; rfl
  | succ a ih =>
      intro i m nonzero
      have first : m (src + i) ≠ 0 := nonzero 0 (Nat.succ_pos a)
      have kept : ∀ x, m x ≠ 0 → Function.update m (dst + i) (m (src + i)) x ≠ 0 := by
        intro x old
        by_cases same : x = dst + i
        · rw [same, Function.update_self]
          exact first
        · rw [Function.update_of_ne same]
          exact old
      have count : a + 1 + b = a + b + 1 := by omega
      have next : i + 1 + a = i + (a + 1) := by omega
      rw [count, strlcpyRounds]
      rw [if_neg (kept _ first), ih, copyUp, next]
      · rfl
      · intro j lt
        have cell : src + (i + 1) + j = src + i + (j + 1) := by omega
        rw [cell]
        exact kept _ (nonzero (j + 1) (by omega))

theorem strlcpyRounds_holds {m : Mem} {dst src len : Nat} {c : List UInt8} (plain : 0 ∉ c)
    (string : HoldsString (fun i => m (src + i)) c) (fits : c.length < len) :
    StringCopied m (strlcpyRounds dst src len 0 m) dst len c ↔ dst ≤ src ∨ src + c.length < dst := by
  have nonzero := source_ne_zero plain string
  have count : len = c.length + (len - c.length - 1 + 1) := by omega
  have split : strlcpyRounds dst src len 0 m =
      strlcpyRounds dst src (len - c.length - 1 + 1) c.length (copyUp c.length dst src m) := by
    have rounds := strlcpyRounds_add dst src (len - c.length - 1 + 1) c.length 0 m nonzero
    rw [← count, Nat.zero_add] at rounds
    exact rounds
  generalize atNul : copyUp c.length dst src m = m₁ at split
  rw [strlcpyRounds] at split
  -- the round that reads what is then behind the string
  have here : Function.update m₁ (dst + c.length) (m₁ (src + c.length)) (src + c.length) =
      m₁ (src + c.length) := by
    by_cases same : src + c.length = dst + c.length
    · rw [same, Function.update_self]
    · exact Function.update_of_ne same _ _
  rw [here] at split
  by_cases safe : dst ≤ src ∨ src + c.length < dst
  · have nul : m₁ (src + c.length) = 0 := by
      rw [← atNul, copyUp_outside _ _ (by omega)]
      exact string.2
    rw [if_pos nul] at split
    rw [split]
    refine iff_of_true ⟨(copied_holds string fits).mpr ⟨fun i lt => ?_, ?_⟩, fun x out => ?_⟩ safe
    · rw [Function.update_of_ne (by omega), ← atNul]
      exact copyUp_eq _ _ _ _ (by omega) i lt
    · rw [Function.update_self]
      exact nul
    · have away := outside_of_not_mem out
      rw [Function.update_of_ne (by omega), ← atNul, copyUp_outside _ _ (by omega)]
  · -- the NUL of the string has been overwritten
    have lost : m₁ (src + c.length) ≠ 0 := by
      have cell : src + c.length = dst + (src + c.length - dst) := by omega
      rw [cell, ← atNul]
      exact copyUp_all (P := (· ≠ 0)) _ _ _ _ nonzero _ (by omega)
    rw [if_neg lost] at split
    refine iff_of_false (fun copied => ?_) safe
    have nul := ((copied_holds string fits).mp copied.1).2
    rw [split, strlcpyRounds_outside _ _ _ _ _ _ (.inl (by omega)), Function.update_self] at nul
    exact lost nul

theorem strlcpyMem_copied {m : Mem} {dst src len : Nat} {c : List UInt8} (plain : 0 ∉ c)
    (string : HoldsString (fun i => m (src + i)) c) (pos : 0 < len) :
    StringCopied m (strlcpyMem m dst src len).2 dst len c ↔
      c.length < len ∧ (dst ≤ src ∨ src + c.length < dst) := by
  rcases Nat.lt_or_ge c.length len with fits | long
  · simp only [fits, true_and]
    exact strlcpyRounds_holds plain string fits
  · have nonzero : ∀ j < len, m (src + j) ≠ 0 :=
      fun j lt => source_ne_zero plain string j (by omega)
    have rounds : strlcpyRounds dst src len 0 m = copyUp len dst src m := by
      have all := strlcpyRounds_add dst src 0 len 0 m (by simpa using nonzero)
      exact all
    refine iff_of_false (not_copied pos long ?_) (fun both => absurd both.1 (by omega))
    show strlcpyRounds dst src len 0 m (dst + (len - 1)) ≠ 0
    rw [rounds]
    exact copyUp_all (P := (· ≠ 0)) _ _ _ _ nonzero _ (by omega)

/-! ## The library's copy -/

theorem Libc.strlcpy_copied {m : Mem} {dst src len : Nat} {c : List UInt8} (plain : 0 ∉ c)
    (string : HoldsString (fun i => m (src + i)) c) (inside : c.length < 4294967296) (pos : 0 < len) :
    ∃ m', Libc.strlcpy m dst src len = some (c.length, m') ∧
      (StringCopied m m' dst len c ↔ c.length < len ∧ (dst ≤ src ∨ Repeats m src c.length (dst - src))) := by
  have nonzero := source_ne_zero plain string
  have found := strlcpyEnd_eq plain string 4294967296 0 (Nat.zero_le _) (by omega)
  refine ⟨_, by rw [Libc.strlcpy, found]; rfl, ?_⟩
  rcases Nat.lt_or_ge c.length len with fits | long
  · have least : min c.length len = c.length := by omega
    rw [least]
    simp only [fits, true_and]
    rw [← copyUp_moved]
    have below : ∀ i < c.length,
        Function.update (copyUp c.length dst src m) (dst + c.length) 0 (dst + i) =
          copyUp c.length dst src m (dst + i) :=
      fun i lt => Function.update_of_ne (by omega) _ _
    constructor
    · intro copied
      have holds := ((copied_holds string fits).mp copied.1).1
      exact ⟨fun i lt => (below i lt).symm.trans (holds i lt),
        fun x out => copyUp_outside _ _ (outside_of_not_mem out)⟩
    · intro moved
      refine ⟨(copied_holds string fits).mpr ⟨fun i lt => (below i lt).trans (moved.1 i lt), ?_⟩, ?_⟩
      · exact Function.update_self _ _ _
      · intro x out
        have away := outside_of_not_mem out
        have out' : x ∉ Set.Ico dst (dst + c.length) := by
          rw [Set.mem_Ico]
          omega
        rw [Function.update_of_ne (by omega), moved.2 x out']
  · have least : min c.length len = len := by omega
    refine iff_of_false (not_copied pos long ?_) (fun both => absurd both.1 (by omega))
    rw [least, Function.update_of_ne (by omega)]
    exact copyUp_all (P := (· ≠ 0)) _ _ _ _ (fun j lt => nonzero j (by omega)) _ (by omega)

/-! ## Both copies -/

/-- The kernel's copy never does what `strlcpy` is for: it would have to give back the
length of a string that fits, and gives back the length of the target.  The library's
copy does it for a string that fits and that lies above the target or repeats at its
distance to it. -/
theorem strlcpy_copies_iff {m : Mem} {dst src len : Nat} {c : List UInt8} (plain : 0 ∉ c)
    (string : HoldsString (fun i => m (src + i)) c) (inside : c.length < 4294967296) (pos : 0 < len) :
    ¬ ((strlcpyMem m dst src len).1 = c.length ∧ StringCopied m (strlcpyMem m dst src len).2 dst len c) ∧
    (StringCopied m (strlcpyMem m dst src len).2 dst len c ↔
      c.length < len ∧ (dst ≤ src ∨ src + c.length < dst)) ∧
    ((∃ m', Libc.strlcpy m dst src len = some (c.length, m') ∧ StringCopied m m' dst len c) ↔
      c.length < len ∧ (dst ≤ src ∨ Repeats m src c.length (dst - src))) := by
  have kernel := @strlcpyMem_copied m dst src len c plain string pos
  obtain ⟨m', done, copied⟩ := @Libc.strlcpy_copied m dst src len c plain string inside pos
  refine ⟨?_, kernel, ?_⟩
  · rintro ⟨value, holds⟩
    have fits := (kernel.mp holds).1
    have same : len = c.length := value
    omega
  · rw [← copied, done]
    constructor
    · rintro ⟨m₁, same, holds⟩
      cases same
      exact holds
    · intro holds
      exact ⟨m', rfl, holds⟩

def textMem (a : Nat) (text : List UInt8) : Mem := fun x => if a ≤ x then text.getD (x - a) 0 else 0

theorem textMem_holds (a : Nat) (text : List UInt8) : HoldsString (fun i => textMem a text (a + i)) text := by
  have bytes : (fun i => textMem a text (a + i)) = fun i => text.getD i 0 := by
    funext i
    unfold textMem
    rw [if_pos (Nat.le_add_right a i), Nat.add_sub_cancel_left]
  rw [bytes]
  exact holdsString_getD text

theorem strlcpy_copies_iff_short : ∃ m',
    Libc.strlcpy (textMem 4096 [97, 98]) 8192 4096 8 = some (2, m') ∧
      StringCopied (textMem 4096 [97, 98]) m' 8192 8 [97, 98] := by
  have both := @strlcpy_copies_iff (textMem 4096 [97, 98]) 8192 4096 8 [97, 98] (by decide)
    (textMem_holds 4096 [97, 98]) (by decide) (by decide)
  have apart : Repeats (textMem 4096 [97, 98]) 4096 [(97 : UInt8), 98].length (8192 - 4096) :=
    Repeats.of_le (by decide)
  exact both.2.2.mpr ⟨by decide, .inr apart⟩

/-- A string as long as its target: the kernel gives back the right length and no NUL. -/
theorem strlcpy_leaves_no_nul : ¬ ∀ (m : Mem) (dst src len : Nat) (c : List UInt8), 0 ∉ c →
    HoldsString (fun i => m (src + i)) c → c.length < 4294967296 → 0 < len →
    ((strlcpyMem m dst src len).1 = c.length ∧ StringCopied m (strlcpyMem m dst src len).2 dst len c) ∧
      (∃ m', Libc.strlcpy m dst src len = some (c.length, m') ∧ StringCopied m m' dst len c) ∧
      Libc.strlcpy m dst src len = some (strlcpyMem m dst src len) := by
  intro all
  have copied := (all (textMem 4096 [97, 98]) 8192 4096 2 [97, 98] (by decide)
    (textMem_holds 4096 [97, 98]) (by decide) (by decide)).1.2
  have last : (strlcpyMem (textMem 4096 [97, 98]) 8192 4096 2).2 8193 ≠ 0 := by decide
  exact last copied.1.2

/-! ## The copy of a string that is read elsewhere -/

theorem strlcpyRounds_apart {dst src len : Nat} (apart : dst + len ≤ src ∨ src + len ≤ dst) :
    ∀ (n i : Nat) (m : Mem) (s d : Nat → UInt8), i + n = len → (∀ k < len, s k = m (src + k)) →
      (∀ k, d k = m (dst + k)) →
      ∀ k, strlcpyRounds dst src n i m (dst + k) = strlcpyLoop s n i d k := by
  intro n
  induction n with
  | zero => intro i m s d _ _ target k; exact (target k).symm
  | succ n ih =>
      intro i m s d count source target k
      have written : ∀ k, Function.update d i (s i) k = Function.update m (dst + i) (m (src + i)) (dst + k) := by
        intro k
        by_cases same : k = i
        · rw [same, Function.update_self, Function.update_self, source i (by omega)]
        · rw [Function.update_of_ne same, Function.update_of_ne (by omega), target k]
      have unread : ∀ k < len, s k = Function.update m (dst + i) (m (src + i)) (src + k) := by
        intro k lt
        rw [Function.update_of_ne (by omega), source k lt]
      rw [strlcpyRounds, strlcpyLoop]
      simp only [← unread i (by omega)]
      split
      · exact (written k).symm
      · exact ih (i + 1) _ s _ (by omega) unread written k

/-- Where the ranges do not overlap the copy in memory is the copy of the bytes. -/
theorem strlcpyMem_eq {m : Mem} {dst src len : Nat} (apart : dst + len ≤ src ∨ src + len ≤ dst) (k : Nat) :
    (strlcpyMem m dst src len).2 (dst + k) = strlcpy (fun i => m (dst + i)) (fun i => m (src + i)) len k :=
  strlcpyRounds_apart apart len 0 m _ _ (Nat.zero_add len) (fun _ _ => rfl) (fun _ => rfl) k

end Trunix
