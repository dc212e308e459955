import Trunix.Lib.Bytes
import Mathlib

/-!
# Strings of the kernel

`memcmp`, `strcmp` and `strlcpy` of `kernel/string.c`.  An operand that is read byte by
byte is a function of the index; a string that is known to end is a `CString`, the list of
its bytes before the NUL.
-/

set_option autoImplicit false

namespace Trunix

open Trunix.Lib

@[ext] structure CString where
  bytes : List UInt8
  plain : 0 ∉ bytes
  deriving DecidableEq, Repr

/-- A `char` as an `int`; it is signed on this machine. -/
def schar (b : UInt8) : Int := if b.toNat < 128 then b.toNat else b.toNat - 256

/-- `memcmp` over the length of the first operand. -/
def memcmp : List UInt8 → (Nat → UInt8) → Int
  | [], _ => 0
  | a :: rest, s =>
      if a = s 0 then memcmp rest (fun i => s (i + 1)) else (a.toNat : Int) - ((s 0).toNat : Int)

/-- `strcmp` of the string with the bytes of the list, which may have a NUL among them. -/
def strcmp : List UInt8 → (Nat → UInt8) → Int
  | [], s => 0 - schar (s 0)
  | a :: rest, s =>
      if a ≠ 0 ∧ s 0 ≠ 0 then
        if a = s 0 then strcmp rest (fun i => s (i + 1)) else schar a - schar (s 0)
      else schar a - schar (s 0)

def strlcpyLoop (src : Nat → UInt8) : Nat → Nat → (Nat → UInt8) → Nat → UInt8
  | 0, _, dst => dst
  | n + 1, i, dst =>
      let dst := Function.update dst i (src i)
      if src i = 0 then dst else strlcpyLoop src n (i + 1) dst

def strlcpy (dst src : Nat → UInt8) (len : Nat) : Nat → UInt8 := strlcpyLoop src len 0 dst

/-! ## Comparisons -/

theorem memcmp_eq_zero : ∀ (l : List UInt8) (s : Nat → UInt8),
    memcmp l s = 0 ↔ ∀ i (lt : i < l.length), s i = l.get ⟨i, lt⟩ := by
  intro l
  induction l with
  | nil => intro s; exact iff_of_true rfl (fun i lt => absurd lt (Nat.not_lt_zero i))
  | cons a rest ih =>
      intro s
      by_cases same : a = s 0
      · rw [memcmp, if_pos same, ih]
        constructor
        · intro later i lt
          cases i with
          | zero => exact same.symm
          | succ i => exact later i (Nat.lt_of_succ_lt_succ lt)
        · intro all i lt
          exact all (i + 1) (Nat.succ_lt_succ lt)
      · rw [memcmp, if_neg same]
        constructor
        · intro zero
          have value : a.toNat = (s 0).toNat := by omega
          exact absurd (UInt8.toNat_inj.mp value) same
        · intro all
          exact absurd (all 0 (Nat.succ_pos _)).symm same

theorem schar_inj {a b : UInt8} (h : schar a = schar b) : a = b := by
  have ltA := a.toNat_lt
  have ltB := b.toNat_lt
  simp only [schar] at h
  apply UInt8.toNat_inj.mp
  split at h <;> split at h <;> omega

def HoldsString (s : Nat → UInt8) (c : List UInt8) : Prop :=
  (∀ i (lt : i < c.length), s i = c.get ⟨i, lt⟩) ∧ s c.length = 0

theorem holdsString_getD (c : List UInt8) : HoldsString (fun i => c.getD i 0) c := by
  refine ⟨fun i lt => ?_, List.getD_eq_default _ _ (Nat.le_refl _)⟩
  exact List.getD_eq_getElem _ _ lt

theorem holdsString_cons {s : Nat → UInt8} {a : UInt8} {c : List UInt8} :
    HoldsString s (a :: c) ↔ s 0 = a ∧ HoldsString (fun i => s (i + 1)) c := by
  constructor
  · intro h
    exact ⟨h.1 0 (Nat.succ_pos _), fun i lt => h.1 (i + 1) (Nat.succ_lt_succ lt), h.2⟩
  · intro h
    refine ⟨fun i lt => ?_, h.2.2⟩
    cases i with
    | zero => exact h.1
    | succ i => exact h.2.1 i (Nat.lt_of_succ_lt_succ lt)

theorem HoldsString.unique {s : Nat → UInt8} : ∀ {c d : List UInt8}, 0 ∉ c → 0 ∉ d →
    HoldsString s c → HoldsString s d → c = d := by
  intro c
  induction c generalizing s with
  | nil =>
      intro d _ plain h h'
      cases d with
      | nil => rfl
      | cons b rest =>
          have first := (holdsString_cons.mp h').1
          exact absurd (first.symm.trans h.2) (List.ne_of_not_mem_cons plain).symm
  | cons a rest ih =>
      intro d plain plain' h h'
      obtain ⟨first, later⟩ := holdsString_cons.mp h
      cases d with
      | nil => exact absurd (first.symm.trans h'.2) (List.ne_of_not_mem_cons plain).symm
      | cons b rest' =>
          obtain ⟨first', later'⟩ := holdsString_cons.mp h'
          rw [ih (List.not_mem_of_not_mem_cons plain) (List.not_mem_of_not_mem_cons plain') later later',
            ← first, first']

theorem strcmp_eq_zero : ∀ {c : List UInt8} {s : Nat → UInt8}, 0 ∉ c →
    (strcmp c s = 0 ↔ HoldsString s c) := by
  intro c
  induction c with
  | nil =>
      intro s _
      have value : schar 0 = 0 := by decide
      constructor
      · intro zero
        refine ⟨fun i lt => absurd lt (Nat.not_lt_zero i), schar_inj ?_⟩
        rw [strcmp] at zero
        rw [value]
        exact (sub_eq_zero.mp zero).symm
      · intro h
        have nul : s 0 = 0 := h.2
        rw [strcmp, nul, value]
        rfl
  | cons a rest ih =>
      intro s plain
      have nonzero : a ≠ 0 := (List.ne_of_not_mem_cons plain).symm
      rw [holdsString_cons, ← ih (List.not_mem_of_not_mem_cons plain), strcmp]
      by_cases same : a = s 0
      · rw [if_pos ⟨nonzero, same ▸ nonzero⟩, if_pos same]
        exact ⟨fun zero => ⟨same.symm, zero⟩, fun both => both.2⟩
      · have differs : schar a - schar (s 0) ≠ 0 := fun zero => same (schar_inj (sub_eq_zero.mp zero))
        have value : (if a ≠ 0 ∧ s 0 ≠ 0 then
            if a = s 0 then strcmp rest (fun i => s (i + 1)) else schar a - schar (s 0)
          else schar a - schar (s 0)) = schar a - schar (s 0) := by
          rw [if_neg same, ite_self]
        rw [value]
        exact iff_of_false differs (fun both => same both.1.symm)

/-! ## Copies -/

theorem strlcpyLoop_eq (src : Nat → UInt8) : ∀ (n i : Nat) (dst : Nat → UInt8) (k : Nat),
    strlcpyLoop src n i dst k =
      if i ≤ k ∧ k < i + n ∧ ∀ j, i ≤ j → j < k → src j ≠ 0 then src k else dst k := by
  intro n
  induction n with
  | zero =>
      intro i dst k
      have none : ¬ (i ≤ k ∧ k < i + 0 ∧ ∀ j, i ≤ j → j < k → src j ≠ 0) := by omega
      rw [strlcpyLoop, if_neg none]
  | succ n ih =>
      intro i dst k
      by_cases here : k = i
      · subst here
        have inside : k ≤ k ∧ k < k + (n + 1) ∧ ∀ j, k ≤ j → j < k → src j ≠ 0 :=
          ⟨Nat.le_refl _, by omega, fun j lo hi => by omega⟩
        rw [if_pos inside, strlcpyLoop]
        by_cases stop : src k = 0
        · rw [if_pos stop, Function.update_self]
        · rw [if_neg stop, ih, if_neg (by omega), Function.update_self]
      · have other : Function.update dst i (src i) k = dst k := Function.update_of_ne here _ _
        rw [strlcpyLoop]
        by_cases stop : src i = 0
        · have out : ¬ (i ≤ k ∧ k < i + (n + 1) ∧ ∀ j, i ≤ j → j < k → src j ≠ 0) := by
            rintro ⟨lo, _, all⟩
            exact all i (Nat.le_refl _) (by omega) stop
          rw [if_pos stop, other, if_neg out]
        · rw [if_neg stop, ih, other]
          congr 1
          apply propext
          constructor
          · rintro ⟨lo, hi, all⟩
            refine ⟨by omega, by omega, fun j lo' hi' => ?_⟩
            by_cases first : j = i
            · rw [first]
              exact stop
            · exact all j (by omega) hi'
          · rintro ⟨lo, hi, all⟩
            exact ⟨by omega, by omega, fun j lo' hi' => all j (by omega) hi'⟩

theorem strlcpy_holds {dst src : Nat → UInt8} {len : Nat} {c : List UInt8} (plain : 0 ∉ c)
    (fits : c.length < len) (h : HoldsString src c) : HoldsString (strlcpy dst src len) c := by
  have nonzero : ∀ j < c.length, src j ≠ 0 := by
    intro j lt zero
    rw [h.1 j lt] at zero
    exact plain (zero ▸ List.get_mem c ⟨j, lt⟩)
  have copied : ∀ k ≤ c.length, strlcpy dst src len k = src k := by
    intro k le
    have inside : 0 ≤ k ∧ k < 0 + len ∧ ∀ j, 0 ≤ j → j < k → src j ≠ 0 :=
      ⟨Nat.zero_le _, by omega, fun j _ lt => nonzero j (by omega)⟩
    rw [strlcpy, strlcpyLoop_eq, if_pos inside]
  exact ⟨fun i lt => (copied i (Nat.le_of_lt lt)).trans (h.1 i lt), (copied _ (Nat.le_refl _)).trans h.2⟩

end Trunix
