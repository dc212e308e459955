import Trunix.Lib.Swap
import Mathlib

/-!
# Numerals

`itoa` of `lib/libc/stdio/vfprintf.c`.  The digits are stored from the last to the first
and then exchanged in place; a negative base asks for a sign.  The text of a number is
stated with `Nat.digits`.
-/

set_option autoImplicit false

namespace Trunix.Libc

open Trunix.Lib

def char (c : Char) : UInt8 := UInt8.ofNat c.toNat

def lower : List UInt8 :=
  ['0', '1', '2', '3', '4', '5', '6', '7', '8', '9', 'a', 'b', 'c', 'd', 'e', 'f'].map char

def upper : List UInt8 :=
  ['0', '1', '2', '3', '4', '5', '6', '7', '8', '9', 'A', 'B', 'C', 'D', 'E', 'F'].map char

def hexTable (ucase : Bool) : List UInt8 := if ucase then upper else lower

/-- The loop that stores the digits; `un` itself bounds the number of rounds. -/
def digitLoop (hex : List UInt8) (base : Nat) : Nat → Nat → List UInt8 → List UInt8
  | 0, _, s => s
  | fuel + 1, un, s =>
      if 0 < un then digitLoop hex base fuel (un / base) (s ++ [hex.getD (un % base) 0]) else s

/-- The characters before the NUL in `s`.  The words from `0x80000000` on are the negative
`int`s, and `-n` is taken modulo `2 ^ 32`. -/
def itoa (n : UInt32) (base : Int) (ucase : Bool) : List UInt8 :=
  let hex := hexTable ucase
  if n = 0 then [char '0']
  else if base < 0 ∧ ¬ n < 0x80000000 then
    let un := (-n).toNat
    let s := digitLoop hex base.natAbs un un [char '-']
    reverseLoop s.length s 1 (s.length - 1)
  else
    let un := n.toNat
    let s := digitLoop hex base.natAbs un un []
    reverseLoop s.length s 0 (s.length - 1)

/-! ## The text of a number -/

/-- The numeral of `un`, its first digit first; zero has one digit too. -/
def numeral (ucase : Bool) (base un : Nat) : List UInt8 :=
  if un = 0 then [char '0']
  else (Nat.digits base un).reverse.map fun d => (hexTable ucase).getD d 0

theorem digitLoop_eq {hex : List UInt8} {base : Nat} (two : 1 < base) :
    ∀ (fuel un : Nat) (s : List UInt8), un ≤ fuel →
    digitLoop hex base fuel un s = s ++ (Nat.digits base un).map fun d => hex.getD d 0 := by
  intro fuel
  induction fuel with
  | zero =>
      intro un s small
      have zero : un = 0 := Nat.le_zero.mp small
      simp [zero, digitLoop]
  | succ fuel ih =>
      intro un s small
      by_cases pos : 0 < un
      · have less : un / base < un := Nat.div_lt_self pos two
        rw [digitLoop, if_pos pos, ih _ _ (by omega), Nat.digits_def' two pos, List.map_cons,
          List.append_assoc]
        rfl
      · have zero : un = 0 := by omega
        simp [zero, digitLoop]

theorem reversed_digits {base un : Nat} (two : 1 < base) (pos : un ≠ 0) (ucase : Bool)
    (sign : List UInt8) :
    let s := digitLoop (hexTable ucase) base un un sign
    reverseLoop s.length s sign.length (s.length - 1) = sign ++ numeral ucase base un := by
  intro s
  have stored : s = sign ++ (Nat.digits base un).map fun d => (hexTable ucase).getD d 0 :=
    digitLoop_eq two un un sign (Nat.le_refl _)
  have reversed := reverseLoop_eq s.length sign
    ((Nat.digits base un).map fun d => (hexTable ucase).getD d 0) [] (by rw [stored]; simp)
  rw [List.append_nil, List.append_nil, ← stored] at reversed
  have size : sign.length + ((Nat.digits base un).map fun d => (hexTable ucase).getD d 0).length - 1 =
      s.length - 1 := by
    rw [stored, List.length_append]
  rw [size] at reversed
  rw [reversed, numeral, if_neg pos, List.map_reverse]

theorem toNat_ne_zero {n : UInt32} (nonzero : n ≠ 0) : n.toNat ≠ 0 := fun none =>
  nonzero (UInt32.toNat_inj.mp none)

theorem toNat_neg_ne_zero {n : UInt32} (nonzero : n ≠ 0) : (-n).toNat ≠ 0 := by
  refine toNat_ne_zero fun none => nonzero ?_
  have same : -n = -0 := none
  exact UInt32.neg_inj.mp same

/-- The text for a negative base has a sign, in front of the digits of the negated word. -/
theorem itoa_eq {base : Int} (two : 1 < base.natAbs) (n : UInt32) (ucase : Bool) :
    itoa n base ucase =
      if base < 0 ∧ ¬ n < 0x80000000 then char '-' :: numeral ucase base.natAbs (-n).toNat
      else numeral ucase base.natAbs n.toNat := by
  by_cases zero : n = 0
  · have small : ¬ (base < 0 ∧ ¬ (0 : UInt32) < 0x80000000) := fun both => both.2 (by decide)
    rw [zero, if_neg small]
    rfl
  · by_cases signed : base < 0 ∧ ¬ n < 0x80000000
    · have digits := reversed_digits two (toNat_neg_ne_zero zero) ucase [char '-']
      rw [itoa, if_neg zero, if_pos signed, if_pos signed]
      exact digits
    · have digits := reversed_digits two (toNat_ne_zero zero) ucase []
      rw [itoa, if_neg zero, if_neg signed, if_neg signed]
      exact digits

theorem itoa_unsigned {base : Nat} (two : 1 < base) (n : UInt32) (ucase : Bool) :
    itoa n base ucase = numeral ucase base n.toNat := by
  have plain : ¬ ((base : Int) < 0 ∧ ¬ n < 0x80000000) := by omega
  rw [itoa_eq (by rw [Int.natAbs_natCast]; exact two), if_neg plain, Int.natAbs_natCast]

theorem itoa_signed {base : Nat} (two : 1 < base) (n : UInt32) (ucase : Bool) :
    itoa n (-(base : Int)) ucase =
      if n < 0x80000000 then numeral ucase base n.toNat
      else char '-' :: numeral ucase base (-n).toNat := by
  have size : (-(base : Int)).natAbs = base := by rw [Int.natAbs_neg, Int.natAbs_natCast]
  rw [itoa_eq (by rw [size]; exact two), size]
  by_cases small : n < 0x80000000
  · rw [if_pos small, if_neg fun both => both.2 small]
  · have signed : -(base : Int) < 0 ∧ ¬ n < 0x80000000 := ⟨by omega, small⟩
    rw [if_neg small, if_pos signed]

theorem numeral_ucase {base : Nat} (two : 1 < base) (ten : base ≤ 10) (ucase : Bool) (un : Nat) :
    numeral ucase base un = numeral false base un := by
  have same : ∀ d < 10, (hexTable ucase).getD d 0 = (hexTable false).getD d 0 := by
    cases ucase <;> decide
  rw [numeral, numeral]
  congr 1
  apply List.map_congr_left
  intro d mem
  have digit := Nat.digits_lt_base two (List.mem_reverse.mp mem)
  exact same d (by omega)

end Trunix.Libc
