import Trunix.Libc.Itoa
import Mathlib

/-!
# The buffer of `itoa`

`static char s[33]` as an array with a fixed number of bytes.  A store behind its end, and a
read behind the end of the table of digits, has no meaning; the text and its NUL fit, so
`itoa` performs neither, and the bytes behind the NUL stay.
-/

set_option autoImplicit false

namespace Trunix.Libc

open Trunix.Lib

def put (s : List UInt8) (i : Nat) (c : UInt8) : Option (List UInt8) :=
  if i < s.length then some (s.set i c) else none

/-- The loop that stores the digits, with the array and the index behind the last digit. -/
def storeDigits (hex : List UInt8) (base : Nat) : Nat → Nat → List UInt8 → Nat → Option (List UInt8 × Nat)
  | 0, _, s, i => some (s, i)
  | fuel + 1, un, s, i =>
      if 0 < un then do
        let c ← hex[un % base]?
        let s ← put s i c
        storeDigits hex base fuel (un / base) s (i + 1)
      else some (s, i)

def exchange : Nat → List UInt8 → Nat → Nat → Option (List UInt8)
  | 0, s, _, _ => some s
  | fuel + 1, s, j, i =>
      if j < i then do
        let c ← s[i]?
        let d ← s[j]?
        let s ← put s i d
        let s ← put s j c
        exchange fuel s (j + 1) (i - 1)
      else some s

/-- From the digit loop on; `j` is where the digits start. -/
def writeNumeral (hex : List UInt8) (base : Nat) (s : List UInt8) (j un : Nat) : Option (List UInt8) := do
  let stored ← storeDigits hex base un un s j
  let s ← put stored.1 stored.2 0
  exchange stored.2 s j (stored.2 - 1)

def itoaInto (s : List UInt8) (n : UInt32) (base : Int) (ucase : Bool) : Option (List UInt8) :=
  if n = 0 then do
    let s ← put s 0 (char '0')
    put s 1 0
  else if base < 0 ∧ ¬ n < 0x80000000 then do
    let s ← put s 0 (char '-')
    writeNumeral (hexTable ucase) base.natAbs s 1 (-n).toNat
  else writeNumeral (hexTable ucase) base.natAbs s 0 n.toNat

def holding (text s : List UInt8) : List UInt8 := text ++ 0 :: s.drop (text.length + 1)

/-! ## Stores -/

theorem put_append (pre rest : List UInt8) (x c : UInt8) :
    put (pre ++ x :: rest) pre.length c = some (pre ++ c :: rest) := by
  have inside : pre.length < (pre ++ x :: rest).length := by
    rw [List.length_append, List.length_cons]
    omega
  rw [put, if_pos inside, List.set_append_right pre.length c (Nat.le_refl _), Nat.sub_self,
    List.set_cons_zero]

theorem storeDigits_eq {base : Nat} (two : 1 < base) (sixteen : base ≤ 16) (ucase : Bool) :
    ∀ (fuel un : Nat) (pre rest : List UInt8), un ≤ fuel → (Nat.digits base un).length ≤ rest.length →
    storeDigits (hexTable ucase) base fuel un (pre ++ rest) pre.length =
      some (pre ++ ((Nat.digits base un).map (fun d => (hexTable ucase).getD d 0) ++
        rest.drop (Nat.digits base un).length), pre.length + (Nat.digits base un).length) := by
  intro fuel
  induction fuel with
  | zero =>
      intro un pre rest small _
      rw [Nat.le_zero.mp small, Nat.digits_zero]
      rfl
  | succ fuel ih =>
      intro un pre rest small room
      by_cases pos : 0 < un
      · rw [Nat.digits_def' two pos] at room ⊢
        cases rest with
        | nil => exact absurd room (by simp)
        | cons x rest =>
            have less : un / base < un := Nat.div_lt_self pos two
            have digit : un % base < (hexTable ucase).length := by
              have below : un % base < base := Nat.mod_lt _ (by omega)
              have size : (hexTable ucase).length = 16 := by cases ucase <;> rfl
              omega
            have shorter : (Nat.digits base (un / base)).length ≤ rest.length := by
              rw [List.length_cons, List.length_cons] at room
              omega
            have read : (hexTable ucase)[un % base]? = some ((hexTable ucase).getD (un % base) 0) := by
              rw [List.getD_eq_getElem?_getD, List.getElem?_eq_getElem digit]
              rfl
            have next := ih (un / base) (pre ++ [(hexTable ucase).getD (un % base) 0]) rest (by omega) shorter
            rw [List.length_append, List.length_singleton, List.append_assoc, List.singleton_append] at next
            rw [storeDigits, if_pos pos, read, Option.bind_eq_bind, Option.bind_some, put_append,
              Option.bind_eq_bind, Option.bind_some, next]
            simp only [List.map_cons, List.append_assoc, List.cons_append, List.length_cons,
              List.drop_succ_cons]
            congr 2
            omega
      · have zero : un = 0 := by omega
        rw [zero, Nat.digits_zero]
        rfl

theorem exchange_eq : ∀ (fuel : Nat) (s : List UInt8) (j i : Nat), i < s.length →
    exchange fuel s j i = some (reverseLoop fuel s j i) := by
  intro fuel
  induction fuel with
  | zero =>
      intro s j i _
      rfl
  | succ fuel ih =>
      intro s j i inside
      by_cases before : j < i
      · have first : j < s.length := Nat.lt_trans before inside
        have size : (swap s i j).length = s.length := by simp [swap]
        have read : ∀ k < s.length, s[k]? = some (s.getD k default) := by
          intro k bound
          rw [List.getD_eq_getElem?_getD, List.getElem?_eq_getElem bound]
          rfl
        have again : j < (s.set i (s.getD j default)).length := by
          rw [List.length_set]
          exact first
        rw [exchange, if_pos before, reverseLoop, if_pos before, read i inside, read j first]
        simp only [Option.bind_eq_bind, Option.bind_some, put, if_pos inside, if_pos again]
        exact ih (swap s i j) (j + 1) (i - 1) (by omega)
      · rw [exchange, if_neg before, reverseLoop, if_neg before]

/-- The digits come out in order behind the sign, and the NUL behind them. -/
theorem fill_eq {base un : Nat} (two : 1 < base) (sixteen : base ≤ 16) (pos : un ≠ 0) (ucase : Bool)
    (sign rest : List UInt8) (room : (numeral ucase base un).length < rest.length) :
    writeNumeral (hexTable ucase) base (sign ++ rest) sign.length un =
      some (sign ++ holding (numeral ucase base un) rest) := by
  have size : (numeral ucase base un).length = (Nat.digits base un).length := by
    rw [numeral, if_neg pos, List.length_map, List.length_reverse]
  rw [size] at room
  have stored := storeDigits_eq two sixteen ucase un un sign rest (Nat.le_refl _) (Nat.le_of_lt room)
  obtain ⟨x, tail, split⟩ : ∃ x tail, rest.drop (Nat.digits base un).length = x :: tail :=
    List.exists_cons_of_length_pos (by rw [List.length_drop]; omega)
  have behind : tail = rest.drop ((Nat.digits base un).length + 1) := by
    rw [← List.drop_drop, split]
    rfl
  have ended := put_append
    (sign ++ (Nat.digits base un).map fun d => (hexTable ucase).getD d 0) tail x 0
  rw [List.length_append, List.length_map, List.append_assoc, List.append_assoc] at ended
  have inside : sign.length + (Nat.digits base un).length - 1 <
      (sign ++ ((Nat.digits base un).map (fun d => (hexTable ucase).getD d 0) ++ 0 :: tail)).length := by
    rw [List.length_append, List.length_append, List.length_map, List.length_cons]
    omega
  have reversed := reverseLoop_eq (sign.length + (Nat.digits base un).length) sign
    ((Nat.digits base un).map fun d => (hexTable ucase).getD d 0) (0 :: tail)
    (by rw [List.length_map]; omega)
  rw [List.length_map] at reversed
  rw [writeNumeral, stored, Option.bind_eq_bind, Option.bind_some, split, ended, Option.bind_eq_bind,
    Option.bind_some, exchange_eq _ _ _ _ inside, reversed, holding, size, numeral, if_neg pos,
    List.map_reverse, behind]

theorem put_zero {s : List UInt8} (two : 1 < s.length) :
    (do let s ← put s 0 (char '0'); put s 1 0) = some (holding [char '0'] s) := by
  cases s with
  | nil => exact absurd two (by decide)
  | cons x s =>
      cases s with
      | nil => exact absurd two (Nat.lt_irrefl 1)
      | cons y s => rfl

theorem fill_sign {base un : Nat} (two : 1 < base) (sixteen : base ≤ 16) (pos : un ≠ 0) (ucase : Bool)
    {s : List UInt8} (room : (char '-' :: numeral ucase base un).length < s.length) :
    (do let s ← put s 0 (char '-'); writeNumeral (hexTable ucase) base s 1 un) =
      some (holding (char '-' :: numeral ucase base un) s) := by
  cases s with
  | nil => exact absurd room (by simp)
  | cons x s =>
      have first : put (x :: s) 0 (char '-') = some ([char '-'] ++ s) := put_append [] s x (char '-')
      have rest : (numeral ucase base un).length < s.length := Nat.lt_of_succ_lt_succ room
      have filled := fill_eq two sixteen pos ucase [char '-'] s rest
      rw [first, Option.bind_eq_bind, Option.bind_some]
      exact filled

/-- In an array with room for it `itoa` leaves the text, a NUL, and the rest as it was. -/
theorem itoaInto_eq {base : Int} (two : 1 < base.natAbs) (sixteen : base.natAbs ≤ 16) (n : UInt32)
    (ucase : Bool) {s : List UInt8} (room : (itoa n base ucase).length < s.length) :
    itoaInto s n base ucase = some (holding (itoa n base ucase) s) := by
  by_cases zero : n = 0
  · have text : itoa n base ucase = [char '0'] := by rw [itoa, if_pos zero]
    rw [text] at room ⊢
    rw [itoaInto, if_pos zero]
    exact put_zero room
  have text := itoa_eq two n ucase
  by_cases signed : base < 0 ∧ ¬ n < 0x80000000
  · rw [if_pos signed] at text
    rw [text] at room ⊢
    rw [itoaInto, if_neg zero, if_pos signed]
    exact fill_sign two sixteen (toNat_neg_ne_zero zero) ucase room
  · rw [if_neg signed] at text
    rw [text] at room ⊢
    rw [itoaInto, if_neg zero, if_neg signed]
    exact fill_eq two sixteen (toNat_ne_zero zero) ucase [] s room

end Trunix.Libc
