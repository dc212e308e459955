import Trunix.Libc.Digits
import Trunix.Kernel.Formats
import Trunix.Kernel.Move
import Mathlib

/-!
# Both copies of `itoa`

The kernel's `itoa` on its own array, and what the strings of both copies are: the canonical
numeral of the word in the base of the call, signed for the base -10 of the library and the
base 10 of the kernel.  A reader that knows nothing of either copy gets the number back.
-/

set_option autoImplicit false

namespace Trunix

open Trunix.Lib
open Trunix.Libc (char lower hexTable numeral put writeNumeral holding)

/-- `itoa` on the bytes the array has when it is called. -/
def itoaInto (s : List UInt8) (n : UInt32) (base : Nat) : Option (List UInt8) :=
  if n = 0 then do
    let s ← put s 0 (char '0')
    put s 1 0
  else if ¬ n < 0x80000000 ∧ base = 10 then do
    let s ← put s 0 (char '-')
    writeNumeral lower base s 1 (-n).toNat
  else writeNumeral lower base s 0 n.toNat

theorem itoaInto_eq {base : Nat} (two : 1 < base) (sixteen : base ≤ 16) (n : UInt32) {s : List UInt8}
    (room : (itoa n base).length < s.length) :
    itoaInto s n base = some (holding (itoa n base) s) := by
  have text := itoa_eq two n
  by_cases zero : n = 0
  · have first : itoa n base = [char '0'] := by rw [itoa, if_pos zero]
    rw [first] at room ⊢
    rw [itoaInto, if_pos zero]
    exact Libc.put_zero room
  by_cases signed : ¬ n < 0x80000000 ∧ base = 10
  · rw [if_pos signed] at text
    rw [text] at room ⊢
    rw [itoaInto, if_neg zero, if_pos signed]
    exact Libc.fill_sign two sixteen (Libc.toNat_neg_ne_zero zero) false room
  · rw [if_neg signed] at text
    rw [text] at room ⊢
    rw [itoaInto, if_neg zero, if_neg signed]
    exact Libc.fill_eq two sixteen (Libc.toNat_ne_zero zero) false [] s room

/-! ## Reading a numeral -/

def digitValue (c : UInt8) : Option Nat :=
  if char '0' ≤ c ∧ c ≤ char '9' then some (c.toNat - 48)
  else if char 'a' ≤ c ∧ c ≤ char 'f' then some (c.toNat - 87)
  else if char 'A' ≤ c ∧ c ≤ char 'F' then some (c.toNat - 55)
  else none

def magnitude (base : Nat) (text : List UInt8) : Option Nat :=
  if text = [] then none
  else (text.mapM digitValue).bind fun ds =>
    if ∀ d ∈ ds, d < base then some (Nat.ofDigits base ds.reverse) else none

def bare (text : List UInt8) : List UInt8 :=
  if text.head? = some (char '-') then text.tail else text

/-- The number a text stands for; a first `-` negates. -/
def parse (base : Nat) (text : List UInt8) : Option Int :=
  (magnitude base (bare text)).map fun m : Nat =>
    if text.head? = some (char '-') then -(m : Int) else (m : Int)

/-- The numeral of `value`; with its NUL it fits in the array. -/
structure Canonical (base : Nat) (value : Int) (text : List UInt8) : Prop where
  fits : text.length + 1 ≤ 33
  sign : text.head? = some (char '-') ↔ value < 0
  digits : ∀ c ∈ bare text, ∃ d < base, digitValue c = some d
  leading : (bare text).head? = some (char '0') → text = [char '0']
  digitsValue : magnitude base (bare text) = some value.natAbs
  parsed : parse base text = some value

theorem digitValue_hexTable (ucase : Bool) : ∀ d < 16,
    digitValue ((hexTable ucase).getD d 0) = some d := by
  cases ucase <;> decide

theorem magnitude_digits {base : Nat} (sixteen : base ≤ 16) (ucase : Bool) {ds : List Nat}
    (filled : ds ≠ []) (small : ∀ d ∈ ds, d < base) :
    magnitude base (ds.reverse.map fun d => (hexTable ucase).getD d 0) = some (Nat.ofDigits base ds) := by
  have values : ∀ es : List Nat, (∀ e ∈ es, e < base) →
      (es.map fun d => (hexTable ucase).getD d 0).mapM digitValue = some es := by
    intro es
    induction es with
    | nil =>
        intro _
        rfl
    | cons e es ih =>
        intro below
        have first : e < 16 := Nat.lt_of_lt_of_le (below e List.mem_cons_self) sixteen
        rw [List.map_cons, List.mapM_cons, digitValue_hexTable ucase e first,
          ih fun d mem => below d (List.mem_cons_of_mem e mem)]
        rfl
  have below : ∀ d ∈ ds.reverse, d < base := fun d mem => small d (List.mem_reverse.mp mem)
  have nonempty : (ds.reverse.map fun d => (hexTable ucase).getD d 0) ≠ [] := by
    simpa using filled
  rw [magnitude, if_neg nonempty, values ds.reverse below, Option.bind_some, if_pos below,
    List.reverse_reverse]

/-! ## The numeral of a number -/

theorem magnitude_numeral {base : Nat} (two : 1 < base) (sixteen : base ≤ 16) (ucase : Bool) (un : Nat) :
    magnitude base (numeral ucase base un) = some un := by
  by_cases zero : un = 0
  · have digit : magnitude base [char '0'] = some 0 := by
      have below : ∀ d ∈ [0], d < base := by
        intro d mem
        rw [List.mem_singleton.mp mem]
        omega
      simpa [hexTable, lower] using magnitude_digits sixteen false (List.cons_ne_nil 0 []) below
    rw [numeral, if_pos zero, zero]
    exact digit
  · rw [numeral, if_neg zero, magnitude_digits sixteen ucase (Nat.digits_ne_nil_iff_ne_zero.mpr zero)
      fun d mem => Nat.digits_lt_base two mem, Nat.ofDigits_digits]

theorem numeral_digits {base : Nat} (two : 1 < base) (sixteen : base ≤ 16) (ucase : Bool) (un : Nat) :
    ∀ c ∈ numeral ucase base un, ∃ d < base, digitValue c = some d := by
  intro c mem
  by_cases zero : un = 0
  · rw [numeral, if_pos zero] at mem
    rw [List.mem_singleton.mp mem]
    exact ⟨0, by omega, by decide⟩
  · rw [numeral, if_neg zero] at mem
    obtain ⟨d, digit, rfl⟩ := List.mem_map.mp mem
    have below : d < base := Nat.digits_lt_base two (List.mem_reverse.mp digit)
    exact ⟨d, below, digitValue_hexTable ucase d (by omega)⟩

theorem numeral_leading {base : Nat} (two : 1 < base) (sixteen : base ≤ 16) (ucase : Bool) {un : Nat}
    (zero : (numeral ucase base un).head? = some (char '0')) : un = 0 := by
  by_contra pos
  have nonempty : Nat.digits base un ≠ [] := Nat.digits_ne_nil_iff_ne_zero.mpr pos
  rw [numeral, if_neg pos, List.head?_map, List.head?_reverse,
    List.getLast?_eq_getLast_of_ne_nil nonempty, Option.map_some] at zero
  have last := Nat.getLast_digit_ne_zero base pos
  have below : (Nat.digits base un).getLast nonempty < 16 :=
    Nat.lt_of_lt_of_le (Nat.digits_lt_base two (List.getLast_mem nonempty)) sixteen
  have read := digitValue_hexTable ucase _ below
  rw [Option.some.inj zero] at read
  exact last (Option.some.inj read).symm

theorem digit_plain {base : Nat} {c : UInt8} (digit : ∃ d < base, digitValue c = some d) :
    c ≠ char '-' ∧ c ≠ 0 := by
  obtain ⟨d, _, value⟩ := digit
  constructor
  · intro same
    rw [same] at value
    cases value
  · intro same
    rw [same] at value
    cases value

theorem numeral_head {base : Nat} (two : 1 < base) (sixteen : base ≤ 16) (ucase : Bool) (un : Nat) :
    (numeral ucase base un).head? ≠ some (char '-') := by
  intro first
  have mem : char '-' ∈ numeral ucase base un := List.mem_of_mem_head? first
  exact (digit_plain (numeral_digits two sixteen ucase un _ mem)).1 rfl

theorem canonical_numeral {base : Nat} (two : 1 < base) (sixteen : base ≤ 16) (ucase : Bool) {un : Nat}
    (fits : (numeral ucase base un).length ≤ 32) : Canonical base un (numeral ucase base un) := by
  have plain := numeral_head two sixteen ucase un
  have same : bare (numeral ucase base un) = numeral ucase base un := if_neg plain
  have value := magnitude_numeral two sixteen ucase un
  refine ⟨by omega, ?_, ?_, ?_, ?_, ?_⟩
  · exact ⟨fun first => absurd first plain, fun negative => by omega⟩
  · rw [same]
    exact numeral_digits two sixteen ucase un
  · rw [same]
    intro zero
    rw [numeral_leading two sixteen ucase zero]
    rfl
  · rw [same, value]
    rfl
  · rw [parse, same, value, Option.map_some, if_neg plain]

theorem canonical_negative {base : Nat} (two : 1 < base) (sixteen : base ≤ 16) (ucase : Bool) {un : Nat}
    (pos : un ≠ 0) (fits : (char '-' :: numeral ucase base un).length ≤ 32) :
    Canonical base (-(un : Int)) (char '-' :: numeral ucase base un) := by
  have same : bare (char '-' :: numeral ucase base un) = numeral ucase base un := rfl
  have value := magnitude_numeral two sixteen ucase un
  refine ⟨by omega, ?_, ?_, ?_, ?_, ?_⟩
  · exact ⟨fun _ => by omega, fun _ => rfl⟩
  · exact numeral_digits two sixteen ucase un
  · rw [same]
    intro zero
    exact absurd (numeral_leading two sixteen ucase zero) pos
  · rw [same, value, Int.natAbs_neg, Int.natAbs_natCast]
  · rw [parse, same, value]
    rfl

/-! ## The strings -/

def cstring (s : List UInt8) : List UInt8 := s.takeWhile fun c => c ≠ 0

theorem cstring_holding {text : List UInt8} (plain : ∀ c ∈ text, c ≠ 0) (s : List UInt8) :
    cstring (holding text s) = text := by
  unfold cstring holding
  rw [List.takeWhile_append_of_pos fun c mem => decide_eq_true (plain c mem)]
  simp

theorem Canonical.plain {base : Nat} {value : Int} {text : List UInt8} (canonical : Canonical base value text) :
    ∀ c ∈ text, c ≠ 0 := by
  intro c mem
  by_cases signed : text.head? = some (char '-')
  · have parts : text = char '-' :: bare text := by
      rw [bare, if_pos signed]
      exact List.eq_cons_of_mem_head? signed
    rw [parts] at mem
    rcases List.mem_cons.mp mem with sign | rest
    · rw [sign]
      decide
    · exact (digit_plain (canonical.digits c rest)).2
  · have same : bare text = text := if_neg signed
    rw [← same] at mem
    exact (digit_plain (canonical.digits c mem)).2

/-- A copy of `itoa` that turns each word into the canonical numeral of its value, in an array
of 33 bytes, with the bytes behind the NUL kept. -/
structure Numerals (base : Nat) (value : UInt32 → Int) (f : List UInt8 → UInt32 → Option (List UInt8)) : Prop where
  written : ∀ s n, s.length = 33 → ∃ s', f s n = some s' ∧ s'.length = 33 ∧
    Canonical base (value n) (cstring s') ∧
    s'.drop ((cstring s').length + 1) = s.drop ((cstring s').length + 1)
  distinct : ∀ s t n m s' t', s.length = 33 → t.length = 33 → f s n = some s' → f t m = some t' →
    cstring s' = cstring t' → n = m

theorem holding_length {text s : List UInt8} (room : text.length < s.length) :
    (holding text s).length = s.length := by
  rw [holding, List.length_append, List.length_cons, List.length_drop]
  omega

theorem holding_drop (text s : List UInt8) :
    (holding text s).drop (text.length + 1) = s.drop (text.length + 1) := by
  rw [holding, List.drop_append, List.drop_eq_nil_of_le (Nat.le_succ _), Nat.add_sub_cancel_left]
  rfl

/-- It is enough that the text fits, is canonical and is what the copy stores. -/
theorem Numerals.of_text {base : Nat} {value : UInt32 → Int}
    {f : List UInt8 → UInt32 → Option (List UInt8)} {text : UInt32 → List UInt8}
    (canonical : ∀ n, Canonical base (value n) (text n))
    (stores : ∀ s n, (text n).length < s.length → f s n = some (holding (text n) s))
    (apart : ∀ n m, value n = value m → n = m) : Numerals base value f := by
  have room : ∀ n, (text n).length < 33 := fun n => (canonical n).fits
  have string : ∀ s n, cstring (holding (text n) s) = text n := fun s n =>
    cstring_holding (canonical n).plain s
  refine ⟨?_, ?_⟩
  · intro s n size
    have fits : (text n).length < s.length := by
      rw [size]
      exact room n
    refine ⟨holding (text n) s, stores s n fits, ?_, ?_, ?_⟩
    · rw [holding_length fits, size]
    · rw [string]
      exact canonical n
    · rw [string]
      exact holding_drop _ _
  · intro s t n m s' t' sizeS sizeT first second same
    rw [stores s n (by rw [sizeS]; exact room n)] at first
    rw [stores t m (by rw [sizeT]; exact room m)] at second
    rw [← Option.some.inj first, ← Option.some.inj second, string, string] at same
    have values : some (value n) = some (value m) := by
      rw [← (canonical n).parsed, ← (canonical m).parsed, same]
    exact apart n m (Option.some.inj values)

/-! ## The calls of the formatters -/

def unsignedValue (n : UInt32) : Int := n.toNat

def signedValue (n : UInt32) : Int := n.toInt32.toInt

theorem unsignedValue_injective (n m : UInt32) (same : unsignedValue n = unsignedValue m) : n = m := by
  apply UInt32.toNat_inj.mp
  unfold unsignedValue at same
  omega

theorem signedValue_injective (n m : UInt32) (same : signedValue n = signedValue m) : n = m := by
  have words : n.toInt32 = m.toInt32 := Int32.toInt_inj.mp same
  calc n = n.toInt32.toUInt32 := rfl
    _ = m.toInt32.toUInt32 := by rw [words]
    _ = m := rfl

theorem canonical_signed (ucase : Bool) (n : UInt32) :
    Canonical 10 (signedValue n)
      (if n < 0x80000000 then numeral ucase 10 n.toNat else char '-' :: numeral ucase 10 (-n).toNat) := by
  have value := toInt_toInt32 n
  have bound := n.toNat_lt
  by_cases small : n < 0x80000000
  · have low : LowHalf n := UInt32.lt_iff_toNat_lt.mp small
    rw [if_pos low] at value
    rw [if_pos small, signedValue, value]
    exact canonical_numeral (by decide) (by decide) ucase (numeral_word (by decide) n)
  · have high : ¬ LowHalf n := fun low => small (UInt32.lt_iff_toNat_lt.mpr low)
    have negated : (-n).toNat = 4294967296 - n.toNat := by
      have size : UInt32.size = 4294967296 := rfl
      unfold LowHalf at high
      rw [UInt32.toNat_neg, size, Nat.mod_eq_of_lt (by omega)]
    have same : signedValue n = -((-n).toNat : Int) := by
      rw [signedValue, value, if_neg high, negated]
      omega
    rw [if_neg small, same]
    exact canonical_negative (by decide) (by decide) ucase (by omega) (numeral_signed ucase n)

theorem Numerals.plain {base : Nat} (two : 1 < base) (sixteen : base ≤ 16) (ucase : Bool)
    {f : List UInt8 → UInt32 → Option (List UInt8)}
    (stores : ∀ s n, (numeral ucase base n.toNat).length < s.length →
      f s n = some (holding (numeral ucase base n.toNat) s)) :
    Numerals base unsignedValue f :=
  .of_text (fun n => canonical_numeral two sixteen ucase (numeral_word two n)) stores
    unsignedValue_injective

/-- The bases 2, 8, 10, 16 and -10 of the library and the bases 2, 8, 10 and 16 of the kernel
give the canonical numerals. -/
theorem itoa_numerals :
    (∀ ucase, ∀ base ∈ [2, 8, 10, 16],
      Numerals base unsignedValue fun s n => Libc.itoaInto s n (base : Nat) ucase) ∧
    (∀ ucase, Numerals 10 signedValue fun s n => Libc.itoaInto s n (-10) ucase) ∧
    (∀ base ∈ [2, 8, 16], Numerals base unsignedValue fun s n => itoaInto s n base) ∧
    Numerals 10 signedValue fun s n => itoaInto s n 10 := by
  refine ⟨?_, ?_, ?_, ?_⟩
  · intro ucase base mem
    have bounds : 1 < base ∧ base ≤ 16 := by
      revert base
      decide
    refine .plain bounds.1 bounds.2 ucase fun s n room => ?_
    have text := Libc.itoa_unsigned bounds.1 n ucase
    rw [← text] at room ⊢
    exact @Libc.itoaInto_eq base bounds.1 bounds.2 n ucase s room
  · intro ucase
    refine .of_text (canonical_signed ucase) (fun s n room => ?_) signedValue_injective
    have text := @Libc.itoa_signed 10 (by decide) n ucase
    rw [← text] at room ⊢
    exact @Libc.itoaInto_eq (-10) (by decide) (by decide) n ucase s room
  · intro base mem
    have bounds : 1 < base ∧ base ≤ 16 ∧ base ≠ 10 := by
      revert base
      decide
    refine .plain bounds.1 bounds.2.1 false fun s n room => ?_
    have text := itoa_unsigned bounds.1 bounds.2.2 n
    rw [← text] at room ⊢
    exact itoaInto_eq bounds.1 bounds.2.1 n room
  · refine .of_text (canonical_signed false) (fun s n room => ?_) signedValue_injective
    have text : itoa n 10 = if n < 0x80000000 then numeral false 10 n.toNat
        else char '-' :: numeral false 10 (-n).toNat := itoa_signed n
    rw [← text] at room ⊢
    exact itoaInto_eq (by decide) (by decide) n room

/-- The least `int`, in an array full of spaces. -/
theorem itoa_numerals_least :
    ∃ s', Libc.itoaInto (List.replicate 33 32) 0x80000000 (-10) false = some s' ∧
      parse 10 (cstring s') = some (-2147483648) := by
  obtain ⟨_, signed, _, _⟩ := itoa_numerals
  obtain ⟨s', done, _, canonical, _⟩ := (signed false).written (List.replicate 33 32) 0x80000000 (by decide)
  refine ⟨s', done, ?_⟩
  have value : signedValue 0x80000000 = -2147483648 := by decide
  rw [← value]
  exact canonical.parsed

end Trunix
