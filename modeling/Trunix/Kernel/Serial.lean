import Trunix.Libc.Directives
import Mathlib

/-!
# printk

`itoa` and `printk` of `kernel/serial.c`: the kernel's own copy of the formatter.  It has a
sign for the base 10 only, knows fewer conversions, and drops a `%` at the end of the
format.  The bytes go to the serial port one by one.
-/

set_option autoImplicit false

namespace Trunix

open Trunix.Lib
open Trunix.Libc (char lower digitLoop numeral Arg Radix Directive formatOf argsOf render File vfprintf)

def itoa (n : UInt32) (base : Nat) : List UInt8 :=
  if n = 0 then [char '0']
  else if ¬ n < 0x80000000 ∧ base = 10 then
    let un := (-n).toNat
    let s := digitLoop lower base un un [char '-']
    reverseLoop s.length s 1 (s.length - 1)
  else
    let un := n.toNat
    let s := digitLoop lower base un un []
    reverseLoop s.length s 0 (s.length - 1)

/-- The locals of `printk` and the bytes it has sent.  `base` is `none` while it is not
initialised. -/
structure Printk where
  sent : List UInt8
  args : List Arg
  base : Option Nat

def Printk.writeSerial (p : Printk) (b : UInt8) : Printk := { p with sent := p.sent ++ [b] }

/-- The loop at `flush`. -/
def Printk.writeString (p : Printk) : List UInt8 → Printk
  | [] => p
  | b :: rest => (p.writeSerial b).writeString rest

def Printk.setBase (p : Printk) (d : UInt8) : Printk :=
  if d = char 'X' ∨ d = char 'x' then { p with base := some 16 }
  else if d = char 'd' then { p with base := some 10 }
  else if d = char 'o' then { p with base := some 8 }
  else if d = char 'b' then { p with base := some 2 }
  else p

def Printk.convert (d : UInt8) (p : Printk) : Option Printk :=
  if d = char '%' then some (p.writeSerial d)
  else
    match p.args with
    | [] => none
    | arg :: rest =>
        let p := { p with args := rest }
        if d = char 's' then
          match arg with
          | .str _ s => some (p.writeString s)
          | _ => none
        else if d = char 'c' then some (p.writeSerial arg.value.toUInt8)
        else
          let p := p.setBase d
          p.base.map fun base => p.writeString (itoa arg.value base)

def Printk.format : List UInt8 → Printk → Option Printk
  | [], p => some p
  | c :: rest, p =>
      if c = char '%' then
        match rest with
        | [] => some p
        | d :: rest => (p.convert d).bind fun p => p.format rest
      else (p.writeSerial c).format rest

def printk (fmt : List UInt8) (args : List Arg) : Option (List UInt8) :=
  (Printk.format fmt ⟨[], args, none⟩).map Printk.sent

/-! ## Numerals -/

theorem itoa_eq {base : Nat} (two : 1 < base) (n : UInt32) :
    itoa n base =
      if ¬ n < 0x80000000 ∧ base = 10 then char '-' :: numeral false base (-n).toNat
      else numeral false base n.toNat := by
  by_cases zero : n = 0
  · have small : ¬ (¬ (0 : UInt32) < 0x80000000 ∧ base = 10) := fun both => both.1 (by decide)
    rw [zero, if_neg small]
    rfl
  · by_cases signed : ¬ n < 0x80000000 ∧ base = 10
    · have digits := Libc.reversed_digits two (Libc.toNat_neg_ne_zero zero) false [char '-']
      rw [itoa, if_neg zero, if_pos signed, if_pos signed]
      exact digits
    · have digits := Libc.reversed_digits two (Libc.toNat_ne_zero zero) false []
      rw [itoa, if_neg zero, if_neg signed, if_neg signed]
      exact digits

theorem itoa_signed (n : UInt32) : itoa n 10 = Radix.signed.text n := by
  rw [@itoa_eq 10 (by decide) n]
  by_cases small : n < 0x80000000
  · rw [if_neg (fun both => both.1 small), Radix.text, if_pos small]
  · rw [if_pos ⟨small, rfl⟩, Radix.text, if_neg small]

/-- A negative base of the library is the base 10 of the kernel. -/
theorem itoa_ten (n : UInt32) (ucase : Bool) : itoa n 10 = Libc.itoa n (-10) ucase := by
  have signed := @Libc.itoa_signed 10 (by decide) n ucase
  rw [Libc.numeral_ucase (by decide) (by decide),
    Libc.numeral_ucase (by decide) (by decide) ucase (-n).toNat] at signed
  rw [itoa_signed]
  exact signed.symm

theorem itoa_unsigned {base : Nat} (two : 1 < base) (ten : base ≠ 10) (n : UInt32) :
    itoa n base = numeral false base n.toNat := by
  rw [itoa_eq two, if_neg (fun both => ten both.2)]

theorem itoa_plain {base : Nat} (two : 1 < base) (ten : base ≠ 10) (n : UInt32) :
    itoa n base = Libc.itoa n base false := by
  rw [itoa_unsigned two ten, Libc.itoa_unsigned two]

/-! ## The directives both formatters know -/

/-- Literal characters, `%%`, `%c`, `%s`, `%d`, `%x`, `%o` and `%b`. -/
def Shared : Directive → Prop
  | .number d _ _ _ => d = char 'd' ∨ d = char 'x' ∨ d = char 'o' ∨ d = char 'b'
  | .pointer _ => False
  | .count _ => False
  | _ => True

theorem Printk.writeString_eq : ∀ (out : List UInt8) (p : Printk),
    p.writeString out = { p with sent := p.sent ++ out } := by
  intro out
  induction out with
  | nil =>
      intro p
      rw [Printk.writeString, List.append_nil]
  | cons b rest ih =>
      intro p
      rw [Printk.writeString, ih, Printk.writeSerial, List.append_assoc]
      rfl

theorem Printk.format_literal {c : UInt8} (plain : c ≠ char '%') (rest : List UInt8) (p : Printk) :
    p.format (c :: rest) = (p.writeSerial c).format rest := by
  rw [Printk.format.eq_def]
  exact if_neg plain

theorem Printk.format_percent (d : UInt8) (rest : List UInt8) (p : Printk) :
    p.format (char '%' :: d :: rest) = (p.convert d).bind fun p => p.format rest := by
  rw [Printk.format, if_pos rfl]

/-- The kernel's base for a conversion both know gives the text of its radix. -/
theorem Printk.convert_number {d : UInt8} {r : Radix} (known : Radix.ofChar d = some r)
    (shared : d = char 'd' ∨ d = char 'x' ∨ d = char 'o' ∨ d = char 'b') {p : Printk} {arg : Arg}
    {more : List Arg} (args : p.args = arg :: more) :
    ∃ base, p.convert d = some ⟨p.sent ++ r.text arg.value, more, base⟩ := by
  have text : ∀ base, itoa arg.value base = r.text arg.value →
      ({ p with args := more } : Printk).setBase d = ⟨p.sent, more, some base⟩ →
      d ≠ char '%' → d ≠ char 's' → d ≠ char 'c' →
      ∃ base, p.convert d = some ⟨p.sent ++ r.text arg.value, more, base⟩ := by
    intro base same set notPercent notS notC
    refine ⟨some base, ?_⟩
    simp only [Printk.convert, if_neg notPercent, if_neg notS, if_neg notC, args]
    rw [set, Option.map_some, Printk.writeString_eq, same]
  rcases shared with rfl | rfl | rfl | rfl
  · cases known
    exact text 10 (itoa_signed _) rfl (by decide) (by decide) (by decide)
  · cases known
    exact text 16 (itoa_unsigned (by decide) (by decide) _) rfl (by decide) (by decide) (by decide)
  · cases known
    exact text 8 (itoa_unsigned (by decide) (by decide) _) rfl (by decide) (by decide) (by decide)
  · cases known
    exact text 2 (itoa_unsigned (by decide) (by decide) _) rfl (by decide) (by decide) (by decide)

theorem Printk.step {d : Directive} (shared : Shared d) (rest : List UInt8) {p : Printk} {more : List Arg}
    (args : p.args = d.args ++ more) :
    ∃ base, p.format (d.format ++ rest) = Printk.format rest ⟨p.sent ++ d.output, more, base⟩ := by
  cases d with
  | literal b plain =>
      refine ⟨p.base, ?_⟩
      have written : p.writeSerial b = ⟨p.sent ++ [b], more, p.base⟩ := by
        rw [Printk.writeSerial, args]
        rfl
      rw [Directive.format, List.cons_append, List.nil_append, Printk.format_literal plain, written]
      rfl
  | percent =>
      refine ⟨p.base, ?_⟩
      have written : p.convert (char '%') = some ⟨p.sent ++ [char '%'], more, p.base⟩ := by
        rw [Printk.convert, if_pos rfl, Printk.writeSerial, args]
        rfl
      rw [Directive.format, List.cons_append, List.cons_append, Printk.format_percent, written]
      rfl
  | character arg =>
      refine ⟨p.base, ?_⟩
      have notPercent : char 'c' ≠ char '%' := by decide
      have notS : char 'c' ≠ char 's' := by decide
      have args' : p.args = arg :: more := args
      have written : p.convert (char 'c') = some ⟨p.sent ++ [arg.value.toUInt8], more, p.base⟩ := by
        simp only [Printk.convert, if_neg notPercent, if_neg notS, args', if_true, Printk.writeSerial]
      rw [Directive.format, List.cons_append, List.cons_append, Printk.format_percent, written]
      rfl
  | string a s =>
      refine ⟨p.base, ?_⟩
      have notPercent : char 's' ≠ char '%' := by decide
      have args' : p.args = .str a s :: more := args
      have written : p.convert (char 's') = some ⟨p.sent ++ s, more, p.base⟩ := by
        simp only [Printk.convert, if_neg notPercent, args', if_true, Printk.writeString_eq]
      rw [Directive.format, List.cons_append, List.cons_append, Printk.format_percent, written]
      rfl
  | pointer arg => exact absurd shared id
  | number d r known arg =>
      obtain ⟨base, written⟩ := Printk.convert_number known shared args
      refine ⟨base, ?_⟩
      rw [Directive.format, List.cons_append, List.cons_append, Printk.format_percent, written]
      rfl
  | count a => exact absurd shared id

theorem Printk.format_directives : ∀ (ds : List Directive), (∀ d ∈ ds, Shared d) → ∀ (p : Printk)
    (extra : List Arg), p.args = argsOf ds ++ extra →
    ∃ base, p.format (formatOf ds false) = some ⟨p.sent ++ render ds false, extra, base⟩ := by
  intro ds
  induction ds with
  | nil =>
      intro _ p extra args
      refine ⟨p.base, ?_⟩
      have same : p = ⟨p.sent ++ [], extra, p.base⟩ := by
        rw [List.append_nil, ← show p.args = extra from args]
      exact congrArg some same
  | cons d rest ih =>
      intro shared p extra args
      have args' : p.args = d.args ++ (argsOf rest ++ extra) := by
        rw [args, Libc.argsOf_cons, List.append_assoc]
      obtain ⟨base, step⟩ := Printk.step (shared d List.mem_cons_self) (formatOf rest false) args'
      obtain ⟨base', run⟩ := ih (fun e mem => shared e (List.mem_cons_of_mem _ mem))
        ⟨p.sent ++ d.output, argsOf rest ++ extra, base⟩ extra rfl
      refine ⟨base', ?_⟩
      rw [Libc.formatOf_cons, step, run, Libc.render_cons, List.append_assoc]

/-- On a format that both know `printk` sends the bytes that `vfprintf` gives to its
stream, and the two copies of `itoa` agree on the bases they share. -/
theorem printk_matches_vfprintf (ds : List Directive) (shared : ∀ d ∈ ds, Shared d) (extra : List Arg) :
    (∃ out, printk (formatOf ds false) (argsOf ds ++ extra) = some out ∧
      ∀ (f : File) ucase, f.buf ≤ f.ptr → out.length ≤ f.stop - f.ptr →
        ∃ ret f' counts, vfprintf f (formatOf ds false) (argsOf ds ++ extra) ucase = some (ret, f', counts) ∧
          f'.written.flatten ++ f'.pending = f.written.flatten ++ f.pending ++ out) ∧
    (∀ n ucase, itoa n 10 = Libc.itoa n (-10) ucase) ∧
    ∀ n, ∀ base ∈ [2, 8, 16], itoa n base = Libc.itoa n base false := by
  refine ⟨⟨render ds false, ?_, ?_⟩, itoa_ten, ?_⟩
  · obtain ⟨base, run⟩ := Printk.format_directives ds shared ⟨[], argsOf ds ++ extra, none⟩ extra rfl
    rw [printk, run, Option.map_some, List.nil_append]
  · intro f ucase low room
    obtain ⟨ret, f', done, content, _⟩ := Libc.vfprintf_renders low ds false extra room
    exact ⟨ret, f', _, done ucase, content⟩
  · intro n base mem
    have two : 1 < base := by
      revert base
      decide
    have ten : base ≠ 10 := by
      revert base
      decide
    exact itoa_plain two ten n

theorem signed_known : Radix.ofChar (char 'd') = some .signed := rfl

def minusOne : List Directive :=
  [.literal (char '=') (by decide), .number (char 'd') .signed signed_known (.word 4294967295)]

theorem printk_matches_vfprintf_minus_one :
    ∃ out, printk [char '=', char '%', char 'd'] [.word 4294967295] = some out ∧
      ∃ ret f' counts, vfprintf Libc.emptyFile [char '=', char '%', char 'd'] [.word 4294967295] true =
        some (ret, f', counts) ∧ f'.written.flatten ++ f'.pending = out := by
  have shared : ∀ d ∈ minusOne, Shared d := by
    intro d mem
    rcases List.mem_cons.mp mem with rfl | mem
    · trivial
    · rw [List.mem_singleton.mp mem]
      exact .inl rfl
  obtain ⟨⟨out, sent, both⟩, _⟩ := printk_matches_vfprintf minusOne shared []
  have text : printk [char '=', char '%', char 'd'] [.word 4294967295] =
      some [char '=', char '-', char '1'] := by decide
  have same : some out = some [char '=', char '-', char '1'] := sent.symm.trans text
  cases same
  obtain ⟨ret, f', counts, done, content⟩ := both Libc.emptyFile true (Nat.le_refl _) (by decide)
  exact ⟨_, sent, ret, f', counts, done, content⟩

end Trunix
