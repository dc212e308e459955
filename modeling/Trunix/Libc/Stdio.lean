import Trunix.Libc.Itoa
import Trunix.Lib.Bytes

/-!
# Output streams

`fflush`, `fputc` and `vfprintf` of `lib/libc/stdio`.  A stream keeps its buffer as memory
of its own, and logs the blocks that were passed to `_write`, which consumes all of what
it is given.  A call whose behaviour C leaves open, such as a conversion without its
argument, has no result.
-/

set_option autoImplicit false

namespace Trunix.Libc

open Trunix.Lib

/-- The fields `_buf`, `_ptr` and `_end` of a `FILE`. -/
structure File where
  buf : Nat
  ptr : Nat
  stop : Nat
  mem : Mem
  /-- the blocks passed to `_write`, in order -/
  written : List (List UInt8)
  /-- `_ptr` after every byte that was stored through it; no function reads it -/
  marks : List Nat

def File.put (f : File) (b : UInt8) : File :=
  { f with
    mem := fun x => if x = f.ptr then b else f.mem x
    ptr := f.ptr + 1
    marks := f.marks ++ [f.ptr + 1] }

def File.pending (f : File) : List UInt8 :=
  (List.range (f.ptr - f.buf)).map fun i => f.mem (f.buf + i)

def File.write (f : File) (block : List UInt8) : File := { f with written := f.written ++ [block] }

def fflush (f : File) : File := { f.write f.pending with ptr := f.buf }

def byte (c : Int) : UInt8 := UInt8.ofNat (c % 256).toNat

def overflow (f : File) (ch : Int) : File := (fflush f).write [byte ch]

def fputc (c : Int) (f : File) : File :=
  if c ≠ 10 ∧ f.ptr < f.stop then f.put (byte c) else overflow f c

/-! ## Formatted output -/

/-- An argument of `vfprintf`: a word, a string at an address, given by its bytes before
the NUL, or the address of an `int`. -/
inductive Arg where
  | word (n : UInt32)
  | str (a : UInt32) (s : List UInt8)
  | ref (a : UInt32)
  deriving DecidableEq, Repr

def Arg.value : Arg → UInt32
  | .word n => n
  | .str a _ => a
  | .ref a => a

/-- The locals of `vfprintf`.  `base` is `none` while it is not initialised; `ucase` has
any value then. -/
structure Printing where
  file : File
  args : List Arg
  base : Option Int
  ucase : Bool
  /-- the stores of `%n` -/
  counts : List (UInt32 × Nat)

def Printing.put (p : Printing) (b : UInt8) : Printing := { p with file := p.file.put b }

/-- The loop at `flush`. -/
def Printing.puts (p : Printing) : List UInt8 → Printing
  | [] => p
  | b :: rest => (p.put b).puts rest

/-- The cases of the `switch` that set a base; any other character leaves the one of the
last conversion. -/
def Printing.setBase (p : Printing) (d : UInt8) : Printing :=
  if d = char 'X' then { p with ucase := true, base := some 16 }
  else if d = char 'x' then { p with ucase := false, base := some 16 }
  else if d = char 'u' then { p with base := some 10 }
  else if d = char 'i' ∨ d = char 'd' then { p with base := some (-10) }
  else if d = char 'o' then { p with base := some 8 }
  else if d = char 'b' then { p with base := some 2 }
  else p

def Printing.convert (start : Nat) (d : UInt8) (p : Printing) : Option Printing :=
  if d = char '%' then some (p.put d)
  else
    match p.args with
    | [] => none
    | arg :: rest =>
        let p := { p with args := rest }
        if d = char 'c' then some (p.put arg.value.toUInt8)
        else if d = char 'n' then
          match arg with
          | .ref a => some { p with counts := p.counts ++ [(a, p.file.ptr - start)] }
          | _ => none
        else if d = char 's' then
          match arg with
          | .str _ s => some (p.puts s)
          | _ => none
        else if d = char 'p' then
          some (((p.put (char '0')).put (char 'x')).puts (itoa arg.value 16 false))
        else
          let p := p.setBase d
          p.base.map fun base => p.puts (itoa arg.value base p.ucase)

def Printing.format (start : Nat) : List UInt8 → Printing → Option Printing
  | [], p => some p
  | c :: rest, p =>
      if c = char '%' then
        match rest with
        | [] => some (p.put (char '%'))
        | d :: rest => (p.convert start d).bind fun p => p.format start rest
      else (p.put c).format start rest

/-- The result, the stream and the stores of `%n`. -/
def vfprintf (f : File) (fmt : List UInt8) (args : List Arg) (ucase : Bool) :
    Option (Nat × File × List (UInt32 × Nat)) :=
  (Printing.format f.ptr fmt ⟨f, args, none, ucase, []⟩).map fun p =>
    (p.file.ptr - p.file.buf, fflush p.file, p.counts)

/-! ## The text of a format -/

inductive Radix where
  | upperHex
  | lowerHex
  | decimal
  | signed
  | octal
  | binary
  deriving DecidableEq, Repr

def Radix.ofChar (d : UInt8) : Option Radix :=
  if d = char 'X' then some .upperHex
  else if d = char 'x' then some .lowerHex
  else if d = char 'u' then some .decimal
  else if d = char 'i' ∨ d = char 'd' then some .signed
  else if d = char 'o' then some .octal
  else if d = char 'b' then some .binary
  else none

def Radix.base : Radix → Int
  | .upperHex => 16
  | .lowerHex => 16
  | .decimal => 10
  | .signed => -10
  | .octal => 8
  | .binary => 2

def Radix.text : Radix → UInt32 → List UInt8
  | .upperHex, n => numeral true 16 n.toNat
  | .lowerHex, n => numeral false 16 n.toNat
  | .decimal, n => numeral false 10 n.toNat
  | .signed, n =>
      if n < 0x80000000 then numeral false 10 n.toNat
      else char '-' :: numeral false 10 (-n).toNat
  | .octal, n => numeral false 8 n.toNat
  | .binary, n => numeral false 2 n.toNat

/-- The text of a conversion and the radix that stays set behind it. -/
def conversion (r : Option Radix) (d : UInt8) (arg : Arg) : Option (List UInt8 × Option Radix) :=
  if d = char 'c' then some ([arg.value.toUInt8], r)
  else if d = char 'n' then
    match arg with
    | .ref _ => some ([], r)
    | _ => none
  else if d = char 's' then
    match arg with
    | .str _ s => some (s, r)
    | _ => none
  else if d = char 'p' then some (char '0' :: char 'x' :: numeral false 16 arg.value.toNat, r)
  else ((Radix.ofChar d).or r).map fun radix => (radix.text arg.value, some radix)

/-- The output of a format with its arguments: literal characters and conversions.  It is
defined when every conversion is known and has its argument. -/
def formatted : Option Radix → List UInt8 → List Arg → Option (List UInt8)
  | _, [], _ => some []
  | r, c :: rest, args =>
      if c = char '%' then
        match rest with
        | [] => some [char '%']
        | d :: rest =>
            if d = char '%' then (formatted r rest args).map (d :: ·)
            else
              match args with
              | [] => none
              | arg :: args =>
                  (conversion r d arg).bind fun text =>
                    (formatted text.2 rest args).map (text.1 ++ ·)
      else (formatted r rest args).map (c :: ·)

/-! ## Stores into the buffer -/

def File.puts (f : File) (out : List UInt8) : File := out.foldl File.put f

theorem File.puts_append (f : File) (out more : List UInt8) :
    f.puts (out ++ more) = (f.puts out).puts more := List.foldl_append

theorem Printing.puts_eq : ∀ (out : List UInt8) (p : Printing),
    p.puts out = { p with file := p.file.puts out } := by
  intro out
  induction out with
  | nil => intro p; rfl
  | cons b rest ih =>
      intro p
      rw [Printing.puts, ih]
      rfl

theorem File.put_pending {f : File} (low : f.buf ≤ f.ptr) (b : UInt8) :
    (f.put b).pending = f.pending ++ [b] := by
  have count : f.ptr + 1 - f.buf = f.ptr - f.buf + 1 := by omega
  have last : f.buf + (f.ptr - f.buf) = f.ptr := by omega
  have older : ∀ i ∈ List.range (f.ptr - f.buf),
      (if f.buf + i = f.ptr then b else f.mem (f.buf + i)) = f.mem (f.buf + i) := by
    intro i mem
    have lt := List.mem_range.mp mem
    exact if_neg (by omega)
  simp only [File.pending, File.put, count, List.range_succ, List.map_append, List.map_cons,
    List.map_nil, last, if_true]
  rw [List.map_congr_left older]

/-- `f'` is `f` after the bytes `out` were stored one by one. -/
structure Stored (f f' : File) (out : List UInt8) : Prop where
  buf : f'.buf = f.buf
  stop : f'.stop = f.stop
  written : f'.written = f.written
  ptr : f'.ptr = f.ptr + out.length
  pending : f.buf ≤ f.ptr → f'.pending = f.pending ++ out
  marks : f'.marks = f.marks ++ (List.range out.length).map (f.ptr + 1 + ·)

theorem File.stored : ∀ (out : List UInt8) (f : File), Stored f (f.puts out) out := by
  intro out
  induction out with
  | nil => intro f; exact ⟨rfl, rfl, rfl, rfl, fun _ => by simp [File.puts], by simp [File.puts]⟩
  | cons b rest ih =>
      intro f
      have later := ih (f.put b)
      have ptr : (f.put b).ptr = f.ptr + 1 := rfl
      have marks : (f.put b).marks = f.marks ++ [f.ptr + 1] := rfl
      have step : f.puts (b :: rest) = (f.put b).puts rest := rfl
      rw [step]
      refine ⟨later.buf, later.stop, later.written, ?_, fun low => ?_, ?_⟩
      · rw [later.ptr, ptr, List.length_cons]
        omega
      · have above : (f.put b).buf ≤ (f.put b).ptr := Nat.le_succ_of_le low
        rw [later.pending above, File.put_pending low, List.append_assoc]
        rfl
      · have shift : ((f.ptr + 1 + ·) ∘ Nat.succ) = (f.ptr + 1 + 1 + ·) := by
          funext i
          simp only [Function.comp, Nat.succ_eq_add_one]
          omega
        rw [later.marks, ptr, marks, List.length_cons, List.range_succ_eq_map, List.map_cons,
          List.map_map, shift, List.append_assoc]
        rfl

/-- The stores stay inside the buffer exactly when there is room for all of them. -/
theorem Stored.inside_iff {f f' : File} {out : List UInt8} (h : Stored f f' out) (low : f.buf ≤ f.ptr)
    (high : f.ptr ≤ f.stop) :
    (∀ p ∈ f'.marks, f.buf ≤ p ∧ p ≤ f.stop) ↔
      (∀ p ∈ f.marks, f.buf ≤ p ∧ p ≤ f.stop) ∧ f.ptr + out.length ≤ f.stop := by
  rw [h.marks]
  constructor
  · intro inside
    refine ⟨fun p mem => inside p (List.mem_append_left _ mem), ?_⟩
    by_cases none : out.length = 0
    · omega
    · have last := inside (f.ptr + 1 + (out.length - 1)) (List.mem_append_right _
        (List.mem_map.mpr ⟨out.length - 1, List.mem_range.mpr (by omega), rfl⟩))
      omega
  · intro both p mem
    rcases List.mem_append.mp mem with older | newer
    · exact both.1 p older
    · obtain ⟨i, inRange, rfl⟩ := List.mem_map.mp newer
      have lt := List.mem_range.mp inRange
      have room := both.2
      omega

/-! ## The loop stores the text of the format -/

/-- The locals are those behind a conversion with the radix `r`. -/
structure Printing.Left (p : Printing) (r : Option Radix) : Prop where
  base : p.base = r.map Radix.base
  upper : r = some .upperHex → p.ucase = true
  lower : r = some .lowerHex → p.ucase = false

theorem itoa_radix {p : Printing} {r : Radix} (h : p.Left (some r)) (n : UInt32) :
    itoa n r.base p.ucase = r.text n := by
  cases r with
  | upperHex => rw [h.upper rfl]; exact @itoa_unsigned 16 (by decide) n true
  | lowerHex => rw [h.lower rfl]; exact @itoa_unsigned 16 (by decide) n false
  | decimal =>
      exact (@itoa_unsigned 10 (by decide) n _).trans (numeral_ucase (by decide) (by decide) _ _)
  | signed =>
      refine (@itoa_signed 10 (by decide) n _).trans ?_
      rw [numeral_ucase (by decide) (by decide), numeral_ucase (by decide) (by decide) _ (-n).toNat]
      rfl
  | octal =>
      exact (@itoa_unsigned 8 (by decide) n _).trans (numeral_ucase (by decide) (by decide) _ _)
  | binary =>
      exact (@itoa_unsigned 2 (by decide) n _).trans (numeral_ucase (by decide) (by decide) _ _)

theorem Printing.Left.setBase {p : Printing} {r : Option Radix} (h : p.Left r) (d : UInt8) :
    (p.setBase d).Left ((Radix.ofChar d).or r) ∧ (p.setBase d).file = p.file ∧
      (p.setBase d).args = p.args := by
  rw [Printing.setBase, Radix.ofChar]
  split
  · exact ⟨⟨rfl, fun _ => rfl, nofun⟩, rfl, rfl⟩
  split
  · exact ⟨⟨rfl, nofun, fun _ => rfl⟩, rfl, rfl⟩
  split
  · exact ⟨⟨rfl, nofun, nofun⟩, rfl, rfl⟩
  split
  · exact ⟨⟨rfl, nofun, nofun⟩, rfl, rfl⟩
  split
  · exact ⟨⟨rfl, nofun, nofun⟩, rfl, rfl⟩
  split
  · exact ⟨⟨rfl, nofun, nofun⟩, rfl, rfl⟩
  · exact ⟨h, rfl, rfl⟩

theorem Printing.convert_spec {start : Nat} {d : UInt8} {p : Printing} {r : Option Radix} {arg : Arg}
    {rest : List Arg} (left : p.Left r) (ne : d ≠ char '%') (args : p.args = arg :: rest) :
    (conversion r d arg = none → p.convert start d = none) ∧
      ∀ out r', conversion r d arg = some (out, r') →
        ∃ p', p.convert start d = some p' ∧ p'.file = p.file.puts out ∧ p'.args = rest ∧ p'.Left r' := by
  have popped : ({ p with args := rest } : Printing).Left r := ⟨left.base, left.upper, left.lower⟩
  simp only [Printing.convert, if_neg ne, args, conversion]
  by_cases isChar : d = char 'c'
  · simp only [if_pos isChar]
    refine ⟨nofun, fun out r' done => ?_⟩
    cases done
    exact ⟨_, rfl, rfl, rfl, ⟨left.base, left.upper, left.lower⟩⟩
  simp only [if_neg isChar]
  by_cases isCount : d = char 'n'
  · simp only [if_pos isCount]
    cases arg with
    | ref a =>
        refine ⟨nofun, fun out r' done => ?_⟩
        cases done
        exact ⟨_, rfl, rfl, rfl, ⟨left.base, left.upper, left.lower⟩⟩
    | word n => exact ⟨fun _ => rfl, nofun⟩
    | str a s => exact ⟨fun _ => rfl, nofun⟩
  simp only [if_neg isCount]
  by_cases isString : d = char 's'
  · simp only [if_pos isString]
    cases arg with
    | str a s =>
        refine ⟨nofun, fun out r' done => ?_⟩
        cases done
        refine ⟨_, rfl, ?_, ?_, ?_⟩
        all_goals rw [Printing.puts_eq]
        exact ⟨left.base, left.upper, left.lower⟩
    | word n => exact ⟨fun _ => rfl, nofun⟩
    | ref a => exact ⟨fun _ => rfl, nofun⟩
  simp only [if_neg isString]
  by_cases isPointer : d = char 'p'
  · simp only [if_pos isPointer]
    refine ⟨nofun, fun out r' done => ?_⟩
    cases done
    have text : itoa arg.value 16 false = numeral false 16 arg.value.toNat :=
      @itoa_unsigned 16 (by decide) arg.value false
    refine ⟨_, rfl, ?_, ?_, ?_⟩
    all_goals rw [Printing.puts_eq]
    · rw [text]
      rfl
    · rfl
    · exact ⟨left.base, left.upper, left.lower⟩
  simp only [if_neg isPointer]
  obtain ⟨set, file, kept⟩ := popped.setBase d
  generalize ({ p with args := rest } : Printing).setBase d = q at set file kept
  cases radix : (Radix.ofChar d).or r with
  | none =>
      rw [radix] at set
      have unset : q.base = none := set.base
      refine ⟨fun _ => by rw [unset]; rfl, nofun⟩
  | some r₁ =>
      rw [radix] at set
      have base : q.base = some r₁.base := set.base
      refine ⟨nofun, fun out r' done => ?_⟩
      cases done
      refine ⟨q.puts (itoa arg.value r₁.base q.ucase), by rw [base]; rfl, ?_, ?_, ?_⟩
      all_goals rw [Printing.puts_eq]
      · rw [itoa_radix set, file]
      · exact kept
      · exact ⟨set.base, set.upper, set.lower⟩

theorem Printing.format_spec (start : Nat) (fmt : List UInt8) (p : Printing) :
    ∀ r, p.Left r →
      (p.format start fmt).map Printing.file = (formatted r fmt p.args).map p.file.puts := by
  induction fmt, p using Printing.format.induct with
  | case1 p => intro r _; rfl
  | case2 p => intro r _; simp [Printing.format, formatted, Printing.put, File.puts]
  | case3 p d rest ih =>
      intro r left
      by_cases literal : d = char '%'
      · have later := ih (p.put d) r ⟨left.base, left.upper, left.lower⟩
        have step : p.convert start d = some (p.put d) := if_pos literal
        have step' : formatted r (char '%' :: d :: rest) p.args =
            (formatted r rest p.args).map (d :: ·) := by
          simp only [formatted, if_pos literal, if_true]
        simp only [Printing.format, if_true, step, Option.bind_some]
        rw [later, step', Option.map_map]
        rfl
      · cases args : p.args with
        | nil => simp [Printing.format, formatted, Printing.convert, literal, args]
        | cons arg more =>
            obtain ⟨stuck, goes⟩ := @Printing.convert_spec start d p r arg more left literal args
            simp only [Printing.format, formatted, if_true, if_neg literal]
            cases text : conversion r d arg with
            | none =>
                rw [stuck text]
                rfl
            | some result =>
                obtain ⟨out, r'⟩ := result
                obtain ⟨p', done, file, restArgs, left'⟩ := goes out r' text
                simp only [done, Option.bind_some]
                rw [ih p' r' left', restArgs, Option.map_map, file]
                congr 1
                funext more
                exact (File.puts_append _ _ _).symm
  | case4 c rest p ne ih =>
      intro r left
      have later := ih r ⟨left.base, left.upper, left.lower⟩
      have step : p.format start (c :: rest) = (p.put c).format start rest := by
        rw [Printing.format.eq_def]
        exact if_neg ne
      have step' : formatted r (c :: rest) p.args = (formatted r rest p.args).map (c :: ·) := by
        rw [formatted.eq_def]
        exact if_neg ne
      rw [step, step', later, Option.map_map]
      rfl

theorem vfprintf_spec (f : File) (fmt : List UInt8) (args : List Arg) (ucase : Bool) :
    (vfprintf f fmt args ucase).map (fun r => r.2.1) =
      (formatted none fmt args).map fun out => fflush (f.puts out) := by
  have loop := Printing.format_spec f.ptr fmt ⟨f, args, none, ucase, []⟩ none ⟨rfl, nofun, nofun⟩
  have same := congrArg (Option.map fflush) loop
  rw [Option.map_map, Option.map_map] at same
  rw [vfprintf, Option.map_map]
  exact same

/-! ## Sequences of calls -/

inductive Call where
  | fputc (c : Int)
  | fflush
  | vfprintf (fmt : List UInt8) (args : List Arg) (ucase : Bool)

def Call.run (f : File) : Call → Option File
  | .fputc c => some (Libc.fputc c f)
  | .fflush => some (Libc.fflush f)
  | .vfprintf fmt args ucase => (Libc.vfprintf f fmt args ucase).map fun r => r.2.1

def runCalls (f : File) : List Call → Option File
  | [] => some f
  | c :: rest => (c.run f).bind fun f => runCalls f rest

def Call.output : Call → Option (List UInt8)
  | .fputc c => some [byte c]
  | .fflush => some []
  | .vfprintf fmt args _ => formatted none fmt args

/-- A call of `vfprintf` has an output and finds room for it. -/
def Call.Fits (f : File) : Call → Prop
  | .vfprintf fmt args _ => ∃ out, formatted none fmt args = some out ∧ out.length ≤ f.stop - f.ptr
  | _ => True

def AllFit (f : File) : List Call → Prop
  | [] => True
  | c :: rest => c.Fits f ∧ ∀ f', c.run f = some f' → AllFit f' rest

def File.content (f : File) : List UInt8 := f.written.flatten ++ f.pending

theorem File.pending_nil {f : File} (empty : f.ptr = f.buf) : f.pending = [] := by
  simp [File.pending, empty]

theorem fflush_content (f : File) : (fflush f).content = f.content := by
  have empty : (fflush f).pending = [] := File.pending_nil rfl
  have written : (fflush f).written = f.written ++ [f.pending] := rfl
  rw [File.content, empty, written, List.flatten_append, List.append_nil]
  simp [File.content]

structure File.Ok (f : File) : Prop where
  low : f.buf ≤ f.ptr
  high : f.ptr ≤ f.stop

structure Appended (f f' : File) (out : List UInt8) : Prop where
  ok : f'.Ok
  buf : f'.buf = f.buf
  stop : f'.stop = f.stop
  content : f'.content = f.content ++ out

theorem File.Ok.flushed {f : File} (h : f.Ok) : Appended f (fflush f) [] :=
  ⟨⟨Nat.le_refl _, Nat.le_trans h.low h.high⟩, rfl, rfl, by rw [fflush_content, List.append_nil]⟩

theorem File.Ok.putc {f : File} (h : f.Ok) (c : Int) : Appended f (fputc c f) [byte c] := by
  rw [fputc]
  split
  · rename_i room
    refine ⟨⟨Nat.le_succ_of_le h.low, room.2⟩, rfl, rfl, ?_⟩
    have written : (f.put (byte c)).written = f.written := rfl
    rw [File.content, File.put_pending h.low, written, File.content, List.append_assoc]
  · refine ⟨⟨h.flushed.ok.low, h.flushed.ok.high⟩, rfl, rfl, ?_⟩
    have flushed := fflush_content f
    have pending : (overflow f c).pending = [] := File.pending_nil rfl
    have empty : (fflush f).pending = [] := File.pending_nil rfl
    have written : (overflow f c).written = (fflush f).written ++ [[byte c]] := rfl
    rw [← flushed, File.content, File.content, pending, empty, written, List.flatten_append]
    simp

theorem File.Ok.printed {f : File} (h : f.Ok) (out : List UInt8) :
    Appended f (fflush (f.puts out)) out := by
  have stored := File.stored out f
  refine ⟨⟨Nat.le_refl _, ?_⟩, stored.buf, stored.stop, ?_⟩
  · have low : (f.puts out).buf ≤ (f.puts out).stop := by
      rw [stored.buf, stored.stop]
      exact Nat.le_trans h.low h.high
    exact low
  · rw [fflush_content, File.content, stored.written, stored.pending h.low, File.content,
      List.append_assoc]

theorem Call.run_spec {f : File} (h : f.Ok) {c : Call} (fits : c.Fits f) :
    ∃ f' out, c.run f = some f' ∧ c.output = some out ∧ Appended f f' out := by
  cases c with
  | fputc c => exact ⟨_, _, rfl, rfl, h.putc c⟩
  | fflush => exact ⟨_, _, rfl, rfl, h.flushed⟩
  | vfprintf fmt args ucase =>
      obtain ⟨out, text, room⟩ := fits
      have spec := vfprintf_spec f fmt args ucase
      rw [text] at spec
      exact ⟨_, out, spec, text, h.printed out⟩

/-- Whatever the mix of calls and however full the buffer, the blocks written and the
bytes still pending are together what was pending at first and the outputs of the calls,
in order. -/
theorem stream_in_order (f : File) (calls : List Call) (low : f.buf ≤ f.ptr) (high : f.ptr ≤ f.stop)
    (fit : AllFit f calls) :
    ∃ f', runCalls f calls = some f' ∧ f'.buf ≤ f'.ptr ∧ f'.ptr ≤ f'.stop ∧
      f'.written.flatten ++ f'.pending =
        f.written.flatten ++ f.pending ++ (calls.map fun c => c.output.getD []).flatten := by
  induction calls generalizing f with
  | nil => exact ⟨f, rfl, low, high, (List.append_nil _).symm⟩
  | cons c rest ih =>
      obtain ⟨f₁, out, run, output, appended⟩ := Call.run_spec ⟨low, high⟩ fit.1
      obtain ⟨f', runs, low', high', content⟩ := ih f₁ appended.ok.low appended.ok.high (fit.2 f₁ run)
      refine ⟨f', by rw [runCalls, run]; exact runs, low', high', ?_⟩
      have first : f₁.written.flatten ++ f₁.pending = f.written.flatten ++ f.pending ++ out :=
        appended.content
      rw [content, first, List.map_cons, output, List.flatten_cons, List.append_assoc]
      rfl

/-- A letter, a number and a newline on a buffer of eight bytes. -/
theorem stream_in_order_two_calls :
    AllFit ⟨0x1000, 0x1000, 0x1008, fun _ => 0, [], []⟩
        [.fputc 97, .vfprintf [char 'x', char '%', char 'd'] [.word 7] false, .fputc 10] ∧
      ∃ f', runCalls ⟨0x1000, 0x1000, 0x1008, fun _ => 0, [], []⟩
          [.fputc 97, .vfprintf [char 'x', char '%', char 'd'] [.word 7] false, .fputc 10] = some f' ∧
        f'.buf ≤ f'.ptr ∧ f'.ptr ≤ f'.stop ∧
        f'.written.flatten ++ f'.pending = [char 'a', char 'x', char '7', 10] := by
  have text : formatted none [char 'x', char '%', char 'd'] [.word 7] =
      some [char 'x', char '7'] := by decide
  have fit : AllFit ⟨0x1000, 0x1000, 0x1008, fun _ => 0, [], []⟩
      [.fputc 97, .vfprintf [char 'x', char '%', char 'd'] [.word 7] false, .fputc 10] := by
    refine ⟨trivial, fun f' run => ⟨⟨_, text, ?_⟩, fun _ _ => ⟨trivial, fun _ _ => trivial⟩⟩⟩
    cases run
    decide
  obtain ⟨f', run, low, high, content⟩ := stream_in_order _ _ (by decide) (by decide) fit
  refine ⟨fit, f', run, low, high, content.trans ?_⟩
  simp only [List.map_cons, List.map_nil, Call.output, text]
  decide

end Trunix.Libc
