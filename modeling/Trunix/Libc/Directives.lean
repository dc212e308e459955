import Trunix.Libc.Stdio
import Mathlib

/-!
# Formats as lists of directives

A format that is well formed is a list of directives, each with its own argument, and
possibly a `%` at its end.  `vfprintf` renders each directive by itself: what an earlier
one left in `base` and `ucase`, and what these hold at first, does not matter.
-/

set_option autoImplicit false

namespace Trunix.Libc

open Trunix.Lib

inductive Directive where
  | literal (b : UInt8) (plain : b ≠ char '%')
  | percent
  | character (arg : Arg)
  | string (a : UInt32) (s : List UInt8)
  | pointer (arg : Arg)
  | number (d : UInt8) (r : Radix) (known : Radix.ofChar d = some r) (arg : Arg)
  | count (a : UInt32)

namespace Directive

def format : Directive → List UInt8
  | literal b _ => [b]
  | percent => [char '%', char '%']
  | character _ => [char '%', char 'c']
  | string _ _ => [char '%', char 's']
  | pointer _ => [char '%', char 'p']
  | number d _ _ _ => [char '%', d]
  | count _ => [char '%', char 'n']

def args : Directive → List Arg
  | literal _ _ => []
  | percent => []
  | character arg => [arg]
  | string a s => [.str a s]
  | pointer arg => [arg]
  | number _ _ _ arg => [arg]
  | count a => [.ref a]

def output : Directive → List UInt8
  | literal b _ => [b]
  | percent => [char '%']
  | character arg => [arg.value.toUInt8]
  | string _ s => s
  | pointer arg => char '0' :: char 'x' :: numeral false 16 arg.value.toNat
  | number _ r _ arg => r.text arg.value
  | count _ => []

/-- The store of a `%n` that has `n` bytes before it. -/
def stores (n : Nat) : Directive → List (UInt32 × Nat)
  | count a => [(a, n)]
  | _ => []

end Directive

/-- A `%` with nothing behind it. -/
def lonePercent (lone : Bool) : List UInt8 := if lone then [char '%'] else []

def formatOf (ds : List Directive) (lone : Bool) : List UInt8 := ds.flatMap Directive.format ++ lonePercent lone

def argsOf (ds : List Directive) : List Arg := ds.flatMap Directive.args

def render (ds : List Directive) (lone : Bool) : List UInt8 := ds.flatMap Directive.output ++ lonePercent lone

def storesOf : Nat → List Directive → List (UInt32 × Nat)
  | _, [] => []
  | n, d :: rest => d.stores n ++ storesOf (n + d.output.length) rest

theorem formatOf_cons (d : Directive) (ds : List Directive) (lone : Bool) :
    formatOf (d :: ds) lone = d.format ++ formatOf ds lone := by
  rw [formatOf, List.flatMap_cons, List.append_assoc]
  rfl

theorem argsOf_cons (d : Directive) (ds : List Directive) : argsOf (d :: ds) = d.args ++ argsOf ds :=
  List.flatMap_cons

theorem render_cons (d : Directive) (ds : List Directive) (lone : Bool) :
    render (d :: ds) lone = d.output ++ render ds lone := by
  rw [render, List.flatMap_cons, List.append_assoc]
  rfl

/-! ## One directive -/

theorem Printing.setBase_left (p : Printing) {d : UInt8} {r : Radix} (known : Radix.ofChar d = some r) :
    (p.setBase d).Left (some r) := by
  unfold Radix.ofChar at known
  unfold Printing.setBase
  by_cases isX : d = char 'X'
  · rw [if_pos isX] at known ⊢
    cases known
    exact ⟨rfl, fun _ => rfl, nofun⟩
  rw [if_neg isX] at known ⊢
  by_cases isx : d = char 'x'
  · rw [if_pos isx] at known ⊢
    cases known
    exact ⟨rfl, nofun, fun _ => rfl⟩
  rw [if_neg isx] at known ⊢
  by_cases isu : d = char 'u'
  · rw [if_pos isu] at known ⊢
    cases known
    exact ⟨rfl, nofun, nofun⟩
  rw [if_neg isu] at known ⊢
  by_cases isd : d = char 'i' ∨ d = char 'd'
  · rw [if_pos isd] at known ⊢
    cases known
    exact ⟨rfl, nofun, nofun⟩
  rw [if_neg isd] at known ⊢
  by_cases iso : d = char 'o'
  · rw [if_pos iso] at known ⊢
    cases known
    exact ⟨rfl, nofun, nofun⟩
  rw [if_neg iso] at known ⊢
  by_cases isb : d = char 'b'
  · rw [if_pos isb] at known ⊢
    cases known
    exact ⟨rfl, nofun, nofun⟩
  rw [if_neg isb] at known
  cases known

theorem Printing.setBase_same (p : Printing) (d : UInt8) :
    (p.setBase d).file = p.file ∧ (p.setBase d).args = p.args ∧ (p.setBase d).counts = p.counts := by
  unfold Printing.setBase
  repeat' split
  all_goals exact ⟨rfl, rfl, rfl⟩

theorem Radix.ofChar_special {d : UInt8} {r : Radix} (known : Radix.ofChar d = some r) :
    d ≠ char '%' ∧ d ≠ char 'c' ∧ d ≠ char 'n' ∧ d ≠ char 's' ∧ d ≠ char 'p' := by
  refine ⟨?_, ?_, ?_, ?_, ?_⟩
  all_goals
    rintro rfl
    revert known
    decide +revert

structure Rendered (start : Nat) (p p' : Printing) (d : Directive) (more : List Arg) : Prop where
  file : p'.file = p.file.puts d.output
  args : p'.args = more
  counts : p'.counts = p.counts ++ d.stores (p.file.ptr - start)

theorem Printing.format_literal (start : Nat) {b : UInt8} (plain : b ≠ char '%') (rest : List UInt8)
    (p : Printing) : p.format start (b :: rest) = (p.put b).format start rest := by
  rw [Printing.format.eq_def]
  exact if_neg plain

theorem Printing.format_percent (start : Nat) (d : UInt8) (rest : List UInt8) (p : Printing) :
    p.format start (char '%' :: d :: rest) = (p.convert start d).bind fun p => p.format start rest := by
  rw [Printing.format, if_pos rfl]

section Convert

variable {start : Nat} {p : Printing} {arg : Arg} {more : List Arg}

theorem Printing.convert_percent : p.convert start (char '%') = some (p.put (char '%')) := if_pos rfl

theorem Printing.convert_character (args : p.args = arg :: more) :
    p.convert start (char 'c') = some (({ p with args := more } : Printing).put arg.value.toUInt8) := by
  have notPercent : char 'c' ≠ char '%' := by decide
  simp only [Printing.convert, if_neg notPercent, args, if_true]

theorem Printing.convert_count {a : UInt32} (args : p.args = .ref a :: more) :
    p.convert start (char 'n') =
      some { p with args := more, counts := p.counts ++ [(a, p.file.ptr - start)] } := by
  have notPercent : char 'n' ≠ char '%' := by decide
  have notC : char 'n' ≠ char 'c' := by decide
  simp only [Printing.convert, if_neg notPercent, if_neg notC, args, if_true]

theorem Printing.convert_string {a : UInt32} {s : List UInt8} (args : p.args = .str a s :: more) :
    p.convert start (char 's') = some (({ p with args := more } : Printing).puts s) := by
  have notPercent : char 's' ≠ char '%' := by decide
  have notC : char 's' ≠ char 'c' := by decide
  have notN : char 's' ≠ char 'n' := by decide
  simp only [Printing.convert, if_neg notPercent, if_neg notC, if_neg notN, args, if_true]

theorem Printing.convert_pointer (args : p.args = arg :: more) :
    p.convert start (char 'p') =
      some (((({ p with args := more } : Printing).put (char '0')).put (char 'x')).puts
        (itoa arg.value 16 false)) := by
  have notPercent : char 'p' ≠ char '%' := by decide
  have notC : char 'p' ≠ char 'c' := by decide
  have notN : char 'p' ≠ char 'n' := by decide
  have notS : char 'p' ≠ char 's' := by decide
  simp only [Printing.convert, if_neg notPercent, if_neg notC, if_neg notN, if_neg notS, args, if_true]

theorem Printing.convert_number {d : UInt8} {r : Radix} (known : Radix.ofChar d = some r)
    (args : p.args = arg :: more) :
    p.convert start d =
      some ((({ p with args := more } : Printing).setBase d).puts (r.text arg.value)) := by
  obtain ⟨notPercent, notC, notN, notS, notP⟩ := Radix.ofChar_special known
  have left := Printing.setBase_left ({ p with args := more } : Printing) known
  have base : (({ p with args := more } : Printing).setBase d).base = some r.base := left.base
  simp only [Printing.convert, if_neg notPercent, if_neg notC, if_neg notN, if_neg notS, if_neg notP, args]
  rw [base, Option.map_some, itoa_radix left]

end Convert

theorem Directive.step (start : Nat) (d : Directive) (rest : List UInt8) {p : Printing} {more : List Arg}
    (args : p.args = d.args ++ more) :
    ∃ p', Rendered start p p' d more ∧ p.format start (d.format ++ rest) = p'.format start rest := by
  cases d with
  | literal b plain =>
      refine ⟨p.put b, ⟨rfl, args, (List.append_nil _).symm⟩, ?_⟩
      exact Printing.format_literal start plain rest p
  | percent =>
      refine ⟨p.put (char '%'), ⟨rfl, args, (List.append_nil _).symm⟩, ?_⟩
      rw [Directive.format, List.cons_append, List.cons_append, Printing.format_percent,
        Printing.convert_percent]
      rfl
  | character arg =>
      refine ⟨({ p with args := more } : Printing).put arg.value.toUInt8,
        ⟨rfl, rfl, (List.append_nil _).symm⟩, ?_⟩
      rw [Directive.format, List.cons_append, List.cons_append, Printing.format_percent,
        Printing.convert_character args]
      rfl
  | string a s =>
      refine ⟨({ p with args := more } : Printing).puts s, ?_, ?_⟩
      · rw [Printing.puts_eq]
        exact ⟨rfl, rfl, (List.append_nil _).symm⟩
      · rw [Directive.format, List.cons_append, List.cons_append, Printing.format_percent,
          Printing.convert_string args]
        rfl
  | pointer arg =>
      have text : itoa arg.value 16 false = numeral false 16 arg.value.toNat :=
        @itoa_unsigned 16 (by decide) arg.value false
      refine ⟨((({ p with args := more } : Printing).put (char '0')).put (char 'x')).puts
        (itoa arg.value 16 false), ?_, ?_⟩
      · rw [Printing.puts_eq, text]
        exact ⟨rfl, rfl, (List.append_nil _).symm⟩
      · rw [Directive.format, List.cons_append, List.cons_append, Printing.format_percent,
          Printing.convert_pointer args]
        rfl
  | number d r known arg =>
      obtain ⟨file, kept, counts⟩ := Printing.setBase_same ({ p with args := more } : Printing) d
      refine ⟨(({ p with args := more } : Printing).setBase d).puts (r.text arg.value), ?_, ?_⟩
      · rw [Printing.puts_eq]
        refine ⟨?_, kept, ?_⟩
        · show File.puts (({ p with args := more } : Printing).setBase d).file _ = _
          rw [file]
          rfl
        · show (({ p with args := more } : Printing).setBase d).counts = _
          rw [counts]
          exact (List.append_nil _).symm
      · rw [Directive.format, List.cons_append, List.cons_append, Printing.format_percent,
          Printing.convert_number known args]
        rfl
  | count a =>
      refine ⟨{ p with args := more, counts := p.counts ++ [(a, p.file.ptr - start)] }, ⟨rfl, rfl, rfl⟩, ?_⟩
      rw [Directive.format, List.cons_append, List.cons_append, Printing.format_percent,
        Printing.convert_count args]
      rfl

/-! ## A whole format -/

/-- The loop over the directives of a format, which has stored `n` bytes before it. -/
theorem Printing.format_directives (start : Nat) (lone : Bool) : ∀ (ds : List Directive) (p : Printing)
    (extra : List Arg), p.args = argsOf ds ++ extra → start ≤ p.file.ptr →
    ∃ p', p.format start (formatOf ds lone) = some p' ∧ p'.file = p.file.puts (render ds lone) ∧
      p'.counts = p.counts ++ storesOf (p.file.ptr - start) ds := by
  intro ds
  induction ds with
  | nil =>
      intro p extra args behind
      cases lone with
      | false => exact ⟨p, rfl, rfl, (List.append_nil _).symm⟩
      | true => exact ⟨p.put (char '%'), rfl, rfl, (List.append_nil _).symm⟩
  | cons d rest ih =>
      intro p extra args behind
      have args' : p.args = d.args ++ (argsOf rest ++ extra) := by
        rw [args, argsOf_cons, List.append_assoc]
      obtain ⟨p₁, rendered, step⟩ := d.step start (formatOf rest lone) args'
      have ptr : p₁.file.ptr = p.file.ptr + d.output.length := by
        rw [rendered.file]
        exact (File.stored d.output p.file).ptr
      obtain ⟨p', run, file, counts⟩ := ih p₁ extra rendered.args (by omega)
      refine ⟨p', by rw [formatOf_cons, step, run], ?_, ?_⟩
      · rw [file, rendered.file, render_cons, File.puts_append]
      · have before : p₁.file.ptr - start = p.file.ptr - start + d.output.length := by omega
        rw [counts, rendered.counts, before, storesOf, List.append_assoc]

theorem vfprintf_directives (f : File) (ds : List Directive) (lone : Bool) (extra : List Arg) (ucase : Bool) :
    vfprintf f (formatOf ds lone) (argsOf ds ++ extra) ucase =
      some (f.ptr + (render ds lone).length - f.buf, fflush (f.puts (render ds lone)), storesOf 0 ds) := by
  obtain ⟨p', run, file, counts⟩ := Printing.format_directives f.ptr lone ds
    ⟨f, argsOf ds ++ extra, none, ucase, []⟩ extra rfl (Nat.le_refl _)
  have stored := File.stored (render ds lone) f
  have none : f.ptr - f.ptr = 0 := Nat.sub_self _
  rw [vfprintf, run, Option.map_some, file, counts, stored.ptr, stored.buf, List.nil_append, none]

/-- For every format of directives with matching arguments whose output fits, the stream
gets the rendering of the format, stored inside the buffer and then flushed, and each `%n`
stores the number of bytes before it.  No `base` is read that was not set, and what `ucase`
holds at first does not matter. -/
theorem vfprintf_renders {f : File} (low : f.buf ≤ f.ptr) (ds : List Directive) (lone : Bool)
    (extra : List Arg) (room : (render ds lone).length ≤ f.stop - f.ptr) :
    ∃ ret f', (∀ ucase, vfprintf f (formatOf ds lone) (argsOf ds ++ extra) ucase =
        some (ret, f', storesOf 0 ds)) ∧
      f'.written.flatten ++ f'.pending = f.written.flatten ++ f.pending ++ render ds lone ∧
      f'.ptr = f'.buf ∧
      ∃ stored, f'.marks = f.marks ++ stored ∧ ∀ p ∈ stored, f.buf ≤ p ∧ p ≤ f.stop := by
  have stored := File.stored (render ds lone) f
  refine ⟨_, _, fun ucase => vfprintf_directives f ds lone extra ucase, ?_, rfl, _, stored.marks, ?_⟩
  · have content := fflush_content (f.puts (render ds lone))
    rw [File.content, File.content, stored.written, stored.pending low] at content
    rw [content, List.append_assoc]
  · intro p mem
    obtain ⟨i, inRange, rfl⟩ := List.mem_map.mp mem
    have lt := List.mem_range.mp inRange
    omega

def sampleFormat : List Directive :=
  [.number (char 'd') .signed rfl (.word 4294967291), .literal (char '|') (by decide),
    .number (char 'x') .lowerHex rfl (.word 255), .count 0x2000]

def emptyFile : File := ⟨0x1000, 0x1000, 0x1010, fun _ => 0, [], []⟩

theorem vfprintf_renders_sample :
    render sampleFormat true = [char '-', char '5', char '|', char 'f', char 'f', char '%'] ∧
    ∃ ret f', ∀ ucase, vfprintf emptyFile (formatOf sampleFormat true) (argsOf sampleFormat ++ []) ucase =
      some (ret, f', [(0x2000, 5)]) := by
  have low : emptyFile.buf ≤ emptyFile.ptr := Nat.le_refl _
  have text : render sampleFormat true =
      [char '-', char '5', char '|', char 'f', char 'f', char '%'] := by decide
  have room : (render sampleFormat true).length ≤ emptyFile.stop - emptyFile.ptr := by
    rw [text]
    decide
  obtain ⟨ret, f', done, _⟩ := vfprintf_renders low sampleFormat true [] room
  have stores : storesOf 0 sampleFormat = [(0x2000, 5)] := by decide
  rw [stores] at done
  exact ⟨text, ret, f', done⟩

/-! ## The value of vfprintf -/

theorem Call.empty_iff {f f' : File} (ok : f.Ok) {c : Call} (run : c.run f = some f') :
    f'.ptr = f'.buf ↔ ∀ ch, c = .fputc ch → ch = 10 ∨ f.stop ≤ f.ptr := by
  cases c with
  | fputc ch =>
      have same : Libc.fputc ch f = f' := Option.some.inj run
      by_cases stores : ch ≠ 10 ∧ f.ptr < f.stop
      · rw [Libc.fputc, if_pos stores] at same
        subst same
        have more : (f.put (byte ch)).ptr = f.ptr + 1 := rfl
        have buf : (f.put (byte ch)).buf = f.buf := rfl
        have low := ok.low
        refine iff_of_false (by omega) (fun all => ?_)
        rcases all ch rfl with newline | full
        · exact stores.1 newline
        · omega
      · rw [Libc.fputc, if_neg stores] at same
        subst same
        refine iff_of_true rfl (fun other equal => ?_)
        cases equal
        by_contra neither
        exact stores ⟨fun newline => neither (.inl newline), by omega⟩
  | fflush =>
      cases run
      refine iff_of_true rfl (fun ch equal => ?_)
      cases equal
  | vfprintf fmt args ucase =>
      refine iff_of_true ?_ (fun ch equal => by cases equal)
      rw [Call.run, Option.map_eq_some_iff] at run
      obtain ⟨r, printed, rfl⟩ := run
      rw [Libc.vfprintf, Option.map_eq_some_iff] at printed
      obtain ⟨p, _, rfl⟩ := printed
      rfl

theorem vfprintf_value {f : File} {fmt : List UInt8} {args : List Arg} {out : List UInt8} (ucase : Bool)
    (text : formatted none fmt args = some out) :
    ∃ f' counts, vfprintf f fmt args ucase = some (f.ptr + out.length - f.buf, f', counts) ∧
      f' = fflush (f.puts out) := by
  have loop := Printing.format_spec f.ptr fmt ⟨f, args, none, ucase, []⟩ none ⟨rfl, nofun, nofun⟩
  rw [text, Option.map_some, Option.map_eq_some_iff] at loop
  obtain ⟨p, done, file⟩ := loop
  have stored := File.stored out f
  refine ⟨fflush (f.puts out), p.counts, ?_, rfl⟩
  rw [vfprintf, done, Option.map_some, file, stored.ptr, stored.buf]

theorem storesOf_append : ∀ (ds more : List Directive) (n : Nat),
    storesOf n (ds ++ more) = storesOf n ds ++ storesOf (n + (ds.flatMap Directive.output).length) more := by
  intro ds
  induction ds with
  | nil => intro more n; rfl
  | cons d rest ih =>
      intro more n
      rw [List.cons_append, storesOf, ih, storesOf, List.append_assoc, List.flatMap_cons, List.length_append,
        Nat.add_assoc]

/-- In every state that calls on an empty stream lead to, `vfprintf` gives back the length
of its output exactly when it finds the buffer empty; a `%n` at the end of the format stores
that length in any case. -/
theorem vfprintf_returns_length_iff {f₀ f : File} (empty : f₀.ptr = f₀.buf) (room : f₀.buf ≤ f₀.stop)
    {calls : List Call} (fit : AllFit f₀ calls) (run : runCalls f₀ calls = some f) :
    (∀ fmt args ucase out, formatted none fmt args = some out → out.length ≤ f.stop - f.ptr →
      ∃ ret f' counts, vfprintf f fmt args ucase = some (ret, f', counts) ∧
        f'.written.flatten ++ f'.pending = f.written.flatten ++ f.pending ++ out ∧
        (ret = out.length ↔ f.ptr = f.buf)) ∧
    (∀ ds a extra ucase, (render ds false).length ≤ f.stop - f.ptr →
      ∃ ret f' counts, vfprintf f (formatOf (ds ++ [.count a]) false)
          (argsOf (ds ++ [.count a]) ++ extra) ucase =
            some (ret, f', counts ++ [(a, (render ds false).length)]) ∧
        (ret = (render ds false).length ↔ f.ptr = f.buf)) := by
  have ok : f.Ok := by
    obtain ⟨f', run', low, high, _⟩ := stream_in_order f₀ calls (by omega) (by omega) fit
    rw [run] at run'
    cases run'
    exact ⟨low, high⟩
  have low := ok.low
  constructor
  · intro fmt args ucase out text _
    obtain ⟨f', counts, value, rfl⟩ := @vfprintf_value f fmt args out ucase text
    refine ⟨_, _, counts, value, (ok.printed out).content, ?_⟩
    omega
  · intro ds a extra ucase _
    have value := vfprintf_directives f (ds ++ [.count a]) false extra ucase
    have text : render (ds ++ [.count a]) false = render ds false := by
      simp [render, Directive.output]
    have stores : storesOf 0 (ds ++ [.count a]) = storesOf 0 ds ++ [(a, (render ds false).length)] := by
      rw [storesOf_append]
      simp [storesOf, Directive.stores, render, lonePercent]
    rw [text, stores] at value
    refine ⟨_, _, _, value, ?_⟩
    omega

theorem vfprintf_returns_length_iff_empty : ∃ f' counts,
    vfprintf emptyFile [char 'h', char 'i'] [] false = some (2, f', counts) := by
  have both := @vfprintf_returns_length_iff emptyFile emptyFile rfl (by decide) [] trivial rfl
  have text : formatted none [char 'h', char 'i'] [] = some [char 'h', char 'i'] := by decide
  obtain ⟨ret, f', counts, done, _, iff⟩ := both.1 _ _ false _ text (by decide)
  have value : ret = 2 := iff.mpr rfl
  rw [value] at done
  exact ⟨f', counts, done⟩

/-- With one byte in the buffer the value is one too many. -/
theorem vfprintf_counts_pending : ¬ ∀ (f₀ f : File) (calls : List Call), f₀.ptr = f₀.buf → f₀.buf ≤ f₀.stop →
    AllFit f₀ calls → runCalls f₀ calls = some f → ∀ fmt args ucase out,
    formatted none fmt args = some out → out.length ≤ f.stop - f.ptr →
    ∃ f' counts, vfprintf f fmt args ucase = some (out.length, f', counts) := by
  intro all
  have fit : AllFit emptyFile [.fputc 97] := ⟨trivial, fun _ _ => trivial⟩
  have text : formatted none [char 'x'] [] = some [char 'x'] := by decide
  obtain ⟨f', counts, done⟩ := all emptyFile (fputc 97 emptyFile) [.fputc 97] rfl (by decide) fit rfl
    [char 'x'] [] false [char 'x'] text (by decide)
  have value : (vfprintf (fputc 97 emptyFile) [char 'x'] [] false).map (fun r => r.1) = some 2 := by decide
  rw [done, Option.map_some] at value
  have short : [char 'x'].length ≠ 2 := by decide
  exact short (Option.some.inj value)

end Trunix.Libc
