import Trunix.Libc.Stdio
import Mathlib

/-!
# `stdout` and `stderr`

The streams of `lib/libc/stdio/stdio.c` and the calls a program makes on them.  `fputc`
looks at `_end` before it stores a byte; `vfprintf` does not.
-/

set_option autoImplicit false

namespace Trunix.Libc

open Trunix.Lib

inductive Std where
  | stdout
  | stderr
  deriving DecidableEq, Repr

def bufsiz : Nat := 1024

def unget : Nat := 4

/-- The streams before the first call, for any addresses of the arrays `out` and `err`.
The array of `stderr` has only the bytes for `ungetc`. -/
def stdStreams (out err : Nat) (mem : Mem) : Std → File
  | .stdout => ⟨out + unget, out + unget, out + unget + bufsiz, mem, [], []⟩
  | .stderr => ⟨err + unget, err + unget, err + unget, mem, [], []⟩

inductive StdCall where
  | fputc (c : Int) (s : Std)
  | fflush (s : Std)
  | printf (fmt : List UInt8) (args : List Arg) (ucase : Bool)
  | fprintf (s : Std) (fmt : List UInt8) (args : List Arg) (ucase : Bool)

def StdCall.stream : StdCall → Std
  | .fputc _ s => s
  | .fflush s => s
  | .printf _ _ _ => .stdout
  | .fprintf s _ _ _ => s

/-- `printf` and `fprintf` only pass their arguments on. -/
def StdCall.call : StdCall → Call
  | .fputc c _ => .fputc c
  | .fflush _ => .fflush
  | .printf fmt args ucase => .vfprintf fmt args ucase
  | .fprintf _ fmt args ucase => .vfprintf fmt args ucase

def StdCall.run (σ : Std → File) (c : StdCall) : Option (Std → File) :=
  (c.call.run (σ c.stream)).map (Function.update σ c.stream)

def runStd (σ : Std → File) : List StdCall → Option (Std → File)
  | [] => some σ
  | c :: rest => (c.run σ).bind fun σ => runStd σ rest

/-- Every call of `printf` and `fprintf` has an output, and finds room for it in what is
left of the buffer of its stream. -/
def StdFit (σ : Std → File) : List StdCall → Prop
  | [] => True
  | c :: rest => c.call.Fits (σ c.stream) ∧ ∀ σ', c.run σ = some σ' → StdFit σ' rest

/-! ## One call -/

/-- After every byte that was stored `_ptr` was inside the buffer. -/
def File.Inside (f : File) : Prop := ∀ p ∈ f.marks, f.buf ≤ p ∧ p ≤ f.stop

theorem fputc_marks {f : File} (h : f.Ok) (inside : f.Inside) (c : Int) : (fputc c f).Inside := by
  rw [fputc]
  split
  · rename_i room
    intro p mem
    rcases List.mem_append.mp mem with older | newer
    · exact inside p older
    · rw [List.mem_singleton.mp newer]
      exact ⟨Nat.le_succ_of_le h.low, room.2⟩
  · exact inside

theorem Call.inside_iff {f : File} (h : f.Ok) (inside : f.Inside) (c : Call) :
    (∃ f', c.run f = some f' ∧ f'.Inside) ↔ c.Fits f := by
  cases c with
  | fputc c => exact iff_of_true ⟨_, rfl, fputc_marks h inside c⟩ trivial
  | fflush => exact iff_of_true ⟨_, rfl, inside⟩ trivial
  | vfprintf fmt args ucase =>
      have run : (Call.vfprintf fmt args ucase).run f =
          (formatted none fmt args).map fun out => Libc.fflush (f.puts out) :=
        vfprintf_spec f fmt args ucase
      have room : ∀ out : List UInt8,
          (Libc.fflush (f.puts out)).Inside ↔ out.length ≤ f.stop - f.ptr := by
        intro out
        have stored := File.stored out f
        have iff := stored.inside_iff h.low h.high
        have high := h.high
        have flushed : (Libc.fflush (f.puts out)).Inside ↔
            ∀ p ∈ (f.puts out).marks, f.buf ≤ p ∧ p ≤ f.stop := by
          rw [← stored.buf, ← stored.stop]
          rfl
        rw [flushed, iff]
        constructor
        · intro both
          have := both.2
          omega
        · intro fits
          exact ⟨inside, by omega⟩
      rw [run]
      constructor
      · rintro ⟨f', done, within⟩
        obtain ⟨out, text, rfl⟩ := Option.map_eq_some_iff.mp done
        exact ⟨out, text, (room out).mp within⟩
      · rintro ⟨out, text, fits⟩
        exact ⟨_, by rw [text]; rfl, (room out).mpr fits⟩

theorem Call.run_marks {f f' : File} {c : Call} (done : c.run f = some f') :
    f'.buf = f.buf ∧ f'.stop = f.stop ∧ ∀ p ∈ f.marks, p ∈ f'.marks := by
  cases c with
  | fputc c =>
      cases done
      rw [Libc.fputc]
      split
      · exact ⟨rfl, rfl, fun p mem => List.mem_append_left _ mem⟩
      · exact ⟨rfl, rfl, fun p mem => mem⟩
  | fflush =>
      cases done
      exact ⟨rfl, rfl, fun p mem => mem⟩
  | vfprintf fmt args ucase =>
      have run : some f' = (formatted none fmt args).map fun out => Libc.fflush (f.puts out) :=
        done.symm.trans (vfprintf_spec f fmt args ucase)
      obtain ⟨out, _, rfl⟩ := Option.map_eq_some_iff.mp run.symm
      have stored := File.stored out f
      refine ⟨stored.buf, stored.stop, fun p mem => ?_⟩
      have marks : (Libc.fflush (f.puts out)).marks = (f.puts out).marks := rfl
      rw [marks, stored.marks]
      exact List.mem_append_left _ mem

/-! ## All calls -/

theorem StdCall.run_marks {σ σ' : Std → File} {c : StdCall} (done : c.run σ = some σ') (s : Std) :
    (σ' s).buf = (σ s).buf ∧ (σ' s).stop = (σ s).stop ∧ ∀ p ∈ (σ s).marks, p ∈ (σ' s).marks := by
  obtain ⟨f', run, rfl⟩ := Option.map_eq_some_iff.mp done
  by_cases same : s = c.stream
  · subst same
    rw [Function.update_self]
    exact Call.run_marks run
  · rw [Function.update_of_ne same]
    exact ⟨rfl, rfl, fun p mem => mem⟩

theorem runStd_marks : ∀ (calls : List StdCall) (σ σ' : Std → File), runStd σ calls = some σ' →
    ∀ s, (σ' s).buf = (σ s).buf ∧ (σ' s).stop = (σ s).stop ∧ ∀ p ∈ (σ s).marks, p ∈ (σ' s).marks := by
  intro calls
  induction calls with
  | nil =>
      intro σ σ' done s
      cases done
      exact ⟨rfl, rfl, fun p mem => mem⟩
  | cons c rest ih =>
      intro σ σ' done s
      obtain ⟨σ₁, run, runs⟩ := Option.bind_eq_some_iff.mp done
      obtain ⟨buf, stop, marks⟩ := StdCall.run_marks run s
      obtain ⟨buf', stop', marks'⟩ := ih σ₁ σ' runs s
      exact ⟨buf'.trans buf, stop'.trans stop, fun p mem => marks' p (marks p mem)⟩

/-- A run stays inside the buffers exactly when each of its calls fits where it is made. -/
theorem runStd_inside_iff : ∀ (calls : List StdCall) (σ : Std → File), (∀ s, (σ s).Ok) →
    (∀ s, (σ s).Inside) → ((∃ σ', runStd σ calls = some σ' ∧ ∀ s, (σ' s).Inside) ↔ StdFit σ calls) := by
  intro calls
  induction calls with
  | nil => intro σ _ inside; exact iff_of_true ⟨σ, rfl, inside⟩ trivial
  | cons c rest ih =>
      intro σ ok inside
      -- the streams after a call that fits, as the rest of the run finds them
      have next : ∀ {f₁ : File}, c.call.Fits (σ c.stream) → c.call.run (σ c.stream) = some f₁ →
          f₁.Inside → (∀ s, (Function.update σ c.stream f₁ s).Ok) ∧
            ∀ s, (Function.update σ c.stream f₁ s).Inside := by
        intro f₁ fits run within
        obtain ⟨f', out, run', _, appended⟩ := Call.run_spec (ok c.stream) fits
        rw [run] at run'
        cases run'
        constructor
        all_goals
          intro s
          by_cases same : s = c.stream
          · subst same
            rw [Function.update_self]
            first | exact appended.ok | exact within
          · rw [Function.update_of_ne same]
            first | exact ok s | exact inside s
      constructor
      · rintro ⟨σ', done, within⟩
        obtain ⟨σ₁, run, runs⟩ := Option.bind_eq_some_iff.mp done
        obtain ⟨f₁, runFile, rfl⟩ := Option.map_eq_some_iff.mp run
        have within₁ : f₁.Inside := by
          obtain ⟨buf, stop, marks⟩ := runStd_marks rest _ σ' runs c.stream
          rw [Function.update_self] at buf stop marks
          intro p mem
          have bound := within c.stream p (marks p mem)
          omega
        have fits := (Call.inside_iff (ok c.stream) (inside c.stream) c.call).mp ⟨f₁, runFile, within₁⟩
        obtain ⟨ok₁, inside₁⟩ := next fits runFile within₁
        refine ⟨fits, fun σ₂ run₂ => ?_⟩
        rw [run] at run₂
        cases run₂
        exact (ih _ ok₁ inside₁).mp ⟨σ', runs, within⟩
      · rintro ⟨fits, later⟩
        obtain ⟨f₁, runFile, within₁⟩ :=
          (Call.inside_iff (ok c.stream) (inside c.stream) c.call).mpr fits
        obtain ⟨ok₁, inside₁⟩ := next fits runFile within₁
        have run : c.run σ = some (Function.update σ c.stream f₁) := by
          rw [StdCall.run, runFile]
          rfl
        obtain ⟨σ', runs, within⟩ := (ih _ ok₁ inside₁).mpr (later _ run)
        exact ⟨σ', by rw [runStd, run]; exact runs, within⟩

/-- No byte is stored outside the buffers of `stdout` and `stderr` exactly when every
`printf` and `fprintf` finds room for its output. -/
theorem streams_inside_iff (out err : Nat) (mem : Mem) (calls : List StdCall) :
    (∃ σ', runStd (stdStreams out err mem) calls = some σ' ∧
      ∀ s, ∀ p ∈ (σ' s).marks,
        (stdStreams out err mem s).buf ≤ p ∧ p ≤ (stdStreams out err mem s).stop) ↔
      StdFit (stdStreams out err mem) calls := by
  have ok : ∀ s, (stdStreams out err mem s).Ok := by
    intro s
    cases s with
    | stdout => exact ⟨Nat.le_refl _, Nat.le_add_right _ _⟩
    | stderr => exact ⟨Nat.le_refl _, Nat.le_refl _⟩
  have inside : ∀ s, (stdStreams out err mem s).Inside := by
    intro s
    cases s with
    | stdout => exact fun p none => absurd none List.not_mem_nil
    | stderr => exact fun p none => absurd none List.not_mem_nil
  rw [← runStd_inside_iff calls _ ok inside]
  constructor
  all_goals
    rintro ⟨σ', runs, within⟩
    refine ⟨σ', runs, fun s p mem => ?_⟩
    obtain ⟨buf, stop, _⟩ := runStd_marks calls _ σ' runs s
    have bound := within s p mem
    omega

/-- One letter for `stderr` is stored behind the end of its buffer. -/
theorem fprintf_stderr_outside :
    ∃ σ', runStd (stdStreams 0x5000 0x6000 (fun _ => 0)) [.fprintf .stderr [char 'a'] [] false] =
        some σ' ∧
      ¬ ∀ s, ∀ p ∈ (σ' s).marks, (stdStreams 0x5000 0x6000 (fun _ => 0) s).buf ≤ p ∧
        p ≤ (stdStreams 0x5000 0x6000 (fun _ => 0) s).stop := by
  refine ⟨_, rfl, fun within => ?_⟩
  have last := within .stderr 0x6005 (by decide)
  exact absurd last.2 (by decide)

end Trunix.Libc
