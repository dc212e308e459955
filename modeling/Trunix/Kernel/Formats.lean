import Trunix.Lib.Logged
import Trunix.Lib.Run
import Trunix.Kernel.Serial
import Mathlib

/-!
# Which formats are safe

`printk` and `vfprintf` again, now with a log of their calls of `itoa`.  Neither `switch`
has a default case: behind an unknown character `base` is what an earlier conversion left,
or nothing.  Every call has a base of its own conversion exactly when the function knows
every conversion of the format and finds an argument of its kind.
-/

set_option autoImplicit false

namespace Trunix

open Trunix.Lib Trunix.Lib.Logged
open Trunix.Libc (char Arg Radix Directive Printing formatOf argsOf render lonePercent File vfprintf fflush)

structure ItoaCall where
  d : UInt8
  base : Option Int

abbrev Formatting := Logged ItoaCall Unit

def callItoa (d : UInt8) (base : Option Int) : Formatting Unit := ⟨[⟨d, base⟩], .ok ()⟩

def undefined {σ : Type} : Formatting σ := silent (.error ())

/-- The loop both functions run over their format. -/
def formatLoop {σ : Type} (literal : UInt8 → σ → σ) (lone : σ → σ) (convert : UInt8 → σ → Formatting σ) :
    List UInt8 → σ → Formatting σ
  | [], s => return s
  | c :: rest, s =>
      if c = char '%' then
        match rest with
        | [] => return lone s
        | d :: rest => do
            let s ← convert d s
            formatLoop literal lone convert rest s
      else formatLoop literal lone convert rest (literal c s)

/-! ## vfprintf -/

def convertCalls (start : Nat) (d : UInt8) (p : Printing) : Formatting Printing :=
  if d = char '%' then return p.put d
  else
    match p.args with
    | [] => undefined
    | arg :: rest =>
        let p := { p with args := rest }
        if d = char 'c' then return p.put arg.value.toUInt8
        else if d = char 'n' then
          match arg with
          | .ref a => return { p with counts := p.counts ++ [(a, p.file.ptr - start)] }
          | _ => undefined
        else if d = char 's' then
          match arg with
          | .str _ s => return p.puts s
          | _ => undefined
        else if d = char 'p' then do
          callItoa d (some 16)
          return ((p.put (char '0')).put (char 'x')).puts (Libc.itoa arg.value 16 false)
        else do
          let p := p.setBase d
          callItoa d p.base
          match p.base with
          | none => undefined
          | some base => return p.puts (Libc.itoa arg.value base p.ucase)

def vfprintfCalls (f : File) (fmt : List UInt8) (args : List Arg) (ucase : Bool) :
    Formatting (Nat × File × List (UInt32 × Nat)) := do
  let p ← formatLoop (fun c p => p.put c) (fun p => p.put (char '%')) (convertCalls f.ptr) fmt
    ⟨f, args, none, ucase, []⟩
  return (p.file.ptr - p.file.buf, fflush p.file, p.counts)

/-! ## printk -/

def printkConvertCalls (d : UInt8) (p : Printk) : Formatting Printk :=
  if d = char '%' then return p.writeSerial d
  else
    match p.args with
    | [] => undefined
    | arg :: rest =>
        let p := { p with args := rest }
        if d = char 's' then
          match arg with
          | .str _ s => return p.writeString s
          | _ => undefined
        else if d = char 'c' then return p.writeSerial arg.value.toUInt8
        else do
          let p := p.setBase d
          callItoa d (p.base.map Int.ofNat)
          match p.base with
          | none => undefined
          | some base => return p.writeString (itoa arg.value base)

def printkCalls (fmt : List UInt8) (args : List Arg) : Formatting (List UInt8) := do
  let p ← formatLoop (fun c p => p.writeSerial c) id printkConvertCalls fmt ⟨[], args, none⟩
  return p.sent

/-! ## The log changes nothing -/

theorem toOption_bind {σ τ : Type} (x : Except Unit σ) (f : σ → Except Unit τ) :
    (x >>= f).toOption = x.toOption.bind fun a => (f a).toOption := by
  cases x with
  | error e => rfl
  | ok a => rfl

theorem convertCalls_result (start : Nat) (d : UInt8) (p : Printing) :
    (convertCalls start d p).result.toOption = p.convert start d := by
  unfold convertCalls Printing.convert
  by_cases literal : d = char '%'
  · rw [if_pos literal, if_pos literal]
    rfl
  rw [if_neg literal, if_neg literal]
  cases p.args with
  | nil => rfl
  | cons arg rest =>
      by_cases isChar : d = char 'c'
      · simp only [if_pos isChar]
        rfl
      simp only [if_neg isChar]
      by_cases isCount : d = char 'n'
      · simp only [if_pos isCount]
        cases arg <;> rfl
      simp only [if_neg isCount]
      by_cases isString : d = char 's'
      · simp only [if_pos isString]
        cases arg <;> rfl
      simp only [if_neg isString]
      by_cases isPointer : d = char 'p'
      · simp only [if_pos isPointer]
        rfl
      simp only [if_neg isPointer]
      cases (({ p with args := rest } : Printing).setBase d).base with
      | none => rfl
      | some base => rfl

theorem printkConvertCalls_result (d : UInt8) (p : Printk) :
    (printkConvertCalls d p).result.toOption = p.convert d := by
  unfold printkConvertCalls Printk.convert
  by_cases literal : d = char '%'
  · rw [if_pos literal, if_pos literal]
    rfl
  rw [if_neg literal, if_neg literal]
  cases p.args with
  | nil => rfl
  | cons arg rest =>
      by_cases isString : d = char 's'
      · simp only [if_pos isString]
        cases arg <;> rfl
      simp only [if_neg isString]
      by_cases isChar : d = char 'c'
      · simp only [if_pos isChar]
        rfl
      simp only [if_neg isChar]
      cases (({ p with args := rest } : Printk).setBase d).base with
      | none => rfl
      | some base => rfl

/-- A loop with the same branches gives what the loop with the log gives. -/
theorem formatLoop_result {σ : Type} {literal : UInt8 → σ → σ} {lone : σ → σ} {convert : UInt8 → σ → Formatting σ}
    {run : List UInt8 → σ → Option σ} (nil : ∀ s, run [] s = some s)
    (single : ∀ s, run [char '%'] s = some (lone s))
    (percent : ∀ d rest s, run (char '%' :: d :: rest) s = (convert d s).result.toOption.bind (run rest))
    (plain : ∀ c rest s, c ≠ char '%' → run (c :: rest) s = run rest (literal c s)) :
    ∀ fmt s, (formatLoop literal lone convert fmt s).result.toOption = run fmt s := by
  intro fmt s
  induction fmt, s using formatLoop.induct literal with
  | case1 s => exact (nil s).symm
  | case2 s => exact (single s).symm
  | case3 s d rest ih =>
      rw [formatLoop, if_pos rfl, result_bind, toOption_bind, percent]
      congr 1
      funext s'
      exact ih s'
  | case4 c rest s ne ih =>
      rw [formatLoop.eq_def, plain c rest s ne]
      simp only [if_neg ne]
      exact ih

theorem vfprintfCalls_result (f : File) (fmt : List UInt8) (args : List Arg) (ucase : Bool) :
    (vfprintfCalls f fmt args ucase).result.toOption = vfprintf f fmt args ucase := by
  have loop : ∀ (fmt : List UInt8) (p : Printing),
      (formatLoop (fun c p => p.put c) (fun p => p.put (char '%')) (convertCalls f.ptr) fmt p).result.toOption =
        p.format f.ptr fmt := by
    apply formatLoop_result (fun _ => rfl) (fun _ => rfl)
    · intro d rest p
      rw [convertCalls_result]
      exact Libc.Printing.format_percent f.ptr d rest p
    · intro c rest p ne
      exact Libc.Printing.format_literal f.ptr ne rest p
  rw [vfprintfCalls, result_bind, toOption_bind, loop]
  cases found : Printing.format f.ptr fmt ⟨f, args, none, ucase, []⟩ with
  | none => rw [vfprintf, found]; rfl
  | some p => rw [vfprintf, found]; rfl

theorem printkCalls_result (fmt : List UInt8) (args : List Arg) :
    (printkCalls fmt args).result.toOption = printk fmt args := by
  have loop : ∀ (fmt : List UInt8) (p : Printk),
      (formatLoop (fun c p => p.writeSerial c) id printkConvertCalls fmt p).result.toOption = p.format fmt := by
    apply formatLoop_result (fun _ => rfl) (fun _ => rfl)
    · intro d rest p
      rw [printkConvertCalls_result]
      exact Printk.format_percent d rest p
    · intro c rest p ne
      exact Printk.format_literal ne rest p
  rw [printkCalls, result_bind, toOption_bind, loop]
  cases found : Printk.format fmt ⟨[], args, none⟩ with
  | none => rw [printk, found]; rfl
  | some p => rw [printk, found]; rfl

/-! ## Formats with known conversions and matching arguments -/

def Libc.Arg.isStr : Arg → Bool
  | .str _ _ => true
  | _ => false

def Libc.Arg.isRef : Arg → Bool
  | .ref _ => true
  | _ => false

def matched (accepts : UInt8 → Arg → Bool) : List UInt8 → List Arg → Bool
  | [], _ => true
  | c :: rest, args =>
      if c = char '%' then
        match rest with
        | [] => true
        | d :: rest =>
            if d = char '%' then matched accepts rest args
            else
              match args with
              | [] => false
              | arg :: args => accepts d arg && matched accepts rest args
      else matched accepts rest args

def vfprintfAccepts (d : UInt8) (arg : Arg) : Bool :=
  decide (d ∈ [char 'c', char 'p', char 'X', char 'x', char 'u', char 'i', char 'd', char 'o', char 'b']) ||
    (decide (d = char 's') && arg.isStr) || (decide (d = char 'n') && arg.isRef)

def printkAccepts (d : UInt8) (arg : Arg) : Bool :=
  decide (d ∈ [char 'c', char 'X', char 'x', char 'd', char 'o', char 'b']) ||
    (decide (d = char 's') && arg.isStr)

def vfprintfBase (d : UInt8) : Option Int :=
  if d = char 'p' then some 16 else (Radix.ofChar d).map Radix.base

def printkBase (d : UInt8) : Option Int :=
  if d = char 'X' ∨ d = char 'x' then some 16
  else if d = char 'd' then some 10
  else if d = char 'o' then some 8
  else if d = char 'b' then some 2
  else none

def OwnBase (own : UInt8 → Option Int) (t : ItoaCall) : Prop :=
  ∃ base, t.base = some base ∧ own t.d = some base

def Clean {σ : Type} (own : UInt8 → Option Int) (x : Formatting σ) (s : σ) : Prop :=
  x.result = .ok s ∧ All (OwnBase own) x

section Loop

variable {σ τ : Type} {own : UInt8 → Option Int}

theorem clean_pure (s : σ) : Clean own (Pure.pure s : Formatting σ) s := ⟨rfl, all_pure s⟩

theorem not_clean_undefined (s : σ) : ¬ Clean own (undefined : Formatting σ) s := by
  rintro ⟨done, _⟩
  cases done

theorem clean_bind {x : Formatting σ} {f : σ → Formatting τ} {t : τ} :
    Clean own (x >>= f) t ↔ ∃ s, Clean own x s ∧ Clean own (f s) t := by
  unfold Clean
  rw [result_bind, bind_eq_ok]
  constructor
  · rintro ⟨⟨s, done, later⟩, all⟩
    rw [all_bind_ok done] at all
    exact ⟨s, ⟨done, all.1⟩, later, all.2⟩
  · rintro ⟨s, ⟨done, first⟩, later, second⟩
    exact ⟨⟨s, done, later⟩, (all_bind_ok done).mpr ⟨first, second⟩⟩

theorem clean_call {d : UInt8} {base : Option Int} {f : Unit → Formatting τ} {t : τ} :
    Clean own (callItoa d base >>= f) t ↔ OwnBase own ⟨d, base⟩ ∧ Clean own (f ()) t := by
  rw [clean_bind]
  constructor
  · rintro ⟨s, ⟨_, all⟩, later⟩
    exact ⟨all _ (List.mem_singleton.mpr rfl), later⟩
  · rintro ⟨base, later⟩
    refine ⟨(), ⟨rfl, fun t mem => ?_⟩, later⟩
    rw [List.mem_singleton.mp mem]
    exact base

theorem clean_read {x : Formatting σ} {g : σ → τ} :
    (∃ t, Clean own (do return g (← x)) t) ↔ ∃ s, Clean own x s := by
  constructor
  · rintro ⟨t, clean⟩
    obtain ⟨s, first, _⟩ := clean_bind.mp clean
    exact ⟨s, first⟩
  · rintro ⟨s, first⟩
    exact ⟨g s, clean_bind.mpr ⟨s, first, clean_pure _⟩⟩

structure Converts (args : σ → List Arg) (own : UInt8 → Option Int) (accepts : UInt8 → Arg → Bool)
    (convert : UInt8 → σ → Formatting σ) : Prop where
  percent : ∀ s, ∃ s', Clean own (convert (char '%') s) s' ∧ args s' = args s
  none : ∀ d s s', d ≠ char '%' → args s = [] → ¬ Clean own (convert d s) s'
  accepted : ∀ d s arg more, d ≠ char '%' → args s = arg :: more → accepts d arg = true →
    ∃ s', Clean own (convert d s) s' ∧ args s' = more
  refused : ∀ d s arg more s', d ≠ char '%' → args s = arg :: more → accepts d arg = false →
    ¬ Clean own (convert d s) s'

theorem Clean.unique {x : Formatting σ} {s s' : σ} (h : Clean own x s) (h' : Clean own x s') : s = s' :=
  Except.ok.inj (h.1.symm.trans h'.1)

theorem formatLoop_clean_iff {args : σ → List Arg} {accepts : UInt8 → Arg → Bool}
    {literal : UInt8 → σ → σ} {lone : σ → σ} {convert : UInt8 → σ → Formatting σ}
    (converts : Converts args own accepts convert) (kept : ∀ c s, args (literal c s) = args s) :
    ∀ fmt s, (∃ s', Clean own (formatLoop literal lone convert fmt s) s') ↔
      matched accepts fmt (args s) = true := by
  intro fmt s
  induction fmt, s using formatLoop.induct literal with
  | case1 s => exact iff_of_true ⟨s, clean_pure s⟩ rfl
  | case2 s => exact iff_of_true ⟨lone s, clean_pure (lone s)⟩ rfl
  | case3 s d rest ih =>
      have step : formatLoop literal lone convert (char '%' :: d :: rest) s =
          convert d s >>= fun s => formatLoop literal lone convert rest s := by
        rw [formatLoop, if_pos rfl]
      simp only [step, clean_bind]
      by_cases isPercent : d = char '%'
      · have same : matched accepts (char '%' :: d :: rest) (args s) = matched accepts rest (args s) := by
          simp only [matched, if_true, if_pos isPercent]
        obtain ⟨s₁, clean, left⟩ := converts.percent s
        rw [same, ← left, ← ih s₁, isPercent]
        constructor
        · rintro ⟨s', s₂, clean', later⟩
          rw [clean.unique clean']
          exact ⟨s', later⟩
        · rintro ⟨s', later⟩
          exact ⟨s', s₁, clean, later⟩
      · cases left : args s with
        | nil =>
            have refused : matched accepts (char '%' :: d :: rest) [] = false := by
              simp only [matched, if_true, if_neg isPercent]
            rw [refused]
            refine iff_of_false ?_ Bool.false_ne_true
            rintro ⟨s', s₁, clean, _⟩
            exact converts.none d s s₁ isPercent left clean
        | cons arg more =>
            have both : matched accepts (char '%' :: d :: rest) (arg :: more) =
                (accepts d arg && matched accepts rest more) := by
              simp only [matched, if_true, if_neg isPercent]
            rw [both, Bool.and_eq_true]
            cases ok : accepts d arg with
            | false =>
                refine iff_of_false ?_ (fun all => Bool.false_ne_true all.1)
                rintro ⟨s', s₁, clean, _⟩
                exact converts.refused d s arg more s₁ isPercent left ok clean
            | true =>
                obtain ⟨s₁, clean, after⟩ := converts.accepted d s arg more isPercent left ok
                rw [← after, ← ih s₁]
                constructor
                · rintro ⟨s', s₂, clean', later⟩
                  rw [clean.unique clean']
                  exact ⟨rfl, s', later⟩
                · rintro ⟨_, s', later⟩
                  exact ⟨s', s₁, clean, later⟩
  | case4 c rest s ne ih =>
      have step : formatLoop literal lone convert (c :: rest) s =
          formatLoop literal lone convert rest (literal c s) := by
        rw [formatLoop.eq_def]
        simp only [if_neg ne]
      have same : matched accepts (c :: rest) (args s) = matched accepts rest (args s) := by
        rw [matched.eq_def]
        simp only [if_neg ne]
      rw [step, same, ← kept c s]
      exact ih

end Loop

/-! ## The conversions of vfprintf -/

theorem vfprintfAccepts_number {d : UInt8} (notC : d ≠ char 'c') (notN : d ≠ char 'n') (notS : d ≠ char 's')
    (notP : d ≠ char 'p') (arg : Arg) : vfprintfAccepts d arg = (Radix.ofChar d).isSome := by
  simp only [vfprintfAccepts, List.mem_cons, notC, notP, notS, notN, List.not_mem_nil, false_or, or_false,
    decide_false, Bool.false_and, Bool.or_false]
  unfold Radix.ofChar
  grind

theorem convertCalls_arg {start : Nat} {d : UInt8} {p : Printing} {arg : Arg} {more : List Arg}
    (notPercent : d ≠ char '%') (args : p.args = arg :: more) :
    (vfprintfAccepts d arg = true → ∃ p', Clean vfprintfBase (convertCalls start d p) p' ∧ p'.args = more) ∧
      (vfprintfAccepts d arg = false → ∀ p', ¬ Clean vfprintfBase (convertCalls start d p) p') := by
  simp only [convertCalls, if_neg notPercent, args]
  by_cases isChar : d = char 'c'
  · simp only [if_pos isChar]
    refine ⟨fun _ => ⟨_, clean_pure _, rfl⟩, fun refused => ?_⟩
    rw [isChar] at refused
    exact absurd refused (by simp [vfprintfAccepts])
  simp only [if_neg isChar]
  by_cases isCount : d = char 'n'
  · simp only [if_pos isCount]
    have accepts : vfprintfAccepts d arg = arg.isRef := by
      rw [isCount]
      cases arg <;> rfl
    rw [accepts]
    cases arg with
    | ref a => exact ⟨fun _ => ⟨_, clean_pure _, rfl⟩, nofun⟩
    | word n => exact ⟨nofun, fun _ p' => not_clean_undefined p'⟩
    | str a s => exact ⟨nofun, fun _ p' => not_clean_undefined p'⟩
  simp only [if_neg isCount]
  by_cases isString : d = char 's'
  · simp only [if_pos isString]
    have accepts : vfprintfAccepts d arg = arg.isStr := by
      rw [isString]
      cases arg <;> rfl
    rw [accepts]
    cases arg with
    | str a s =>
        refine ⟨fun _ => ⟨_, clean_pure _, ?_⟩, nofun⟩
        rw [Printing.puts_eq]
    | word n => exact ⟨nofun, fun _ p' => not_clean_undefined p'⟩
    | ref a => exact ⟨nofun, fun _ p' => not_clean_undefined p'⟩
  simp only [if_neg isString]
  by_cases isPointer : d = char 'p'
  · simp only [if_pos isPointer]
    have own : OwnBase vfprintfBase ⟨d, some 16⟩ := ⟨16, rfl, if_pos isPointer⟩
    refine ⟨fun _ => ⟨_, clean_call.mpr ⟨own, clean_pure _⟩, ?_⟩, fun refused => ?_⟩
    · rw [Printing.puts_eq]
      rfl
    · rw [isPointer] at refused
      exact absurd refused (by simp [vfprintfAccepts])
  simp only [if_neg isPointer]
  rw [vfprintfAccepts_number isChar isCount isString isPointer]
  have ownBase : vfprintfBase d = (Radix.ofChar d).map Radix.base := if_neg isPointer
  cases known : Radix.ofChar d with
  | none =>
      rw [known] at ownBase
      refine ⟨nofun, fun _ p' clean => ?_⟩
      obtain ⟨base, _, own⟩ := (clean_call.mp clean).1
      rw [ownBase] at own
      cases own
  | some r =>
      rw [known] at ownBase
      have left := Printing.setBase_left ({ p with args := more } : Printing) known
      have kept := (Printing.setBase_same ({ p with args := more } : Printing) d).2.1
      have base : (({ p with args := more } : Printing).setBase d).base = some r.base := left.base
      generalize ({ p with args := more } : Printing).setBase d = q at kept base
      refine ⟨fun _ => ⟨q.puts (Libc.itoa arg.value r.base q.ucase),
        clean_call.mpr ⟨⟨r.base, base, ownBase⟩, ?_⟩, ?_⟩, nofun⟩
      · rw [base]
        exact clean_pure _
      · rw [Printing.puts_eq]
        exact kept

theorem vfprintf_converts (start : Nat) :
    Converts Printing.args vfprintfBase vfprintfAccepts (convertCalls start) where
  percent p := ⟨p.put (char '%'), by rw [convertCalls, if_pos rfl]; exact clean_pure _, rfl⟩
  none d p p' notPercent args := by
    simp only [convertCalls, if_neg notPercent, args]
    exact not_clean_undefined p'
  accepted d p arg more notPercent args := (convertCalls_arg notPercent args).1
  refused d p arg more p' notPercent args ok := (convertCalls_arg notPercent args).2 ok p'

/-! ## The conversions of printk -/

theorem Printk.setBase_base (p : Printk) (d : UInt8) :
    ((p.setBase d).base.map Int.ofNat : Option Int) = (printkBase d).or (p.base.map Int.ofNat) ∧
      (p.setBase d).args = p.args := by
  unfold Printk.setBase printkBase
  by_cases isX : d = char 'X' ∨ d = char 'x'
  · rw [if_pos isX, if_pos isX]
    exact ⟨rfl, rfl⟩
  rw [if_neg isX, if_neg isX]
  by_cases isd : d = char 'd'
  · rw [if_pos isd, if_pos isd]
    exact ⟨rfl, rfl⟩
  rw [if_neg isd, if_neg isd]
  by_cases iso : d = char 'o'
  · rw [if_pos iso, if_pos iso]
    exact ⟨rfl, rfl⟩
  rw [if_neg iso, if_neg iso]
  by_cases isb : d = char 'b'
  · rw [if_pos isb, if_pos isb]
    exact ⟨rfl, rfl⟩
  rw [if_neg isb, if_neg isb]
  exact ⟨rfl, rfl⟩

theorem printkAccepts_number {d : UInt8} (notC : d ≠ char 'c') (notS : d ≠ char 's') (arg : Arg) :
    printkAccepts d arg = (printkBase d).isSome := by
  simp only [printkAccepts, List.mem_cons, notC, notS, List.not_mem_nil, false_or, or_false, decide_false,
    Bool.false_and, Bool.or_false]
  unfold printkBase
  grind

theorem printkConvertCalls_arg {d : UInt8} {p : Printk} {arg : Arg} {more : List Arg}
    (notPercent : d ≠ char '%') (args : p.args = arg :: more) :
    (printkAccepts d arg = true → ∃ p', Clean printkBase (printkConvertCalls d p) p' ∧ p'.args = more) ∧
      (printkAccepts d arg = false → ∀ p', ¬ Clean printkBase (printkConvertCalls d p) p') := by
  simp only [printkConvertCalls, if_neg notPercent, args]
  by_cases isString : d = char 's'
  · simp only [if_pos isString]
    have accepts : printkAccepts d arg = arg.isStr := by
      rw [isString]
      cases arg <;> rfl
    rw [accepts]
    cases arg with
    | str a s =>
        refine ⟨fun _ => ⟨_, clean_pure _, ?_⟩, nofun⟩
        rw [Printk.writeString_eq]
    | word n => exact ⟨nofun, fun _ p' => not_clean_undefined p'⟩
    | ref a => exact ⟨nofun, fun _ p' => not_clean_undefined p'⟩
  simp only [if_neg isString]
  by_cases isChar : d = char 'c'
  · simp only [if_pos isChar]
    refine ⟨fun _ => ⟨_, clean_pure _, rfl⟩, fun refused => ?_⟩
    rw [isChar] at refused
    exact absurd refused (by simp [printkAccepts])
  simp only [if_neg isChar]
  rw [printkAccepts_number isChar isString]
  obtain ⟨base, kept⟩ := Printk.setBase_base ({ p with args := more } : Printk) d
  generalize ({ p with args := more } : Printk).setBase d = q at base kept
  cases own : printkBase d with
  | none =>
      refine ⟨nofun, fun _ p' clean => ?_⟩
      obtain ⟨b, _, set⟩ := (clean_call.mp clean).1
      rw [own] at set
      cases set
  | some b =>
      rw [own, Option.some_or] at base
      obtain ⟨n, found, cast⟩ := Option.map_eq_some_iff.mp base
      refine ⟨fun _ => ⟨q.writeString (itoa arg.value n), clean_call.mpr ⟨⟨b, base, own⟩, ?_⟩, ?_⟩, nofun⟩
      · rw [found]
        exact clean_pure _
      · rw [Printk.writeString_eq]
        exact kept

theorem printk_converts : Converts Printk.args printkBase printkAccepts printkConvertCalls where
  percent p := ⟨p.writeSerial (char '%'), by rw [printkConvertCalls, if_pos rfl]; exact clean_pure _, rfl⟩
  none d p p' notPercent args := by
    simp only [printkConvertCalls, if_neg notPercent, args]
    exact not_clean_undefined p'
  accepted d p arg more notPercent args := (printkConvertCalls_arg notPercent args).1
  refused d p arg more p' notPercent args ok := (printkConvertCalls_arg notPercent args).2 ok p'

/-! ## A matched format is a list of directives -/

theorem directive_of_accepts {d : UInt8} {arg : Arg} (ok : vfprintfAccepts d arg = true) :
    ∃ e : Directive, e.format = [char '%', d] ∧ e.args = [arg] := by
  by_cases isChar : d = char 'c'
  · exact ⟨.character arg, by rw [isChar]; rfl, rfl⟩
  by_cases isCount : d = char 'n'
  · rw [isCount] at ok ⊢
    cases arg with
    | ref a => exact ⟨.count a, rfl, rfl⟩
    | word n => cases ok
    | str a s => cases ok
  by_cases isString : d = char 's'
  · rw [isString] at ok ⊢
    cases arg with
    | str a s => exact ⟨.string a s, rfl, rfl⟩
    | word n => cases ok
    | ref a => cases ok
  by_cases isPointer : d = char 'p'
  · exact ⟨.pointer arg, by rw [isPointer]; rfl, rfl⟩
  rw [vfprintfAccepts_number isChar isCount isString isPointer, Option.isSome_iff_exists] at ok
  obtain ⟨r, known⟩ := ok
  exact ⟨.number d r known arg, rfl, rfl⟩

theorem directives_of_matched : ∀ (fmt : List UInt8) (args : List Arg),
    matched vfprintfAccepts fmt args = true →
    ∃ ds lone extra, fmt = formatOf ds lone ∧ args = argsOf ds ++ extra := by
  intro fmt args
  induction fmt, args using matched.induct with
  | case1 args => exact fun _ => ⟨[], false, args, rfl, rfl⟩
  | case2 args => exact fun _ => ⟨[], true, args, rfl, rfl⟩
  | case3 args rest ih =>
      intro ok
      simp only [matched, if_true] at ok
      obtain ⟨ds, lone, extra, rfl, rfl⟩ := ih ok
      exact ⟨.percent :: ds, lone, extra, rfl, rfl⟩
  | case4 d rest notPercent =>
      intro ok
      simp only [matched, if_true, if_neg notPercent] at ok
      cases ok
  | case5 d rest notPercent arg more ih =>
      intro ok
      simp only [matched, if_true, if_neg notPercent, Bool.and_eq_true] at ok
      obtain ⟨e, format, own⟩ := directive_of_accepts ok.1
      obtain ⟨ds, lone, extra, rfl, rfl⟩ := ih ok.2
      refine ⟨e :: ds, lone, extra, ?_, ?_⟩
      · rw [Libc.formatOf_cons, format]
        rfl
      · rw [Libc.argsOf_cons, own]
        rfl
  | case6 c rest args plain ih =>
      intro ok
      have same : matched vfprintfAccepts (c :: rest) args = matched vfprintfAccepts rest args := by
        rw [matched.eq_def]
        simp only [if_neg plain]
      rw [same] at ok
      obtain ⟨ds, lone, extra, rfl, rfl⟩ := ih ok
      exact ⟨.literal c plain :: ds, lone, extra, rfl, rfl⟩

/-! ## The bases are safe -/

theorem numeral_length {ucase : Bool} {base un k : Nat} (two : 1 < base) (some : 0 < k)
    (small : un < base ^ k) : (Libc.numeral ucase base un).length ≤ k := by
  unfold Libc.numeral
  split
  · exact some
  · rw [List.length_map, List.length_reverse, Nat.digits_length_le_iff two]
    exact small

theorem numeral_word {ucase : Bool} {base : Nat} (two : 1 < base) (n : UInt32) :
    (Libc.numeral ucase base n.toNat).length ≤ 32 := by
  apply numeral_length two (by decide)
  calc n.toNat < 2 ^ 32 := n.toNat_lt
    _ ≤ base ^ 32 := Nat.pow_le_pow_left two 32

/-- With its sign a negative number still has room in the buffer of `itoa`. -/
theorem numeral_signed (ucase : Bool) (n : UInt32) :
    (char '-' :: Libc.numeral ucase 10 (-n).toNat).length ≤ 32 := by
  have bits : (-n).toNat < 2 ^ 32 := (-n).toNat_lt
  have short := @numeral_length ucase 10 (-n).toNat 31 (by decide) (by decide) (by omega)
  rw [List.length_cons]
  omega

theorem radix_base_safe (r : Radix) : r.base ∈ [2, 8, 10, -10, 16] ∧
    ∀ n ucase, (Libc.itoa n r.base ucase).length < 33 := by
  have plain : ∀ base : Nat, 1 < base → ∀ n ucase, (Libc.itoa n base ucase).length < 33 := by
    intro base two n ucase
    rw [Libc.itoa_unsigned two]
    exact Nat.lt_succ_of_le (numeral_word two n)
  have signed : ∀ n ucase, (Libc.itoa n (-(10 : Nat)) ucase).length < 33 := by
    intro n ucase
    rw [Libc.itoa_signed (by decide)]
    split
    · exact Nat.lt_succ_of_le (numeral_word (by decide) n)
    · exact Nat.lt_succ_of_le (numeral_signed ucase n)
  cases r with
  | upperHex => exact ⟨by decide, plain 16 (by decide)⟩
  | lowerHex => exact ⟨by decide, plain 16 (by decide)⟩
  | decimal => exact ⟨by decide, plain 10 (by decide)⟩
  | signed => exact ⟨by decide, signed⟩
  | octal => exact ⟨by decide, plain 8 (by decide)⟩
  | binary => exact ⟨by decide, plain 2 (by decide)⟩

/-! ## Safe formats -/

/-- Whatever the stream, there is one result for every value `ucase` may have at first, and
every call of `itoa` has the base of its own conversion. -/
def VfprintfSafe (fmt : List UInt8) (args : List Arg) : Prop :=
  ∀ f, ∃ r, ∀ ucase, Clean vfprintfBase (vfprintfCalls f fmt args ucase) r

def PrintkSafe (fmt : List UInt8) (args : List Arg) : Prop :=
  ∃ out, Clean printkBase (printkCalls fmt args) out

theorem vfprintfSafe_iff (fmt : List UInt8) (args : List Arg) :
    VfprintfSafe fmt args ↔ matched vfprintfAccepts fmt args = true := by
  have loop : ∀ f ucase, (∃ r, Clean vfprintfBase (vfprintfCalls f fmt args ucase) r) ↔
      matched vfprintfAccepts fmt args = true := by
    intro f ucase
    have inner := @formatLoop_clean_iff Printing vfprintfBase Printing.args vfprintfAccepts
      (fun c p => p.put c) (fun p => p.put (char '%')) (convertCalls f.ptr) (vfprintf_converts f.ptr)
      (fun _ _ => rfl) fmt ⟨f, args, none, ucase, []⟩
    rw [← inner]
    exact clean_read
  constructor
  · intro safe
    obtain ⟨r, all⟩ := safe ⟨0, 0, 0, fun _ => 0, [], []⟩
    exact (loop _ false).mp ⟨r, all false⟩
  · intro ok f
    obtain ⟨ds, lone, extra, rfl, rfl⟩ := directives_of_matched fmt args ok
    refine ⟨(f.ptr + (render ds lone).length - f.buf, fflush (f.puts (render ds lone)), Libc.storesOf 0 ds),
      fun ucase => ?_⟩
    obtain ⟨r, clean⟩ := (loop f ucase).mpr ok
    have value := vfprintfCalls_result f (formatOf ds lone) (argsOf ds ++ extra) ucase
    rw [Libc.vfprintf_directives, clean.1] at value
    cases value
    exact clean

theorem printkSafe_iff (fmt : List UInt8) (args : List Arg) :
    PrintkSafe fmt args ↔ matched printkAccepts fmt args = true := by
  have inner := @formatLoop_clean_iff Printk printkBase Printk.args printkAccepts
    (fun c p => p.writeSerial c) id printkConvertCalls printk_converts (fun _ _ => rfl) fmt ⟨[], args, none⟩
  rw [← inner]
  exact clean_read

theorem vfprintfBase_safe {d : UInt8} {base : Int} (own : vfprintfBase d = some base) :
    base ∈ [2, 8, 10, -10, 16] ∧ ∀ n ucase, (Libc.itoa n base ucase).length < 33 := by
  unfold vfprintfBase at own
  split at own
  · cases own
    exact radix_base_safe .lowerHex
  · obtain ⟨r, _, rfl⟩ := Option.map_eq_some_iff.mp own
    exact radix_base_safe r

theorem printkBase_safe {d : UInt8} {base : Int} (own : printkBase d = some base) :
    base ∈ [2, 8, 10, 16] ∧ ∀ n, (itoa n base.toNat).length < 33 := by
  have fits : ∀ base : Nat, 1 < base → ∀ n, (itoa n base).length < 33 := by
    intro base two n
    rw [itoa_eq two]
    split
    · rename_i signed
      rw [signed.2]
      exact Nat.lt_succ_of_le (numeral_signed false n)
    · exact Nat.lt_succ_of_le (numeral_word two n)
  unfold printkBase at own
  split at own
  · cases own
    exact ⟨by decide, fits 16 (by decide)⟩
  split at own
  · cases own
    exact ⟨by decide, fits 10 (by decide)⟩
  split at own
  · cases own
    exact ⟨by decide, fits 8 (by decide)⟩
  split at own
  · cases own
    exact ⟨by decide, fits 2 (by decide)⟩
  · cases own

/-- Each of the two functions is safe exactly on the formats whose conversions it knows and
whose arguments match; the bases that are set then are those of the digit table, and the
numeral leaves room for its NUL in the 33 bytes of `itoa`. -/
theorem formats_safe_iff (fmt : List UInt8) (args : List Arg) :
    (VfprintfSafe fmt args ↔ matched vfprintfAccepts fmt args = true) ∧
    (PrintkSafe fmt args ↔ matched printkAccepts fmt args = true) ∧
    (∀ d base, vfprintfBase d = some base →
      base ∈ [2, 8, 10, -10, 16] ∧ ∀ n ucase, (Libc.itoa n base ucase).length < 33) ∧
    (∀ d base, printkBase d = some base →
      base ∈ [2, 8, 10, 16] ∧ ∀ n, (itoa n base.toNat).length < 33) :=
  ⟨vfprintfSafe_iff fmt args, printkSafe_iff fmt args, fun _ _ own => vfprintfBase_safe own,
    fun _ _ own => printkBase_safe own⟩

/-- The kernel prints `%u` in the base of the conversion before it. -/
example : printk [char '%', char 'x', char '%', char 'u'] [.word 10, .word 10] =
    some [char 'a', char 'a'] := by decide

/-- `%5d`: the character `5` is no conversion, and no base is set. -/
theorem width_not_safe : ¬ ∀ fmt args, PrintkSafe fmt args ∧ VfprintfSafe fmt args := by
  intro all
  have refused : matched vfprintfAccepts [char '%', char '5', char 'd'] [.word 7] = false := by decide
  have safe := (vfprintfSafe_iff _ _).mp (all [char '%', char '5', char 'd'] [.word 7]).2
  rw [refused] at safe
  cases safe

end Trunix
