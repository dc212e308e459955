import Trunix.Drivers.Text
import Trunix.Drivers.Pixels
import Trunix.Libc.Streams
import Mathlib

/-!
# Programs that print

Processes print with `stdio` on the console they share.  What a call of `stdio` passes to
`_write` are system calls of their own, and between two of them any other process may run.
A child begins with the streams of its parent, a new program with empty ones, and a process
that exits does not flush.  Whatever the interleaving, the console gets the blocks of every
stream in their order, and the framebuffer shows the text that all the blocks make.
-/

set_option autoImplicit false

namespace Trunix

open Trunix.Lib Trunix.Libc

/-- The processes by their numbers.  `unsent` are the calls of `_write` that a process has to
make before it goes on. -/
structure Terminal where
  alive : List Nat
  pid : Nat
  streams : Nat → Std → Libc.File
  unsent : Nat → List (Std × List UInt8)
  screen : Screen

inductive TerminalStep where
  /-- a call of `stdio` up to its first system call -/
  | print (p : Nat) (c : StdCall)
  /-- the next call of `_write` -/
  | send (p : Nat)
  | fork (p : Nat)
  /-- a program with its own streams -/
  | execve (p out err : Nat) (mem : Mem)
  | exit (p : Nat)

/-- The blocks that a stream got since `f`. -/
def blocksSince (f f' : Libc.File) : List (List UInt8) := f'.written.drop f.written.length

def Terminal.step (font : Font) (fb : Fbdev) (t : Terminal) : TerminalStep → Except Halt Terminal
  | .print p c =>
      match c.run (t.streams p) with
      | none => .error .fault
      | some σ =>
          let blocks := blocksSince (t.streams p c.stream) (σ c.stream)
          .ok { t with
            streams := Function.update t.streams p σ
            unsent := Function.update t.unsent p (blocks.map (c.stream, ·)) }
  | .send p =>
      match t.unsent p with
      | [] => .error .fault
      | (_, block) :: rest => do
          let screen ← t.screen.write font fb ⟨true, block⟩
          return { t with unsent := Function.update t.unsent p rest, screen := screen }
  | .fork p =>
      .ok { t with
        alive := t.pid :: t.alive
        pid := t.pid + 1
        streams := Function.update t.streams t.pid (t.streams p) }
  | .execve p out err mem => .ok { t with streams := Function.update t.streams p (stdStreams out err mem) }
  | .exit p => .ok { t with alive := t.alive.erase p }

/-- A process makes the calls of `_write` before it goes on, and what it prints fits in its
buffers. -/
def Terminal.Allowed (t : Terminal) : TerminalStep → Prop
  | .print p c => p ∈ t.alive ∧ t.unsent p = [] ∧ c.call.Fits (t.streams p c.stream)
  | .send p => p ∈ t.alive ∧ t.unsent p ≠ []
  | .fork p => p ∈ t.alive ∧ t.unsent p = []
  | .execve p _ _ _ => p ∈ t.alive ∧ t.unsent p = []
  | .exit p => p ∈ t.alive ∧ t.unsent p = []

def Terminal.start (out err : Nat) (mem : Mem) : Terminal :=
  ⟨[1], 2, fun _ => stdStreams out err mem, fun _ => [], .boot⟩

/-! ## What was printed -/

def bytesOf (s : Std) (blocks : List (Std × List UInt8)) : List UInt8 :=
  ((blocks.filter fun b => decide (b.1 = s)).map Prod.snd).flatten

/-- A terminal with a record: the blocks that were written, and what every program printed
since it began.  A child has printed what it found in its buffers. -/
structure Typescript where
  terminal : Terminal
  sent : List (Nat × Std × List UInt8)
  said : Nat → Std → List UInt8

def Typescript.sentBy (t : Typescript) (p : Nat) : List (Std × List UInt8) :=
  (t.sent.filter fun b => decide (b.1 = p)).map Prod.snd

def Typescript.bytes (t : Typescript) : List UInt8 := (t.sent.map fun b => b.2.2).flatten

def Typescript.step (font : Font) (fb : Fbdev) (t : Typescript) (e : TerminalStep) :
    Except Halt Typescript := do
  let terminal ← t.terminal.step font fb e
  return match e with
    | .print p c => ⟨terminal, t.sent, Function.update t.said p
        (Function.update (t.said p) c.stream (t.said p c.stream ++ c.call.output.getD []))⟩
    | .send p => ⟨terminal, t.sent ++ ((t.terminal.unsent p).take 1).map (p, ·), t.said⟩
    | .fork p => ⟨terminal, t.sent, Function.update t.said t.terminal.pid
        fun s => (t.terminal.streams p s).pending⟩
    | .execve p _ _ _ => ⟨terminal, t.sent, Function.update t.said p fun s => bytesOf s (t.sentBy p)⟩
    | .exit _ => ⟨terminal, t.sent, t.said⟩

def Typescript.start (out err : Nat) (mem : Mem) : Typescript := ⟨.start out err mem, [], fun _ _ => []⟩

def Typescript.Reached (font : Font) (fb : Fbdev) (out err : Nat) (mem : Mem) (t : Typescript) : Prop :=
  Runs (Typescript.step font fb) (fun t e => t.terminal.Allowed e) (.start out err mem) t

/-- Nothing is lost between a program and the console, and nothing comes twice. -/
structure Typescript.InOrder (font : Font) (fb : Fbdev) (t : Typescript) : Prop where
  ok : ∀ p s, (t.terminal.streams p s).Ok
  told : ∀ p s, bytesOf s (t.sentBy p) ++ bytesOf s (t.terminal.unsent p) ++
    (t.terminal.streams p s).pending = t.said p s
  unborn : ∀ p, t.terminal.pid ≤ p → p ∉ t.terminal.alive ∧ t.terminal.unsent p = [] ∧ t.sentBy p = []
  screen : t.terminal.screen = ⟨(fbconCells fb ⟨0, 0⟩ t.bytes).1,
    (fbconCells fb ⟨0, 0⟩ t.bytes).2.flatMap (Drawn.accesses font fb)⟩

@[simp] theorem bytesOf_nil (s : Std) : bytesOf s [] = [] := rfl

theorem bytesOf_append (s : Std) (blocks more : List (Std × List UInt8)) :
    bytesOf s (blocks ++ more) = bytesOf s blocks ++ bytesOf s more := by
  rw [bytesOf, List.filter_append, List.map_append, List.flatten_append]
  rfl

theorem bytesOf_same (s : Std) (blocks : List (List UInt8)) :
    bytesOf s (blocks.map (s, ·)) = blocks.flatten := by
  have all : (blocks.map (s, ·)).filter (fun b => decide (b.1 = s)) = blocks.map (s, ·) := by
    rw [List.filter_eq_self]
    intro b mem
    obtain ⟨block, _, rfl⟩ := List.mem_map.mp mem
    exact decide_eq_true rfl
  rw [bytesOf, all, List.map_map]
  exact congrArg List.flatten (List.map_id _)

theorem bytesOf_other {s s' : Std} (other : s' ≠ s) (blocks : List (List UInt8)) :
    bytesOf s (blocks.map (s', ·)) = [] := by
  have none : (blocks.map (s', ·)).filter (fun b => decide (b.1 = s)) = [] := by
    rw [List.filter_eq_nil_iff]
    intro b mem
    obtain ⟨block, _, rfl⟩ := List.mem_map.mp mem
    exact fun same => other (of_decide_eq_true same)
  rw [bytesOf, none]
  rfl

/-! ## The calls of `stdio` -/

theorem stdStreams_ok (out err : Nat) (mem : Mem) (s : Std) : (stdStreams out err mem s).Ok := by
  cases s with
  | stdout => exact ⟨Nat.le_refl _, Nat.le_add_right _ _⟩
  | stderr => exact ⟨Nat.le_refl _, Nat.le_refl _⟩

theorem stdStreams_pending (out err : Nat) (mem : Mem) (s : Std) :
    (stdStreams out err mem s).pending = [] := by
  cases s with
  | stdout => exact Libc.File.pending_nil rfl
  | stderr => exact Libc.File.pending_nil rfl

theorem Libc.Call.run_written {f f' : Libc.File} {c : Libc.Call} (done : c.run f = some f') :
    f.written <+: f'.written := by
  cases c with
  | fputc c =>
      cases done
      unfold Libc.fputc
      split
      · exact List.prefix_refl _
      · exact (List.prefix_append _ _).trans (List.prefix_append _ _)
  | fflush =>
      cases done
      exact List.prefix_append _ _
  | vfprintf fmt args ucase =>
      have spec := vfprintf_spec f fmt args ucase
      rw [Libc.Call.run] at done
      rw [done] at spec
      obtain ⟨out, _, same⟩ := Option.map_eq_some_iff.mp spec.symm
      rw [← same]
      have stored := Libc.File.stored out f
      change f.written <+: (f.puts out).written ++ _
      rw [stored.written]
      exact List.prefix_append _ _

/-- A call on one stream: what it hands over and what it keeps. -/
theorem Libc.StdCall.run_spec {σ : Std → Libc.File} {c : StdCall} (ok : ∀ s, (σ s).Ok)
    (fits : c.call.Fits (σ c.stream)) :
    ∃ σ', c.run σ = some σ' ∧ (∀ s, (σ' s).Ok) ∧ (∀ s, s ≠ c.stream → σ' s = σ s) ∧
      (blocksSince (σ c.stream) (σ' c.stream)).flatten ++ (σ' c.stream).pending =
        (σ c.stream).pending ++ c.call.output.getD [] := by
  obtain ⟨f', out, run, output, appended⟩ := Libc.Call.run_spec (ok c.stream) fits
  refine ⟨Function.update σ c.stream f', by rw [StdCall.run, run]; rfl, fun s => ?_, fun s other => ?_, ?_⟩
  · by_cases same : s = c.stream
    · rw [same, Function.update_self]
      exact appended.ok
    · rw [Function.update_of_ne same]
      exact ok s
  · exact Function.update_of_ne other _ _
  · obtain ⟨new, written⟩ := Libc.Call.run_written run
    have content := appended.content
    rw [Libc.File.content, Libc.File.content, ← written, List.flatten_append, List.append_assoc,
      List.append_assoc, List.append_cancel_left_eq] at content
    rw [Function.update_self, blocksSince, ← written, List.drop_left, output]
    exact content

/-! ## One step -/

section Step

variable {font : Font} {fb : Fbdev}

theorem Typescript.sentBy_snoc (t : Typescript) (terminal : Terminal) (said : Nat → Std → List UInt8)
    (p q : Nat) (b : Std × List UInt8) :
    (Typescript.mk terminal (t.sent ++ [(p, b)]) said).sentBy q =
      if q = p then t.sentBy q ++ [b] else t.sentBy q := by
  unfold Typescript.sentBy
  rw [List.filter_append, List.map_append]
  split
  · rename_i same
    rw [List.filter_singleton, decide_eq_true same.symm]
    rfl
  · rename_i other
    rw [List.filter_singleton, decide_eq_false (Ne.symm other)]
    exact List.append_nil _

theorem Typescript.InOrder.print {t t' : Typescript} (h : t.InOrder font fb) {p : Nat} {c : StdCall}
    (ok : t.terminal.Allowed (.print p c)) (done : t.step font fb (.print p c) = .ok t') :
    t'.InOrder font fb := by
  obtain ⟨alive, quiet, fits⟩ := ok
  obtain ⟨σ, run, oks, others, content⟩ := Libc.StdCall.run_spec (h.ok p) fits
  have born : p < t.terminal.pid := by
    by_contra late
    exact (h.unborn p (Nat.le_of_not_lt late)).1 alive
  rw [Typescript.step, Terminal.step, run] at done
  cases done
  refine ⟨fun q s => ?_, fun q s => ?_, fun q late => ?_, h.screen⟩
  · by_cases same : q = p
    · subst same
      simp only [Function.update_self]
      exact oks s
    · simp only [Function.update_of_ne same]
      exact h.ok q s
  · by_cases same : q = p
    · subst same
      have told := h.told q s
      rw [quiet, bytesOf_nil, List.append_nil] at told
      simp only [Function.update_self]
      change bytesOf s (t.sentBy q) ++ _ ++ _ = _
      by_cases stream : s = c.stream
      · subst stream
        rw [bytesOf_same, List.append_assoc, content, ← List.append_assoc, told, Function.update_self]
      · rw [bytesOf_other (Ne.symm stream), others s stream, Function.update_of_ne stream, List.append_nil,
          told]
    · simp only [Function.update_of_ne same]
      exact h.told q s
  · have other : q ≠ p := Nat.ne_of_gt (Nat.lt_of_lt_of_le born late)
    simp only [Function.update_of_ne other]
    exact h.unborn q late

theorem Typescript.InOrder.send {t t' : Typescript} (h : t.InOrder font fb) {p : Nat}
    (ok : t.terminal.Allowed (.send p)) (done : t.step font fb (.send p) = .ok t') :
    t'.InOrder font fb := by
  obtain ⟨alive, some⟩ := ok
  have born : p < t.terminal.pid := by
    by_contra late
    exact (h.unborn p (Nat.le_of_not_lt late)).1 alive
  obtain ⟨⟨stream, block⟩, rest, blocks⟩ := List.exists_cons_of_ne_nil some
  have write : t.terminal.screen.write font fb ⟨true, block⟩ =
      .ok ⟨(fbconCells fb ⟨0, 0⟩ (t.bytes ++ block)).1,
        (fbconCells fb ⟨0, 0⟩ (t.bytes ++ block)).2.flatMap (Drawn.accesses font fb)⟩ := by
    rw [h.screen]
    unfold Screen.write fbconWrite
    simp only [if_true, fbconBytes_cells, fbconCells_append, List.flatMap_append]
  simp only [Typescript.step, Terminal.step, blocks, write, ok_bind, List.take_succ_cons, List.take_zero,
    List.map_cons, List.map_nil] at done
  cases done
  refine ⟨h.ok, fun q s => ?_, fun q late => ?_, ?_⟩
  · have told := h.told q s
    rw [Typescript.sentBy_snoc]
    by_cases same : q = p
    · subst same
      rw [blocks] at told
      simp only [Function.update_self, if_true]
      have head : bytesOf s ((stream, block) :: rest) = bytesOf s [(stream, block)] ++ bytesOf s rest :=
        bytesOf_append s [(stream, block)] rest
      rw [head, ← List.append_assoc] at told
      rw [bytesOf_append]
      exact told
    · simp only [Function.update_of_ne same, if_neg same]
      exact told
  · have other : q ≠ p := Nat.ne_of_gt (Nat.lt_of_lt_of_le born late)
    rw [Typescript.sentBy_snoc]
    simp only [Function.update_of_ne other, if_neg other]
    exact h.unborn q late
  · have bytes : (Typescript.mk t.terminal (t.sent ++ [(p, stream, block)]) t.said).bytes =
        t.bytes ++ block := by
      simp only [Typescript.bytes, List.map_append, List.flatten_append, List.map_cons, List.map_nil,
        List.flatten_cons, List.flatten_nil, List.append_nil]
    rw [← bytes]
    rfl

theorem Typescript.InOrder.fork {t t' : Typescript} (h : t.InOrder font fb) {p : Nat}
    (done : t.step font fb (.fork p) = .ok t') : t'.InOrder font fb := by
  rw [Typescript.step, Terminal.step] at done
  cases done
  obtain ⟨_, noBlocks, noneSent⟩ := h.unborn t.terminal.pid (Nat.le_refl _)
  refine ⟨fun q s => ?_, fun q s => ?_, fun q late => ?_, h.screen⟩
  · by_cases same : q = t.terminal.pid
    · subst same
      simp only [Function.update_self]
      exact h.ok p s
    · simp only [Function.update_of_ne same]
      exact h.ok q s
  · by_cases same : q = t.terminal.pid
    · subst same
      simp only [Function.update_self, noBlocks]
      change bytesOf s (t.sentBy t.terminal.pid) ++ _ ++ _ = _
      rw [noneSent]
      rfl
    · simp only [Function.update_of_ne same]
      exact h.told q s
  · have later : t.terminal.pid < q := late
    obtain ⟨dead, rest⟩ := h.unborn q (Nat.le_of_lt later)
    refine ⟨?_, rest⟩
    intro mem
    rcases List.mem_cons.mp mem with same | old
    · exact absurd same (Nat.ne_of_gt later)
    · exact dead old

theorem Typescript.InOrder.execve {t t' : Typescript} (h : t.InOrder font fb) {p out err : Nat} {mem : Mem}
    (ok : t.terminal.Allowed (.execve p out err mem))
    (done : t.step font fb (.execve p out err mem) = .ok t') : t'.InOrder font fb := by
  obtain ⟨alive, quiet⟩ := ok
  rw [Typescript.step, Terminal.step] at done
  cases done
  refine ⟨fun q s => ?_, fun q s => ?_, h.unborn, h.screen⟩
  · by_cases same : q = p
    · subst same
      simp only [Function.update_self]
      exact stdStreams_ok out err mem s
    · simp only [Function.update_of_ne same]
      exact h.ok q s
  · by_cases same : q = p
    · subst same
      simp only [Function.update_self, quiet, bytesOf_nil, List.append_nil]
      change bytesOf s (t.sentBy q) ++ _ = _
      rw [stdStreams_pending, List.append_nil]
    · simp only [Function.update_of_ne same]
      exact h.told q s

theorem Typescript.InOrder.step {t t' : Typescript} (h : t.InOrder font fb) {e : TerminalStep}
    (ok : t.terminal.Allowed e) (done : t.step font fb e = .ok t') : t'.InOrder font fb := by
  cases e with
  | print p c => exact h.print ok done
  | send p => exact h.send ok done
  | fork p => exact h.fork done
  | execve p out err mem => exact h.execve ok done
  | exit p =>
      cases done
      refine ⟨h.ok, h.told, fun q late => ?_, h.screen⟩
      obtain ⟨dead, rest⟩ := h.unborn q late
      exact ⟨fun mem => dead (List.mem_of_mem_erase mem), rest⟩

theorem Typescript.start_inOrder (out err : Nat) (mem : Mem) :
    (Typescript.start out err mem).InOrder font fb := by
  refine ⟨fun _ s => stdStreams_ok out err mem s, fun _ s => ?_, fun p late => ?_, rfl⟩
  · exact stdStreams_pending out err mem s
  · refine ⟨?_, rfl, rfl⟩
    intro alive
    have first : p = 1 := List.mem_singleton.mp alive
    have two : 2 ≤ p := late
    omega

theorem Typescript.Reached.inOrder {out err : Nat} {mem : Mem} {t : Typescript}
    (h : Typescript.Reached font fb out err mem t) : t.InOrder font fb :=
  h.invariant (Typescript.InOrder font fb) (Typescript.start_inOrder out err mem)
    fun _ _ _ inv ok done => inv.step ok done

end Step

/-! ## The pixels -/

theorem LinesFit.columns {cols : Nat} : ∀ {buf : List UInt8} {c : Cursor}, LinesFit cols c.x buf →
    ∀ d ∈ text cols c buf, d.1.x < cols := by
  intro buf
  induction buf with
  | nil => intro c _ d mem; cases mem
  | cons b rest ih =>
      intro c fit d mem
      rw [LinesFit] at fit
      by_cases newline : b = 10
      · rw [if_pos newline] at fit
        rw [text, textByte, if_pos newline] at mem
        exact @ih ⟨0, c.y + 1⟩ fit d mem
      · rw [if_neg newline] at fit
        by_cases back : b = 8 ∧ 0 < c.x
        · rw [if_pos back] at fit
          rw [text, textByte, if_neg newline, if_pos back] at mem
          exact @ih ⟨c.x - 1, c.y⟩ fit d mem
        · rw [if_neg back] at fit
          have here : c.place cols = c := if_pos fit.1
          rw [text_drawn (not_or.mpr ⟨newline, back⟩), here] at mem
          rcases List.mem_cons.mp mem with first | later
          · rw [first]
            exact fit.1
          · exact @ih ⟨c.x + 1, c.y⟩ fit.2 d later

theorem storesOf_append : ∀ l l' : List Access, storesOf (l ++ l') = storesOf l ++ storesOf l' := by
  intro l l'
  induction l with
  | nil => rfl
  | cons a rest ih =>
      cases a with
      | font c y => exact ih
      | pixel addr value => exact congrArg (_ :: ·) ih

theorem storesOf_flatMap {α : Type} (f : α → List Access) : ∀ l : List α,
    storesOf (l.flatMap f) = l.flatMap fun a => storesOf (f a) := by
  intro l
  induction l with
  | nil => rfl
  | cons a rest ih => rw [List.flatMap_cons, storesOf_append, ih, List.flatMap_cons]

section Pixels

variable {fb : Fbdev} (deep : fb.Deep)
include deep

theorem cells_canvas (font : Font) : Canvas (fun c : Cursor => fb.HasCell c.x c.y)
    fun d : Drawn => storesOf (Drawn.accesses font fb d) := by
  refine ⟨fun cell b b' _ => ?_, fun cell cell' b b' on on' differ => ?_⟩
  · have part : ∀ b b' x, x ∈ storedBytes (storesOf (Drawn.accesses font fb (cell, b))) →
        x ∈ storedBytes (storesOf (Drawn.accesses font fb (cell, b'))) := by
      rintro b b' x ⟨s, mem, lo, hi⟩
      obtain ⟨px, py, inside, rfl⟩ := mem_cell_stores.mp mem
      exact ⟨cellStore font fb cell.x cell.y (charOf b') px py,
        mem_cell_stores.mpr ⟨px, py, inside, rfl⟩, lo, hi⟩
    exact Set.ext fun x => ⟨part b b' x, part b' b x⟩
  · have other : ¬ (cell.x = cell'.x ∧ cell.y = cell'.y) := by
      intro same
      apply differ
      cases cell
      cases cell'
      cases same.1
      cases same.2
      rfl
    exact cells_apart deep font on on' other _ _

theorem Fbdev.Deep.hasCell {c : Cursor} (col : c.x < fb.cols) (row : (c.y + 1) * cellH ≤ fb.height) :
    fb.HasCell c.x c.y ∧ fb.Fits c.x c.y := by
  have right : (c.x + 1) * cellW ≤ fb.width := Nat.mul_le_of_le_div cellW (c.x + 1) fb.width col
  have wide : fb.width * (fb.bpp / 8) ≤ fb.pitch := by
    have pitch := deep.pitch
    rw [deep.bpp]
    omega
  have rows : c.y < fb.height / cellH := (Nat.le_div_iff_mul_le (by decide)).mpr row
  have bits : 8 ≤ fb.bpp := by rw [deep.bpp]; decide
  exact ⟨⟨right, row⟩, Fbdev.fits_of_grid deep.space wide bits col rows⟩

end Pixels

/-- The first process writes a letter to `stderr`, puts one in the buffer of `stdout`, and forks. -/
theorem small_typescript (font : Font) : ∃ t,
    Typescript.Reached font smallFb 16 2048 (fun _ => 0) t ∧ t.bytes = [104] ∧
      t.terminal.alive = [2, 1] ∧ bytesOf .stderr (t.sentBy 1) = [104] ∧
      (t.terminal.streams 2 .stdout).pending = [105] := by
  have begin : Typescript.Reached font smallFb 16 2048 (fun _ => 0) _ := .refl
  have printed := begin.snoc (TerminalStep.print 1 (.fputc 104 .stderr))
    (by exact ⟨List.mem_singleton_self 1, rfl, trivial⟩) rfl
  have first := printed.snoc (TerminalStep.send 1)
    (by exact ⟨List.mem_singleton_self 1, List.cons_ne_nil _ _⟩) rfl
  have second := first.snoc (TerminalStep.send 1)
    (by exact ⟨List.mem_singleton_self 1, List.cons_ne_nil _ _⟩) rfl
  have put := second.snoc (TerminalStep.print 1 (.fputc 105 .stdout))
    (by exact ⟨List.mem_singleton_self 1, rfl, trivial⟩) rfl
  have forked := put.snoc (TerminalStep.fork 1) (by exact ⟨List.mem_singleton_self 1, rfl⟩) rfl
  exact ⟨_, forked, rfl, rfl, rfl, rfl⟩

/-- Behind every run whose text fits the screen, every cell shows the last byte that the text
has there, a cell without one and all other memory are as they were, and the driver read
in its font and wrote in its framebuffer only. -/
theorem terminal_pixels {font : Font} {fb : Fbdev} {out err : Nat} {mem : Mem} {t : Typescript}
    (reached : Typescript.Reached font fb out err mem t) (deep : fb.Deep) (fit : LinesFit fb.cols 0 t.bytes)
    (rows : ∀ d ∈ text fb.cols ⟨0, 0⟩ t.bytes, (d.1.y + 1) * cellH ≤ fb.height ∧ d.2.toNat < glyphs)
    (m : Mem) :
    (∀ a ∈ t.terminal.screen.accesses, a.Inside fb) ∧
    (∀ cell : Cursor, fb.HasCell cell.x cell.y → ∀ x y, InCell cell.x cell.y x y →
      load32 (storeAll (storesOf t.terminal.screen.accesses) m) (fb.coord x y) =
        (lastAt cell (text fb.cols ⟨0, 0⟩ t.bytes)).elim (load32 m (fb.coord x y)) fun b =>
          if (font b.toNat ((y - cell.y * cellH) / scale)).testBit (7 - (x - cell.x * cellW) / scale)
          then 0xFFFFFFFF else 0) ∧
    (∀ a, (∀ cell : Cursor, fb.HasCell cell.x cell.y → ∀ x y, InCell cell.x cell.y x y →
        a < fb.coord x y ∨ fb.coord x y + 4 ≤ a) →
      storeAll (storesOf t.terminal.screen.accesses) m a = m a) := by
  have drawn : t.terminal.screen.accesses =
      (text fb.cols ⟨0, 0⟩ t.bytes).flatMap (Drawn.accesses font fb) := by
    rw [reached.inOrder.screen, (@fbconCells_text_iff fb t.bytes ⟨0, 0⟩ (Nat.zero_le _)).mpr fit]
  have cells : ∀ d ∈ text fb.cols ⟨0, 0⟩ t.bytes, fb.HasCell d.1.x d.1.y ∧ fb.Fits d.1.x d.1.y :=
    fun d mem => deep.hasCell (fit.columns d mem) (rows d mem).1
  have canvas := cells_canvas deep font
  rw [drawn, storesOf_flatMap]
  refine ⟨fun a mem => ?_, fun cell on x y inside => ?_, fun a out => ?_⟩
  · obtain ⟨d, inText, access⟩ := List.mem_flatMap.mp mem
    have glyph := (rows d inText).2
    rw [Drawn.accesses, charOf_of_lt glyph] at access
    exact (cells d inText).2.inside (Int.natCast_nonneg _) (Int.ofNat_lt.mpr glyph) a access
  · have area : ∀ b, ∀ a, fb.coord x y ≤ a → a < fb.coord x y + 4 →
        a ∈ storedBytes (storesOf (Drawn.accesses font fb (cell, b))) := fun b a lo hi =>
      ⟨cellStore font fb cell.x cell.y (charOf b) x y, mem_cell_stores.mpr ⟨x, y, inside, rfl⟩, lo, hi⟩
    have last := fun a lo hi => canvas.last on 0 _ (fun d mem => (cells d mem).1) m a (area 0 a lo hi)
    cases found : lastAt cell (text fb.cols ⟨0, 0⟩ t.bytes) with
    | none =>
        simp only [found, Option.elim_none] at last
        exact load32_congr last
    | some b =>
        simp only [found, Option.elim_some] at last
        have glyph : b.toNat < glyphs := (rows (cell, b) (lastAt_mem found)).2
        have word := (cell_coherent deep font on (charOf b)).load_eq m
          (mem_cell_stores.mpr ⟨x, y, inside, rfl⟩)
        have col : (x - cell.x * cellW) / scale < fontW := by
          simp only [InCell, cellW, fontW, scale] at inside ⊢
          omega
        simp only [cellStore, dot_eq _ col, charOf_of_lt glyph] at word
        rw [load32_congr last, Option.elim_some]
        simp only [Drawn.accesses, charOf_of_lt glyph]
        rw [word]
        split <;> rfl
  · apply strokes_frame
    rintro d mem ⟨s, store, lo, hi⟩
    obtain ⟨x, y, inside, rfl⟩ := mem_cell_stores.mp store
    have away := out d.1 (cells d mem).1 x y inside
    simp only [cellStore] at lo hi
    omega

/-- The top left corner of the letter, and the memory in front of the framebuffer. -/
theorem terminal_pixels_fork : ∃ t : Typescript, t.bytes = [104] ∧
    load32 (storeAll (storesOf t.terminal.screen.accesses) fun _ => 0) (smallFb.coord 0 0) = 0xFFFFFFFF ∧
    storeAll (storesOf t.terminal.screen.accesses) (fun _ => 0) 0x1000 = 0 := by
  obtain ⟨t, reached, bytes, _⟩ := small_typescript fun _ _ => 255
  have fit : LinesFit smallFb.cols 0 t.bytes := by
    rw [bytes]
    simp only [LinesFit]
    decide
  have one : text smallFb.cols ⟨0, 0⟩ t.bytes = [(⟨0, 0⟩, 104)] := by
    rw [bytes]
    decide
  have rows : ∀ d ∈ text smallFb.cols ⟨0, 0⟩ t.bytes,
      (d.1.y + 1) * cellH ≤ smallFb.height ∧ d.2.toNat < glyphs := by
    rw [one]
    decide
  obtain ⟨_, cells, others⟩ := terminal_pixels reached smallFb_deep fit rows fun _ => 0
  refine ⟨t, bytes, ?_, others 0x1000 ?_⟩
  · have corner := cells ⟨0, 0⟩ ⟨by decide, by decide⟩ 0 0 ⟨⟨by decide, by decide⟩, by decide, by decide⟩
    rw [one] at corner
    exact corner
  · intro cell on x y inside
    have screen := inside.onScreen on
    obtain ⟨coord, _⟩ := coord_eq smallFb_deep screen.1 screen.2
    rw [coord]
    have addr : smallFb.addr = 0xFD000000 := rfl
    omega

end Trunix
