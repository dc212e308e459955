import Trunix.Kernel.Switch

/-!
# Suspended stacks

A process that does not run has everything it needs to go on in its own stack page: the
words of the trap frame, the frames of the functions it is in, and the context of
`switch_to`.  Whoever switches to the context gets back to user mode along the same
frames.
-/

set_option autoImplicit false

namespace Trunix

open Trunix.Lib

/-! ## Words on a stack -/

def Holds (w : Words) : Nat → List Nat → Prop
  | _, [] => True
  | a, v :: L => w a = v ∧ Holds w (a + 4) L

theorem Holds.congr {w w' : Words} {L : List Nat} {a : Nat} (h : Holds w a L)
    (same : ∀ x, a ≤ x → x < a + 4 * L.length → w' x = w x) : Holds w' a L := by
  induction L generalizing a with
  | nil => trivial
  | cons v L ih =>
      simp only [List.length_cons] at same
      refine ⟨(same a (Nat.le_refl _) (by omega)).trans h.1, ih h.2 fun x lo hi => same x (by omega) (by omega)⟩

theorem Holds.append {w : Words} {L L' : List Nat} {a : Nat} :
    Holds w a (L ++ L') ↔ Holds w a L ∧ Holds w (a + 4 * L.length) L' := by
  induction L generalizing a with
  | nil => simp [Holds]
  | cons v L ih =>
      have next : a + 4 + 4 * L.length = a + 4 * (v :: L).length := by
        simp only [List.length_cons]
        omega
      rw [List.cons_append, Holds, Holds, ih, next, and_assoc]

theorem Holds.set {w : Words} {L : List Nat} {a i : Nat} (h : Holds w a L) (lt : i < L.length) (v : Nat) :
    Holds (Function.update w (a + 4 * i) v) a (L.set i v) := by
  induction L generalizing a i with
  | nil => exact absurd lt (Nat.not_lt_zero _)
  | cons u L ih =>
      cases i with
      | zero =>
          refine ⟨Function.update_self _ _ _, h.2.congr fun x lo _ => Function.update_of_ne (by omega) _ _⟩
      | succ i =>
          have next : a + 4 * (i + 1) = a + 4 + 4 * i := by omega
          rw [next]
          refine ⟨?_, ih h.2 (Nat.lt_of_succ_lt_succ lt)⟩
          rw [Function.update_of_ne (by omega)]
          exact h.1

theorem Cpu.pushAll_spec : ∀ (L : List Nat) (c : Cpu) (L' : List Nat), 4 * L.length ≤ c.regs.esp →
    Holds c.words c.regs.esp L' →
    (c.pushAll L).regs = { c.regs with esp := c.regs.esp - 4 * L.length } ∧
      Holds (c.pushAll L).words (c.regs.esp - 4 * L.length) (L.reverse ++ L') ∧
      ∀ x, x < c.regs.esp - 4 * L.length ∨ c.regs.esp ≤ x → (c.pushAll L).words x = c.words x := by
  intro L
  induction L with
  | nil =>
      intro c L' _ holds
      exact ⟨rfl, holds, fun _ _ => rfl⟩
  | cons v L ih =>
      intro c L' room holds
      simp only [List.length_cons] at room
      have pushed : Holds (c.push v).words (c.push v).regs.esp (v :: L') := by
        refine ⟨Function.update_self _ _ _, ?_⟩
        have back : (c.push v).regs.esp + 4 = c.regs.esp := Nat.sub_add_cancel (by omega)
        rw [back]
        exact holds.congr fun x lo _ => Function.update_of_ne (by omega) _ _
      have esp : (c.push v).regs.esp = c.regs.esp - 4 := rfl
      obtain ⟨regs, stack, frame⟩ := ih (c.push v) _ (by omega) pushed
      have step : c.pushAll (v :: L) = (c.push v).pushAll L := rfl
      have depth : (c.push v).regs.esp - 4 * L.length = c.regs.esp - 4 * (v :: L).length := by
        simp only [List.length_cons]
        omega
      rw [depth] at regs stack frame
      refine ⟨by rw [step, regs]; rfl, ?_, fun x out => ?_⟩
      · rw [step, List.reverse_cons, List.append_assoc]
        exact stack
      · simp only [List.length_cons] at out frame
        rw [step, frame x (by omega)]
        exact Function.update_of_ne (by omega) _ _

def Regs.frame (r : Regs) (e : Nat) : List Nat :=
  [r.edi, r.esi, r.ebp, e, r.ebx, r.edx, r.ecx, r.eax, r.gs, r.fs, r.es, r.ds, r.eip, r.cs, r.eflags,
    r.esp, r.ss]

theorem Cpu.trap_spec (c : Cpu) {p : Nat} (room : 20 ≤ p) :
    (c.trap p).regs = { c.regs with
      esp := p - 20, ss := 2 * 8, cs := 1 * 8, eflags := c.regs.eflags &&& 0xFFFFFDFF } ∧
      Holds (c.trap p).words (p - 20) [c.regs.eip, c.regs.cs, c.regs.eflags, c.regs.esp, c.regs.ss] ∧
      ∀ x, x < p - 20 ∨ p ≤ x → (c.trap p).words x = c.words x := by
  obtain ⟨regs, stack, frame⟩ := Cpu.pushAll_spec
    [c.regs.ss, c.regs.esp, c.regs.eflags, c.regs.cs, c.regs.eip]
    { c with regs := { c.regs with esp := p, ss := 2 * 8 } } [] room trivial
  refine ⟨?_, stack, frame⟩
  simp only [Cpu.trap, regs]
  rfl

theorem Cpu.saveRegs_spec (c : Cpu) {L : List Nat} (room : 48 ≤ c.regs.esp)
    (holds : Holds c.words c.regs.esp L) :
    c.saveRegs.regs = { c.regs with esp := c.regs.esp - 48 } ∧
      Holds c.saveRegs.words (c.regs.esp - 48) ([c.regs.edi, c.regs.esi, c.regs.ebp, c.regs.esp - 16,
        c.regs.ebx, c.regs.edx, c.regs.ecx, c.regs.eax, c.regs.gs, c.regs.fs, c.regs.es, c.regs.ds] ++ L) ∧
      ∀ x, x < c.regs.esp - 48 ∨ c.regs.esp ≤ x → c.saveRegs.words x = c.words x := by
  have four : 4 * 4 ≤ c.regs.esp := by omega
  obtain ⟨regs₁, stack₁, frame₁⟩ := Cpu.pushAll_spec
    [c.regs.ds, c.regs.es, c.regs.fs, c.regs.gs] c L four holds
  generalize first : c.pushAll [c.regs.ds, c.regs.es, c.regs.fs, c.regs.gs] = c₁ at *
  have saved : c.saveRegs = c₁.pushal := by rw [Cpu.saveRegs, first]
  have esp₁ : c₁.regs.esp = c.regs.esp - 16 := by rw [regs₁]; rfl
  have eight : 4 * 8 ≤ c₁.regs.esp := by omega
  obtain ⟨regs₂, stack₂, frame₂⟩ := Cpu.pushAll_spec [c₁.regs.eax, c₁.regs.ecx, c₁.regs.edx, c₁.regs.ebx,
    c₁.regs.esp, c₁.regs.ebp, c₁.regs.esi, c₁.regs.edi] c₁ _ eight (esp₁ ▸ stack₁)
  have depth : c₁.regs.esp - 4 * 8 = c.regs.esp - 48 := by omega
  simp only [List.length_cons, List.length_nil, Nat.zero_add, Nat.reduceAdd] at regs₂ stack₂ frame₂ frame₁
  rw [depth] at regs₂ stack₂ frame₂
  refine ⟨?_, ?_, fun x out => ?_⟩
  · rw [saved, Cpu.pushal, regs₂, regs₁]
  · rw [saved, Cpu.pushal]
    rw [regs₁] at stack₂
    rw [regs₁]
    exact stack₂
  · rw [saved, Cpu.pushal, frame₂ x (by omega), frame₁ x (by omega)]

/-- A handler saves all registers on the stack of the process, right below it. -/
theorem Cpu.trap_saves (c : Cpu) {p : Nat} (room : 68 ≤ p) :
    ∃ e, Holds (c.trap p).saveRegs.words (p - 68) (c.regs.frame e) ∧
      (c.trap p).saveRegs.regs.esp = p - 68 ∧
      ∀ x, x < p - 68 ∨ p ≤ x → (c.trap p).saveRegs.words x = c.words x := by
  obtain ⟨regs₁, stack₁, frame₁⟩ := c.trap_spec (show 20 ≤ p by omega)
  have esp₁ : (c.trap p).regs.esp = p - 20 := by rw [regs₁]
  obtain ⟨regs₂, stack₂, frame₂⟩ := (c.trap p).saveRegs_spec (by omega) (esp₁ ▸ stack₁)
  have depth : (c.trap p).regs.esp - 48 = p - 68 := by omega
  rw [depth] at regs₂ stack₂ frame₂
  refine ⟨(c.trap p).regs.esp - 16, ?_, by rw [regs₂], fun x out => ?_⟩
  · rw [regs₁] at stack₂ ⊢
    exact stack₂
  · rw [frame₂ x (by omega), frame₁ x (by omega)]

theorem Cpu.restores {c : Cpu} {r : Regs} {e : Nat} (h : Holds c.words c.regs.esp (r.frame e))
    (user : r.User) : c.restoreRegs.regs = r ∧ c.restoreRegs.words = c.words := by
  simp only [Regs.frame, Holds, and_true] at h
  obtain ⟨h0, h1, h2, _, h4, h5, h6, h7, h8, h9, h10, h11, h12, h13, h14, h15, h16⟩ := h
  simp only [Nat.add_assoc, Nat.reduceAdd] at *
  have mode : c.words (c.regs.esp + 52) % 4 = 3 := by rw [h13]; exact user
  simp only [Cpu.restoreRegs, Cpu.popal, Cpu.iret, Nat.add_assoc, Nat.reduceAdd, if_pos mode, and_true]
  simp only [*]

theorem Cpu.switchTo_spec (c : Cpu) {ret prev next : Nat} (room : 16 ≤ c.regs.esp)
    (holds : Holds c.words c.regs.esp [ret, prev, next])
    (apart : prev < c.regs.esp - 16 ∨ c.regs.esp ≤ prev) :
    ∃ r w, c.switchTo = Cpu.popContext ⟨r, w⟩ ∧ r.esp = next ∧ w prev = c.regs.esp - 16 ∧
      Holds w (c.regs.esp - 16) [c.regs.edi, c.regs.esi, c.regs.ebp, c.regs.ebx] ∧
      ∀ x, x < c.regs.esp - 16 ∨ c.regs.esp ≤ x → x ≠ prev → w x = c.words x := by
  obtain ⟨hret, hprev, hnext, _⟩ := holds
  have second : c.regs.esp + 4 + 4 = c.regs.esp + 8 := rfl
  rw [second] at hnext
  obtain ⟨regs, stack, frame⟩ := Cpu.pushAll_spec [c.regs.ebx, c.regs.ebp, c.regs.esi, c.regs.edi]
    { c with regs := { c.regs with eax := prev, edx := next } } [] room trivial
  simp only [List.length_cons, List.length_nil, Nat.zero_add, Nat.reduceAdd] at regs stack frame
  let pushed := Cpu.pushAll { c with regs := { c.regs with eax := prev, edx := next } }
    [c.regs.ebx, c.regs.ebp, c.regs.esi, c.regs.edi]
  refine ⟨{ pushed.regs with esp := next }, Function.update pushed.words prev (c.regs.esp - 16), ?_, rfl,
    Function.update_self _ _ _, ?_, fun x out ne => ?_⟩
  · have esp : pushed.regs.esp = c.regs.esp - 16 := by rw [regs]
    simp only [Cpu.switchTo, hprev, hnext]
    rw [← esp]
  · refine stack.congr fun x lo hi => Function.update_of_ne ?_ _ _
    simp only [List.length_append, List.length_reverse, List.length_cons, List.length_nil] at hi
    omega
  · rw [Function.update_of_ne ne]
    exact frame x out

/-! ## Stacks that can go on -/

/-- A `ret` with the stack pointer at `a` gets back to user mode with registers as in `Q`,
as long as the words from `a` up to the process are those of `w`.  On the way only the
page of the process is written. -/
def Resumes (code : Code) (p n a : Nat) (w : Words) (callee : Nat × Nat × Nat × Nat)
    (Q : Regs → Prop) : Prop :=
  ∀ c : Cpu, c.regs.esp = a → c.regs.callee = callee → (∀ x, a ≤ x → x < p → c.words x = w x) →
    ∃ c', code.run n c = some c' ∧ Q c'.regs ∧ ∀ x, x ∉ page (p - 3992) → c'.words x = c.words x

/-- The process gets back to user mode when the scheduler switches to its context. -/
def Suspended (code : Code) (p : Nat) (w : Words) (Q : Regs → Prop) : Prop :=
  ∀ c : Cpu, c.regs.esp = w (p + contextAt) → (∀ x ∈ page (p - 3992), c.words x = w x) →
    ∃ c', code.run 4 c.popContext = some c' ∧ Q c'.regs ∧
      ∀ x, x ∉ page (p - 3992) → c'.words x = c.words x

theorem Suspended.congr {code : Code} {p : Nat} {w w' : Words} {Q : Regs → Prop}
    (h : Suspended code p w Q) (inPage : p + contextAt ∈ page (p - 3992))
    (same : ∀ x ∈ page (p - 3992), w' x = w x) : Suspended code p w' Q := by
  intro c esp words
  exact h c (esp.trans (same _ inPage)) fun x mem => (words x mem).trans (same x mem)

theorem Suspended.mono {code : Code} {p : Nat} {w : Words} {Q Q' : Regs → Prop}
    (h : Suspended code p w Q) (imp : ∀ r, Q r → Q' r) : Suspended code p w Q' := by
  intro c esp words
  obtain ⟨c', run, holds, frame⟩ := h c esp words
  exact ⟨c', run, imp _ holds, frame⟩

theorem Code.run_mono (code : Code) : ∀ {n m : Nat} {c c' : Cpu}, n ≤ m → code.run n c = some c' →
    code.run m c = some c' := by
  intro n
  induction n with
  | zero =>
      intro m c c' _ run
      cases run
  | succ n ih =>
      intro m c c' le run
      obtain ⟨m, rfl⟩ : ∃ j, m = j + 1 := ⟨m - 1, by omega⟩
      rw [Code.run] at run ⊢
      cases found : code.find (c.words c.regs.esp) with
      | none =>
          simp only [found] at run
          cases run
      | some loc =>
          simp only [found] at run ⊢
          cases loc with
          | yield => exact ih (by omega) run
          | sysExecve => exact ih (by omega) run
          | sysExit => exact ih (by omega) run
          | forkret => exact ih (by omega) run
          | scheduler => cases run
          | timer => exact run
          | syscall args => exact run
          | exit => exact run
          | trapret => exact run

/-- A function that called `yield` goes on behind the call when its context is switched to. -/
theorem Code.switchOut_spec (code : Code) (k : Kernel) (c : Cpu) (home : 3992 ≤ k.curthread)
    (below : c.regs.esp ≤ k.curthread)
    (fits : k.curthread - 3992 + 28 ≤ (code.yield.enter k c).regs.esp)
    (idle : k.idle + contextAt ∉ page (k.curthread - 3992)) :
    ∃ r w, code.switchOut k c = Cpu.popContext ⟨r, w⟩ ∧ r.esp = c.words (k.idle + contextAt) ∧
      (∀ x, x ∉ page (k.curthread - 3992) → w x = c.words x) ∧
      ∀ n Q, n ≤ 3 → Resumes code k.curthread n c.regs.esp c.words c.regs.callee Q →
        Suspended code k.curthread w Q := by
  have frameLe := code.yield.enter_esp k c
  have frameWords := code.yield.enter_words k c (by omega)
  have leaves := code.yield.leave_enter k c
  generalize entered : code.yield.enter k c = c₁ at *
  have context : contextAt = 16 := rfl
  have three : 4 * 3 ≤ c₁.regs.esp := by omega
  obtain ⟨regs₂, stack₂, frame₂⟩ := Cpu.pushAll_spec
    [c₁.words (k.idle + contextAt), k.curthread + contextAt, code.addr .yield] c₁ [] three trivial
  generalize pushed : c₁.pushAll
    [c₁.words (k.idle + contextAt), k.curthread + contextAt, code.addr .yield] = c₂ at *
  simp only [List.length_cons, List.length_nil, Nat.zero_add, Nat.reduceAdd, Nat.reduceMul, List.append_nil,
    List.reverse_cons, List.reverse_nil, List.nil_append, List.cons_append] at regs₂ stack₂ frame₂
  have esp₂ : c₂.regs.esp = c₁.regs.esp - 12 := by rw [regs₂]
  obtain ⟨r, w, switched, esp₃, context₃, stack₃, frame₃⟩ := c₂.switchTo_spec (by omega)
    (esp₂ ▸ stack₂) (Or.inr (by omega))
  have outer : ∀ x, c₁.regs.esp ≤ x → x ≠ k.curthread + contextAt → w x = c₁.words x := by
    intro x lo ne
    rw [frame₃ x (by omega) ne, frame₂ x (by omega)]
  refine ⟨r, w, by rw [Code.switchOut, entered, pushed, switched], ?_, fun x out => ?_,
    fun n Q short resumes => ?_⟩
  · rw [esp₃]
    apply frameWords
    simp only [page, Set.mem_Ico] at idle
    omega
  · simp only [page, Set.mem_Ico] at out
    rw [frame₃ x (by omega) (by omega), frame₂ x (by omega), frameWords x (by omega)]
  · intro c' esp' words'
    have inPage : ∀ x, c₁.regs.esp - 28 ≤ x → x < k.curthread + 104 → c'.words x = w x := by
      intro x lo hi
      apply words'
      simp only [page, Set.mem_Ico]
      omega
    have start : c'.regs.esp = c₁.regs.esp - 28 := by
      rw [esp', context₃]
      omega
    -- the pops of `switch_to` give back the registers at the call
    have stack' : Holds c'.words c'.regs.esp [c₁.regs.edi, c₁.regs.esi, c₁.regs.ebp, c₁.regs.ebx] := by
      have depth : c₂.regs.esp - 16 = c₁.regs.esp - 28 := by omega
      rw [regs₂, ← esp₂, depth] at stack₃
      rw [start]
      refine stack₃.congr fun x lo hi => ?_
      simp only [List.length_cons, List.length_nil] at hi
      exact inPage x lo (by omega)
    obtain ⟨h0, h1, h2, h3, _⟩ := stack'
    simp only [Nat.add_assoc, Nat.reduceAdd] at h1 h2 h3
    have ret : c'.words (c'.regs.esp + 16) = code.addr .yield := by
      rw [start, inPage _ (by omega) (by omega), frame₃ _ (by omega) (by omega)]
      have := stack₂.1
      rw [← this]
      congr 1
      omega
    let back : Cpu := (c'.popContext.drop 1).drop 2
    have backEsp : back.regs.esp = c₁.regs.esp := by
      show c'.regs.esp + 16 + 4 * 1 + 4 * 2 = c₁.regs.esp
      omega
    have backCallee : back.regs.callee = c₁.regs.callee := by
      show (c'.words c'.regs.esp, c'.words (c'.regs.esp + 4), c'.words (c'.regs.esp + 8),
        c'.words (c'.regs.esp + 12)) = _
      rw [h0, h1, h2, h3]
      rfl
    obtain ⟨leftEsp, leftCallee⟩ := leaves back (by omega) backEsp backCallee fun x lo hi => by
      show c'.words x = c₁.words x
      rw [inPage x (by omega) (by omega), outer x lo (by omega)]
    have leftWords : (code.yield.leave back).words = c'.words := code.yield.leave_words back
    obtain ⟨done, run, holds, frame⟩ := resumes (code.yield.leave back) leftEsp leftCallee fun x lo hi => by
      rw [leftWords, inPage x (by omega) (by omega), outer x (by omega) (by omega), frameWords x (Or.inr lo)]
    refine ⟨done, code.run_mono (show n + 1 ≤ 4 by omega) ?_, holds, fun x out => ?_⟩
    · rw [Code.run]
      have found : code.find (c'.popContext.words c'.popContext.regs.esp) = some .yield := by
        show code.find (c'.words (c'.regs.esp + 16)) = _
        rw [ret, code.find_addr]
      simp only [found]
      exact run
    · rw [frame x out, leftWords]

theorem Resumes.timer {code : Code} {p e : Nat} {w : Words} {r : Regs} (room : 72 ≤ p) (user : r.User)
    (holds : Holds w (p - 72) (code.addr .timer :: r.frame e)) (callee : Nat × Nat × Nat × Nat) :
    Resumes code p 1 (p - 72) w callee (· = r) := by
  intro c esp _ words
  have stack : Holds c.words (p - 72) (code.addr .timer :: r.frame e) := by
    refine holds.congr fun x lo hi => words x lo ?_
    simp only [Regs.frame, List.length_cons, List.length_nil] at hi
    omega
  obtain ⟨ret, frame⟩ := stack
  have next : (c.drop 1).regs.esp = p - 72 + 4 := by
    show c.regs.esp + 4 * 1 = _
    rw [esp]
  obtain ⟨regs, same⟩ := Cpu.restores (c := c.drop 1) (next ▸ frame) user
  refine ⟨(c.drop 1).restoreRegs, ?_, regs, fun x _ => by rw [same]; rfl⟩
  rw [Code.run, esp, ret, code.find_addr]

/-- The handler of a system call behind the call of a function with arguments: the process gets
its registers back, with the result of the function. -/
theorem Code.run_syscall {code : Code} {p n a e : Nat} {w : Words} {r : Regs} {args : List Nat}
    (count : args.length = n) (place : a + 4 * (n + 1) + 68 = p) (home : 3992 ≤ p) (low : p - 3992 ≤ a)
    (user : r.User) (holds : Holds w a (code.addr (.syscall n) :: (args ++ r.frame e))) {c : Cpu}
    (esp : c.regs.esp = a) (words : ∀ x, a ≤ x → x < p → c.words x = w x) :
    ∃ c', code.run 1 c = some c' ∧ c'.regs = { r with eax := c.regs.eax } ∧
      ∀ x, x ∉ page (p - 3992) → c'.words x = c.words x := by
  subst count
  have stack : Holds c.words a (code.addr (.syscall args.length) :: (args ++ r.frame e)) := by
    refine holds.congr fun x lo hi => words x lo ?_
    simp only [Regs.frame, List.length_cons, List.length_append, List.length_nil] at hi
    omega
  obtain ⟨ret, tail⟩ := stack
  obtain ⟨_, frame⟩ := Holds.append.mp tail
  let back : Cpu := (c.drop 1).drop args.length
  have top : back.regs.esp = a + 4 + 4 * args.length := by
    show c.regs.esp + 4 * 1 + 4 * args.length = _
    rw [esp]
  let stored : Cpu := { back with words := Function.update back.words (back.regs.esp + 28) back.regs.eax }
  have frame' : Holds stored.words stored.regs.esp ({ r with eax := back.regs.eax }.frame e) := by
    show Holds (Function.update c.words (back.regs.esp + 28) back.regs.eax) back.regs.esp _
    rw [top]
    exact frame.set (i := 7) (show 7 < 17 by decide) back.regs.eax
  obtain ⟨regs, same⟩ := Cpu.restores frame' user
  refine ⟨stored.restoreRegs, ?_, regs, fun x out => ?_⟩
  · rw [Code.run, esp, ret, code.find_addr]
  · rw [same]
    refine Function.update_of_ne ?_ _ _
    simp only [page, Set.mem_Ico] at out
    omega

theorem Resumes.syscall {code : Code} {p n a e : Nat} {w : Words} {r : Regs} {args : List Nat}
    (count : args.length = n) (place : a + 4 * (n + 1) + 68 = p) (home : 3992 ≤ p) (low : p - 3992 ≤ a)
    (user : r.User) (holds : Holds w a (code.addr (.syscall n) :: (args ++ r.frame e)))
    (callee : Nat × Nat × Nat × Nat) :
    Resumes code p 1 a w callee fun regs => ∃ v, regs = { r with eax := v } := by
  intro c esp _ words
  obtain ⟨c', run, regs, frame⟩ := Code.run_syscall count place home low user holds esp words
  exact ⟨c', run, ⟨_, regs⟩, frame⟩

theorem Resumes.mono {code : Code} {p n a : Nat} {w : Words} {callee : Nat × Nat × Nat × Nat}
    {Q Q' : Regs → Prop} (h : Resumes code p n a w callee Q) (imp : ∀ r, Q r → Q' r) :
    Resumes code p n a w callee Q' := by
  intro c esp same words
  obtain ⟨c', run, holds, frame⟩ := h c esp same words
  exact ⟨c', run, imp _ holds, frame⟩

/-- A function that has called `yield`, as `sys_execve` does, returns to its caller. -/
theorem Resumes.leave {code : Code} {f : Compiled} {k : Kernel} {c : Cpu} {loc : Loc} {p n : Nat}
    {w : Words} {Q : Regs → Prop}
    (returns : ∀ fuel c, code.find (c.words c.regs.esp) = some loc →
      code.run (fuel + 1) c = code.run fuel (f.leave (c.drop 1)))
    (room : 4 ≤ (f.enter k c).regs.esp) (below : c.regs.esp ≤ p)
    (ret : w ((f.enter k c).regs.esp - 4) = code.addr loc)
    (inner : ∀ x, (f.enter k c).regs.esp ≤ x → x < c.regs.esp → w x = (f.enter k c).words x)
    (resumes : Resumes code p n c.regs.esp w c.regs.callee Q) :
    Resumes code p (n + 1) ((f.enter k c).regs.esp - 4) w (f.enter k c).regs.callee Q := by
  have frameLe := f.enter_esp k c
  intro c' esp callee words
  have found : code.find (c'.words c'.regs.esp) = some loc := by
    rw [esp, words _ (Nat.le_refl _) (by omega), ret, code.find_addr]
  have back : (c'.drop 1).regs.esp = (f.enter k c).regs.esp := by
    show c'.regs.esp + 4 * 1 = _
    omega
  obtain ⟨leftEsp, leftCallee⟩ := f.leave_enter k c (c'.drop 1) (by omega) back callee fun x lo hi => by
    show c'.words x = _
    rw [words x (by omega) (by omega), inner x lo hi]
  have leftWords : (f.leave (c'.drop 1)).words = c'.words := f.leave_words _
  obtain ⟨done, run, holds, frame⟩ := resumes _ leftEsp leftCallee fun x lo hi => by
    rw [leftWords, words x (by omega) hi]
  refine ⟨done, by rw [returns n c' found]; exact run, holds, fun x out => ?_⟩
  rw [frame x out, leftWords]

/-- The hand-built stack of a new process. -/
theorem Suspended.born {code : Code} {p e : Nat} {w : Words} {r : Regs} (home : 3992 ≤ p) (user : r.User)
    (context : w (p + contextAt) = p - 92) (first : w (p - 76) = code.addr .forkret)
    (second : w (p - 72) = code.addr .trapret) (holds : Holds w (p - 68) (r.frame e)) :
    Suspended code p w (· = r) := by
  intro c esp words
  have inPage : ∀ x, p - 92 ≤ x → x < p → c.words x = w x := by
    intro x lo hi
    apply words
    simp only [page, Set.mem_Ico]
    omega
  rw [context] at esp
  let back : Cpu := (c.popContext.drop 1).drop 1
  have place : c.popContext.regs.esp = p - 76 := by
    show c.regs.esp + 16 = _
    omega
  have place' : (c.popContext.drop 1).regs.esp = p - 72 := by
    show c.regs.esp + 16 + 4 * 1 = _
    omega
  have top : back.regs.esp = p - 68 := by
    show c.regs.esp + 16 + 4 * 1 + 4 * 1 = _
    omega
  have stack : Holds back.words back.regs.esp (r.frame e) := by
    rw [top]
    refine holds.congr fun x lo hi => inPage x (by omega) ?_
    simp only [Regs.frame, List.length_cons, List.length_nil] at hi
    omega
  obtain ⟨regs, same⟩ := Cpu.restores stack user
  refine ⟨back.restoreRegs, ?_, regs, fun x _ => by rw [same]; rfl⟩
  have found : code.find (c.popContext.words c.popContext.regs.esp) = some .forkret := by
    rw [place]
    show code.find (c.words (p - 76)) = _
    rw [inPage _ (by omega) (by omega), first, code.find_addr]
  have found' : code.find ((c.popContext.drop 1).words (c.popContext.drop 1).regs.esp) = some .trapret := by
    rw [place']
    show code.find (c.words (p - 72)) = _
    rw [inPage _ (by omega) (by omega), second, code.find_addr]
  rw [Code.run]
  simp only [found]
  rw [Code.run]
  simp only [found']
  rfl

/-! ## The scheduler on its own stack -/

/-- What the scheduler finds when a process switches to it: its context on the boot stack,
with `base` the stack pointer outside the call of `switch_to`. -/
structure SchedulerAt (code : Code) (base idle : Nat) (w : Words) : Prop where
  context : w (idle + contextAt) = base - 28
  ret : w (base - 12) = code.addr .scheduler

/-- The bytes that the scheduler writes besides the stack it switches to. -/
def schedulerWords (base idle : Nat) : Set Nat := {x | base - 28 ≤ x ∧ x < base ∨ x = idle + contextAt}

theorem Code.dispatch_spec (code : Code) (k : Kernel) (c : Cpu) {base : Nat} {Q : Regs → Prop}
    (room : 28 ≤ base) (esp : c.regs.esp = base) (idle : k.idle + contextAt < base - 28 ∨ base ≤ k.idle)
    (apart : ∀ x ∈ page (k.curthread - 3992), x ∉ schedulerWords base k.idle)
    (suspended : Suspended code k.curthread c.words Q) :
    ∃ c', code.dispatch k c = .ok (k, c') ∧ Q c'.regs ∧ SchedulerAt code base k.idle c'.words ∧
      ∀ x, x ∉ page (k.curthread - 3992) → x ∉ schedulerWords base k.idle → c'.words x = c.words x := by
  have context : contextAt = 16 := rfl
  let c₁ : Cpu := { c with regs := code.scheduler k c.regs }
  have esp₁ : c₁.regs.esp = base := (code.scheduler_esp k c.regs).trans esp
  have three : 4 * 3 ≤ c₁.regs.esp := by omega
  obtain ⟨regs₂, stack₂, frame₂⟩ := Cpu.pushAll_spec
    [c.words (k.curthread + contextAt), k.idle + contextAt, code.addr .scheduler] c₁ [] three trivial
  generalize pushed : c₁.pushAll
    [c.words (k.curthread + contextAt), k.idle + contextAt, code.addr .scheduler] = c₂ at *
  simp only [List.length_cons, List.length_nil, Nat.zero_add, Nat.reduceAdd, Nat.reduceMul, List.append_nil,
    List.reverse_cons, List.reverse_nil, List.nil_append, List.cons_append, esp₁] at regs₂ stack₂ frame₂
  have esp₂ : c₂.regs.esp = base - 12 := by rw [regs₂]
  obtain ⟨r, w, switched, esp₃, context₃, _, frame₃⟩ := c₂.switchTo_spec (by omega) (esp₂ ▸ stack₂)
    (by omega)
  have frame : ∀ x, x ∉ schedulerWords base k.idle → w x = c.words x := by
    intro x out
    simp only [schedulerWords, Set.mem_ofPred_eq, not_or] at out
    rw [frame₃ x (by omega) out.2, frame₂ x (by omega)]
  obtain ⟨c', run, holds, rest⟩ := suspended ⟨r, w⟩ esp₃ fun x mem => frame x (apart x mem)
  have outside : ∀ x, x ∈ schedulerWords base k.idle → x ∉ page (k.curthread - 3992) :=
    fun x mem inside => apart x inside mem
  refine ⟨c', ?_, holds, ⟨?_, ?_⟩, fun x out away => ?_⟩
  · have ran : code.run 4 ({ c with regs := code.scheduler k c.regs }.pushAll
        [c.words (k.curthread + contextAt), k.idle + contextAt, code.addr .scheduler]).switchTo =
          some c' := by
      rw [pushed, switched, run]
    rw [Code.dispatch]
    simp only [ran]
  · rw [rest _ (outside _ (Or.inr rfl))]
    show w _ = _
    omega
  · have inStack : base - 12 ∈ schedulerWords base k.idle := Or.inl ⟨by omega, by omega⟩
    rw [rest _ (outside _ inStack)]
    show w _ = _
    rw [frame₃ _ (by omega) (by omega)]
    exact stack₂.1
  · rw [rest x out]
    exact frame x away

end Trunix
