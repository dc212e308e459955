import Trunix.Drivers.Terminal
import Trunix.Kernel.Isolation

/-!
# Printing on the kernel

The streams of a process lie in its memory, where its own stores keep them.  The kernel copies
them to a child with the rest of the memory, and a new program brings its own.  So the
processes of the kernel are those of a terminal: what they print reaches the console in order,
and what has not yet is in the buffers that their memory holds.
-/

set_option autoImplicit false

namespace Trunix

open Trunix.Lib Trunix.Libc

/-! ## Streams in memory -/

def viewed (space : Nat → Option UInt8) : Mem := fun x => (space x).getD 0

def Libc.File.place (f : Libc.File) (a : Nat) : Set Nat :=
  Set.Ico (a + 4) (a + 16) ∪ Set.Ico f.buf f.ptr

structure Libc.File.InMemory (f : Libc.File) (space : Nat → Option UInt8) (a : Nat) : Prop where
  there : ∀ x ∈ f.place a, space x ≠ none
  buf : load32 (viewed space) (a + 4) = f.buf
  ptr : load32 (viewed space) (a + 8) = f.ptr
  stop : load32 (viewed space) (a + 12) = f.stop
  pending : ∀ x ∈ Set.Ico f.buf f.ptr, space x = some (f.mem x)

def pendingAt (space : Nat → Option UInt8) (a : Nat) : List (Option UInt8) :=
  let buf := load32 (viewed space) (a + 4)
  (List.range (load32 (viewed space) (a + 8) - buf)).map fun i => space (buf + i)

section InMemory

variable {f : Libc.File} {space space' : Nat → Option UInt8} {a : Nat} (h : f.InMemory space a)

include h

theorem Libc.File.InMemory.pendingAt_eq : pendingAt space a = f.pending.map some := by
  rw [pendingAt, Libc.File.pending, List.map_map, h.buf, h.ptr]
  refine List.map_congr_left fun i mem => ?_
  have lt := List.mem_range.mp mem
  exact h.pending (f.buf + i) ⟨Nat.le_add_right _ _, by omega⟩

theorem Libc.File.InMemory.congr (same : ∀ x ∈ f.place a, space' x = space x) : f.InMemory space' a := by
  have word : ∀ d, 4 ≤ d → d ≤ 12 → load32 (viewed space') (a + d) = load32 (viewed space) (a + d) := by
    intro d lo hi
    refine load32_congr fun x from' below => ?_
    have member : x ∈ f.place a := Or.inl ⟨by omega, by omega⟩
    rw [viewed, viewed, same x member]
  refine ⟨fun x mem => ?_, ?_, ?_, ?_, fun x mem => ?_⟩
  · rw [same x mem]
    exact h.there x mem
  · rw [word 4 (by decide) (by decide)]
    exact h.buf
  · rw [word 8 (by decide) (by decide)]
    exact h.ptr
  · rw [word 12 (by decide) (by decide)]
    exact h.stop
  · rw [same x (Or.inr mem)]
    exact h.pending x mem

end InMemory

theorem Libc.File.inMemory_iff (f : Libc.File) (space : Nat → Option UInt8) (a : Nat) :
    f.InMemory space a ↔ (∀ i < 12, space (a + 4 + i) ≠ none) ∧
      (load32 (viewed space) (a + 4) = f.buf ∧ load32 (viewed space) (a + 8) = f.ptr ∧
        load32 (viewed space) (a + 12) = f.stop) ∧
      ∀ i < f.ptr - f.buf, space (f.buf + i) = some (f.mem (f.buf + i)) := by
  constructor
  · intro h
    exact ⟨fun i lt => h.there _ (Or.inl ⟨by omega, by omega⟩), ⟨h.buf, h.ptr, h.stop⟩,
      fun i lt => h.pending _ ⟨by omega, by omega⟩⟩
  · rintro ⟨there, ⟨buf, ptr, stop⟩, pending⟩
    have bytes : ∀ x ∈ Set.Ico f.buf f.ptr, space x = some (f.mem x) := by
      rintro x ⟨lo, hi⟩
      have byte := pending (x - f.buf) (by omega)
      rwa [Nat.add_sub_cancel' lo] at byte
    refine ⟨?_, buf, ptr, stop, bytes⟩
    rintro x (⟨lo, hi⟩ | inBuffer)
    · have word := there (x - (a + 4)) (by omega)
      rwa [Nat.add_sub_cancel' lo] at word
    · rw [bytes x inBuffer]
      exact Option.some_ne_none _

instance (f : Libc.File) (space : Nat → Option UInt8) (a : Nat) : Decidable (f.InMemory space a) :=
  decidable_of_iff _ (f.inMemory_iff space a).symm

/-! ## The machine -/

/-- Where a program has its `FILE`s, the arrays of `stdio.c`, and what is in them. -/
structure StdLayout where
  file : Std → Nat
  out : Nat
  err : Nat
  mem : Mem

def StdLayout.streams (l : StdLayout) : Std → Libc.File := stdStreams l.out l.err l.mem

def StdLayout.Begins (l : StdLayout) (image : Nat → Option UInt8) : Prop :=
  ∀ s, (l.streams s).InMemory image (l.file s)

def Kernel.number (k : Kernel) (p : Nat) : Nat := k.created.idxOf p + 1

/-- The kernel, what its processes print, and for the processes by their numbers where they
have their `FILE`s and whether they are in the middle of a call of `stdio`. -/
structure Tty where
  journal : Journal
  script : Typescript
  file : Nat → Std → Nat
  inside : Nat → Bool

def Tty.self (t : Tty) : Nat := t.journal.kernel.number t.journal.kernel.curthread

/-- What the running process does.  A call of `stdio` begins with `print` and ends with `back`,
and `send` are its calls of `_write`. -/
inductive TtyStep where
  | store (va : Nat) (byte : UInt8)
  | call (c : FileCall)
  | print (c : StdCall)
  | send (addr : Nat)
  | back

section Machine

variable (env : Env) (layout : List UInt8 → StdLayout) (font : Font) (fb : Fbdev)

def Tty.called (t : Tty) (j : Journal) : FileCall → Except Halt Tty
  | .other .fork =>
      if j.kernel.created.length = t.journal.kernel.created.length then .ok { t with journal := j }
      else do
        let script ← t.script.step font fb (.fork t.self)
        return { t with
          journal := j, script := script
          file := Function.update t.file t.script.terminal.pid (t.file t.self) }
  | .other (.execve path) =>
      match env.image path with
      | none => .ok { t with journal := j }
      | some _ => do
          let l := layout path
          let script ← t.script.step font fb (.execve t.self l.out l.err l.mem)
          return { t with journal := j, script := script, file := Function.update t.file t.self l.file }
  | .other .exit => do
      let script ← t.script.step font fb (.exit t.self)
      return { t with journal := j, script := script }
  | _ => .ok { t with journal := j }

def Tty.step (t : Tty) : TtyStep → Except Halt Tty
  | .store va byte => do
      let j ← t.journal.step env (.store va byte)
      return { t with journal := j }
  | .call c => do
      let j ← t.journal.step env (.call c)
      t.called env layout font fb j c
  | .print c => do
      let script ← t.script.step font fb (.print t.self c)
      return { t with script := script, inside := Function.update t.inside t.self true }
  | .send _ => do
      let script ← t.script.step font fb (.send t.self)
      return { t with script := script }
  | .back => .ok { t with inside := Function.update t.inside t.self false }

def Tty.space (t : Tty) : Nat → Option UInt8 := t.journal.kernel.spaces t.journal.kernel.curthread

def Tty.Holding (t : Tty) (p : Nat) : Prop :=
  ∀ s, (t.script.terminal.streams (t.journal.kernel.number p) s).InMemory (t.journal.kernel.spaces p)
    (t.file (t.journal.kernel.number p) s)

/-- Outside the functions of `stdio` a process leaves its streams alone.  Inside it passes to
`_write` the blocks that `stdio` hands over, from its memory, and when it comes back the
streams in its memory are what `stdio` has made of them. -/
def Tty.Allowed (t : Tty) : TtyStep → Prop
  | .store va _ => t.inside t.self = false →
      ∀ s, va ∉ (t.script.terminal.streams t.self s).place (t.file t.self s)
  | .call c => t.journal.kernel.Orderly env (.call c) ∧ t.journal.kernel.Steady env (.call c) ∧
      match c with
      | .other .fork | .other .exit => t.inside t.self = false
      | .other (.execve path) => t.inside t.self = false ∧
          ∀ image, env.image path = some image → (layout path).Begins image
      | _ => True
  | .print c => t.inside t.self = false ∧ c.call.Fits (t.script.terminal.streams t.self c.stream)
  | .send addr => ∃ b rest, t.script.terminal.unsent t.self = b :: rest ∧
      ∀ i (lt : i < b.2.length), t.space (addr + i) = some b.2[i]
  | .back => t.script.terminal.unsent t.self = [] ∧ t.Holding t.journal.kernel.curthread

def Tty.start (k : Kernel) : Tty :=
  let l := layout (pathBytes "/sbin/init")
  ⟨.start env k, .start l.out l.err l.mem, fun _ => l.file, fun _ => false⟩

def Tty.Reached (init : List Block) (t : Tty) : Prop :=
  ∃ k₀ k₁ k₂ entry, AtBoot init k₀ ∧ TablesAtBoot env k₀ ∧ SnugInit env ∧ initsys env k₀ = .ok k₁ ∧
    initSched k₁ entry = .ok k₂ ∧
    (∀ image, env.image (pathBytes "/sbin/init") = some image →
      (layout (pathBytes "/sbin/init")).Begins image) ∧
    Runs (Tty.step env layout font fb) (Tty.Allowed env layout) (.start env layout k₂) t

end Machine

/-! ## What the kernel does to the processes -/

section Calls

variable {init : List Block} {root : Nat} {Q : List Nat} {env : Env} {k k' : Kernel}
  (h : Scheduled init root Q k)

include h

theorem Scheduled.created_eq {c : Call} (other : c ≠ .fork) (done : k.step env c = .ok k') :
    k'.created = k.created := by
  cases h.effect done with
  | paused c k' call store keeps => exact keeps.created
  | wrote addr byte k' free given bytes keeps => exact keeps.created
  | refused path k' none left keeps => exact keeps.created
  | loaded path bin cr3 entry base sz regions k' file image memtab pid created others self => exact created
  | declined len flags fd k' bytes free given keeps => exact keeps.created
  | mapped len flags fd mem pa s s₁ k' nonzero limit bytes free given backed linked memtab pid created others
      self => exact created
  | unforked kstack s k' took full memtab pid created procs => exact created
  | forked => exact absurd rfl other

theorem Scheduled.dead_of_exit (done : sysExit k = .ok k') : (k'.procs k.curthread).state = .dead := by
  by_cases notFirst : k.proc.pid = 1
  · rw [sysExit, if_pos notFirst] at done
    cases done
  · obtain ⟨p, k'', Q', yielded, _, _, dead⟩ := (h.killed notFirst).yields
    rw [sysExit, if_neg notFirst] at done
    cases yielded.symm.trans done
    refine (dead k.curthread h.mem_created).2 ?_
    simp only [Kernel.setProc, Function.update_self]

end Calls

section Journal

variable {init : List Block} {env : Env} {t t' : Journal} (h : t.Faithful init)

include h

theorem Journal.Faithful.created_eq {c : UserStep} (other : c ≠ .call (.other .fork))
    (done : t.step env c = .ok t') : t'.kernel.created = t.kernel.created := by
  obtain ⟨k, stepped, result⟩ := bind_eq_ok.mp done
  cases result
  obtain ⟨root, Q, scheduled⟩ := h.keeps.sched
  cases c with
  | store va byte =>
      rw [Kernel.userStep] at stepped
      split at stepped
      · split at stepped
        · cases stepped
        · cases stepped
          rfl
      · cases stepped
  | call c =>
      cases c with
      | «open» path =>
          obtain ⟨r, opened, result⟩ := bind_eq_ok.mp stepped
          cases result
          exact (sysOpen_quiet scheduled.sound opened).created
      | other c =>
          exact scheduled.created_eq (fun same => other (by rw [same])) stepped

theorem Journal.Faithful.alive_before {c : UserStep} (done : t.step env c = .ok t') {p : Nat}
    (mem : p ∈ t.kernel.created) (alive : (t'.kernel.procs p).state ≠ .dead) :
    (t.kernel.procs p).state ≠ .dead := by
  obtain ⟨k, stepped, result⟩ := bind_eq_ok.mp done
  cases result
  obtain ⟨root, Q, scheduled⟩ := h.keeps.sched
  cases c with
  | store va byte =>
      rw [Kernel.userStep] at stepped
      split at stepped
      · split at stepped
        · cases stepped
        · cases stepped
          exact alive
      · cases stepped
  | call c =>
      cases c with
      | «open» path =>
          obtain ⟨r, opened, result⟩ := bind_eq_ok.mp stepped
          cases result
          have same := ((sysOpen_quiet scheduled.sound opened).procs p (List.mem_cons_of_mem _ mem)).1
          rwa [same] at alive
      | other c =>
          obtain ⟨_, _, dead⟩ := (scheduled.step c).of_ok stepped
          exact fun here => alive ((dead p mem).2 here)

theorem Journal.Faithful.spaces_kept {c : FileCall} (ok : t.kernel.Orderly env (.call c))
    (done : t.step env (.call c) = .ok t') (noFork : c ≠ .other .fork)
    (noProgram : ∀ path, c ≠ .other (.execve path)) {p x : Nat} (there : t.kernel.spaces p x ≠ none) :
    t'.kernel.spaces p x = t.kernel.spaces p x := by
  obtain ⟨moved, _⟩ := h.step ok done
  have spaces := moved.spaces
  cases c with
  | «open» path => rw [spaces]; rfl
  | other c =>
      cases c with
      | yield => rw [spaces]; rfl
      | exit => rw [spaces]; rfl
      | fork => exact absurd rfl noFork
      | execve path => exact absurd rfl (noProgram path)
      | write addr byte => exact ok.elim
      | mmap len flags fd =>
          rw [spaces]
          rw [Kernel.event]
          split
          · rfl
          · change Function.update t.kernel.spaces t.kernel.curthread _ p x = _
            by_cases here : p = t.kernel.curthread
            · subst here
              obtain ⟨b, found⟩ := Option.ne_none_iff_exists'.mp there
              rw [Function.update_self]
              change (t.kernel.spaces t.kernel.curthread x).or _ = _
              rw [found, Option.some_or]
            · rw [Function.update_of_ne here]

end Journal

/-! ## Numbers -/

section Numbers

variable {k k' : Kernel} {p q n : Nat}

theorem Kernel.number_inj (mem : p ∈ k.created) (same : k.number p = k.number q) : p = q :=
  (List.idxOf_inj mem).mp (Nat.add_right_cancel same)

theorem Kernel.number_le (mem : p ∈ k.created) : k.number p ≤ k.created.length :=
  List.idxOf_lt_length_of_mem mem

theorem Kernel.number_old (created : k'.created = k.created ++ [n]) (mem : p ∈ k.created) :
    k'.number p = k.number p := by
  rw [Kernel.number, created, List.idxOf_append_of_mem mem]
  rfl

theorem Kernel.number_new (created : k'.created = k.created ++ [n]) (fresh : n ∉ k.created) :
    k'.number n = k.created.length + 1 := by
  rw [Kernel.number, created, List.idxOf_append_of_notMem fresh, List.idxOf_cons_self]

end Numbers

/-! ## One step -/

/-- The terminal has the processes of the kernel, and who is not in the middle of a call of
`stdio` has in memory the streams it has there, and nothing to write. -/
structure Tty.Holds (init : List Block) (font : Font) (fb : Fbdev) (l : StdLayout) (t : Tty) : Prop where
  faithful : t.journal.Faithful init
  script : Typescript.Reached font fb l.out l.err l.mem t.script
  next : t.script.terminal.pid = t.journal.kernel.created.length + 1
  alive : ∀ p ∈ t.journal.kernel.created, (t.journal.kernel.procs p).state ≠ .dead →
    t.journal.kernel.number p ∈ t.script.terminal.alive
  unborn : ∀ n, t.journal.kernel.created.length < n → t.inside n = false
  quiet : ∀ n, t.inside n = false → t.script.terminal.unsent n = []
  held : ∀ p ∈ t.journal.kernel.created, t.inside (t.journal.kernel.number p) = false → t.Holding p

section Step

variable {init : List Block} {env : Env} {layout : List UInt8 → StdLayout} {font : Font} {fb : Fbdev}
  {l : StdLayout} {t t' : Tty} (h : t.Holds init font fb l)

include h

theorem Tty.Holds.cur : t.journal.kernel.curthread ∈ t.journal.kernel.created := h.faithful.keeps.cur

theorem Tty.Holds.self_alive : t.self ∈ t.script.terminal.alive := by
  obtain ⟨root, Q, scheduled⟩ := h.faithful.keeps.sched
  refine h.alive _ h.cur fun dead => ?_
  have running : (t.journal.kernel.procs t.journal.kernel.curthread).state = .running := scheduled.running
  rw [running] at dead
  cases dead

theorem Tty.Holds.keeps {j : Journal} {script : Typescript} (faithful : j.Faithful init)
    (reached : Typescript.Reached font fb l.out l.err l.mem script)
    (created : j.kernel.created = t.journal.kernel.created)
    (pid : script.terminal.pid = t.script.terminal.pid)
    (streams : script.terminal.streams = t.script.terminal.streams)
    (unsent : script.terminal.unsent = t.script.terminal.unsent)
    (alive : ∀ p ∈ t.journal.kernel.created, (j.kernel.procs p).state ≠ .dead →
      t.journal.kernel.number p ∈ script.terminal.alive)
    (same : ∀ p ∈ t.journal.kernel.created, t.inside (t.journal.kernel.number p) = false → ∀ s,
      ∀ x ∈ (t.script.terminal.streams (t.journal.kernel.number p) s).place
        (t.file (t.journal.kernel.number p) s), j.kernel.spaces p x = t.journal.kernel.spaces p x) :
    ({ t with journal := j, script := script } : Tty).Holds init font fb l := by
  have number : ∀ p, j.kernel.number p = t.journal.kernel.number p := fun p => by
    rw [Kernel.number, Kernel.number, created]
  refine ⟨faithful, reached, ?_, fun p mem live => ?_, fun n late => ?_, fun n out => ?_,
    fun p mem out s => ?_⟩
  · dsimp only
    rw [pid, created]
    exact h.next
  · dsimp only at mem live ⊢
    rw [created] at mem
    rw [number]
    exact alive p mem live
  · dsimp only at late
    rw [created] at late
    exact h.unborn n late
  · dsimp only
    rw [unsent]
    exact h.quiet n out
  · dsimp only at mem out ⊢
    rw [created] at mem
    rw [number] at out ⊢
    rw [streams]
    exact (h.held p mem out s).congr (same p mem out s)

theorem Tty.Holds.stored {va : Nat} {byte : UInt8} (ok : t.Allowed env layout (.store va byte))
    (done : t.step env layout font fb (.store va byte) = .ok t') : t'.Holds init font fb l := by
  obtain ⟨j, stepped, result⟩ := bind_eq_ok.mp done
  cases result
  have orderly : t.journal.kernel.Orderly env (.store va byte) := trivial
  obtain ⟨moved, faithful⟩ := h.faithful.step orderly stepped
  refine h.keeps faithful h.script (h.faithful.created_eq (fun same => by cases same) stepped) rfl rfl rfl
    (fun p mem live => h.alive p mem (h.faithful.alive_before stepped mem live)) fun p mem out s x inside => ?_
  rw [moved.spaces]
  change Function.update t.journal.kernel.spaces t.journal.kernel.curthread _ p x = _
  by_cases here : p = t.journal.kernel.curthread
  · subst here
    have ne : x ≠ va := fun same => ok out s (same ▸ inside)
    rw [Function.update_self, Deed.on, Function.update_of_ne ne]
  · rw [Function.update_of_ne here]

theorem Tty.Holds.forked (ok : t.Allowed env layout (.call (.other .fork)))
    (done : t.step env layout font fb (.call (.other .fork)) = .ok t') : t'.Holds init font fb l := by
  obtain ⟨orderly, _, out⟩ := ok
  obtain ⟨j, stepped, called⟩ := bind_eq_ok.mp done
  obtain ⟨moved, faithful⟩ := h.faithful.step orderly stepped
  obtain ⟨root, Q, scheduled⟩ := h.faithful.keeps.sched
  obtain ⟨child, created, fresh⟩ : ∃ child : Option Nat,
      j.kernel.created = t.journal.kernel.created ++ child.toList ∧
        ∀ n ∈ child, n ∉ t.journal.kernel.created := by
    obtain ⟨k, called, result⟩ := bind_eq_ok.mp stepped
    obtain ⟨r, forked, result'⟩ := bind_eq_ok.mp called
    cases result
    cases result'
    obtain ⟨child, _, created, _, young, _⟩ := scheduled.forked forked
    exact ⟨child, created, fun n mem => (young n mem).1⟩
  have before := fun p mem => h.faithful.alive_before stepped (p := p) mem
  rw [Tty.called] at called
  have spaces := moved.spaces
  rw [Kernel.event, created] at spaces
  cases child with
  | none =>
      rw [Option.toList_none, List.append_nil] at created spaces
      rw [if_pos (by rw [created])] at called
      cases called
      refine h.keeps faithful h.script created rfl rfl rfl (fun p mem live => h.alive p mem (before p mem live))
        fun p mem out s x inside => ?_
      rw [spaces, List.getElem?_eq_none (Nat.le_refl _)]
      rfl
  | some n =>
      have new := fresh n rfl
      have longer : j.kernel.created.length ≠ t.journal.kernel.created.length := by
        rw [created, List.length_append]
        exact Nat.ne_of_gt (Nat.lt_succ_self _)
      rw [if_neg longer] at called
      obtain ⟨script, scripted, result⟩ := bind_eq_ok.mp called
      cases result
      have reached := h.script.snoc (TerminalStep.fork t.self) ⟨h.self_alive, h.quiet _ out⟩ scripted
      rw [Typescript.step, Terminal.step] at scripted
      cases scripted
      have created' : j.kernel.created = t.journal.kernel.created ++ [n] := created
      have numberNew := Kernel.number_new created' new
      rw [Option.toList_some, List.getElem?_append_right (Nat.le_refl _), Nat.sub_self] at spaces
      change j.kernel.spaces = Function.update t.journal.kernel.spaces n _ at spaces
      refine ⟨faithful, reached, ?_, fun p mem live => ?_, fun m late => h.unborn m ?_, h.quiet,
        fun p mem out' s => ?_⟩
      · dsimp only
        rw [created', List.length_append, List.length_singleton, h.next]
      · dsimp only at mem live ⊢
        rw [created', List.mem_append, List.mem_singleton] at mem
        rcases mem with old | rfl
        · rw [Kernel.number_old created' old]
          exact List.mem_cons_of_mem _ (h.alive p old (before p old live))
        · rw [numberNew, h.next]
          exact List.mem_cons_self
      · dsimp only at late
        rw [created', List.length_append, List.length_singleton] at late
        omega
      · dsimp only at mem out' ⊢
        rw [created', List.mem_append, List.mem_singleton] at mem
        rcases mem with old | rfl
        · have ne : p ≠ n := fun same => new (same ▸ old)
          have numberNe : t.journal.kernel.number p ≠ t.script.terminal.pid := by
            have le := Kernel.number_le old
            rw [h.next]
            omega
          rw [Kernel.number_old created' old] at out' ⊢
          rw [Function.update_of_ne numberNe, Function.update_of_ne numberNe, spaces,
            Function.update_of_ne ne]
          exact h.held p old out' s
        · rw [numberNew, ← h.next, Function.update_self, Function.update_self, spaces, Function.update_self]
          exact h.held _ h.cur out s

theorem Tty.Holds.executed {path : List UInt8} (ok : t.Allowed env layout (.call (.other (.execve path))))
    (done : t.step env layout font fb (.call (.other (.execve path))) = .ok t') :
    t'.Holds init font fb l := by
  obtain ⟨orderly, _, out, begins⟩ := ok
  obtain ⟨j, stepped, called⟩ := bind_eq_ok.mp done
  obtain ⟨moved, faithful⟩ := h.faithful.step orderly stepped
  have created := h.faithful.created_eq (fun same => by cases same) stepped
  have before := fun p mem => h.faithful.alive_before stepped (p := p) mem
  have number : ∀ p, j.kernel.number p = t.journal.kernel.number p := fun p => by
    rw [Kernel.number, Kernel.number, created]
  have spaces := moved.spaces
  rw [Kernel.event] at spaces
  rw [Tty.called] at called
  cases found : env.image path with
  | none =>
      rw [found] at called spaces
      cases called
      refine h.keeps faithful h.script created rfl rfl rfl (fun p mem live => h.alive p mem (before p mem live))
        fun p mem out s x inside => ?_
      rw [spaces]
      rfl
  | some image =>
      rw [found] at called spaces
      obtain ⟨script, scripted, result⟩ := bind_eq_ok.mp called
      cases result
      have reached := h.script.snoc (TerminalStep.execve t.self (layout path).out (layout path).err
        (layout path).mem) ⟨h.self_alive, h.quiet _ out⟩ scripted
      rw [Typescript.step, Terminal.step] at scripted
      cases scripted
      change j.kernel.spaces = Function.update t.journal.kernel.spaces t.journal.kernel.curthread image at spaces
      refine ⟨faithful, reached, ?_, fun p mem live => ?_, fun n late => h.unborn n ?_, h.quiet,
        fun p mem out' s => ?_⟩
      · dsimp only
        rw [created]
        exact h.next
      · dsimp only at mem live ⊢
        rw [created] at mem
        rw [number]
        exact h.alive p mem (before p mem live)
      · dsimp only at late
        rw [created] at late
        exact late
      · dsimp only at mem out' ⊢
        rw [created] at mem
        rw [number] at out' ⊢
        by_cases here : p = t.journal.kernel.curthread
        · subst here
          rw [spaces, Function.update_self]
          change (Function.update t.script.terminal.streams t.self _ t.self s).InMemory image
            (Function.update t.file t.self _ t.self s)
          rw [Function.update_self, Function.update_self]
          exact begins image found s
        · have ne : t.journal.kernel.number p ≠ t.self := fun same => here (Kernel.number_inj mem same)
          rw [Function.update_of_ne ne, Function.update_of_ne ne, spaces, Function.update_of_ne here]
          exact h.held p mem out' s

theorem Tty.Holds.exited (ok : t.Allowed env layout (.call (.other .exit)))
    (done : t.step env layout font fb (.call (.other .exit)) = .ok t') : t'.Holds init font fb l := by
  obtain ⟨orderly, _, out⟩ := ok
  obtain ⟨j, stepped, called⟩ := bind_eq_ok.mp done
  obtain ⟨moved, faithful⟩ := h.faithful.step orderly stepped
  obtain ⟨root, Q, scheduled⟩ := h.faithful.keeps.sched
  have dead : (j.kernel.procs t.journal.kernel.curthread).state = .dead := by
    obtain ⟨k, exited, result⟩ := bind_eq_ok.mp stepped
    cases result
    exact scheduled.dead_of_exit exited
  obtain ⟨script, scripted, result⟩ := bind_eq_ok.mp called
  cases result
  have reached := h.script.snoc (TerminalStep.exit t.self) ⟨h.self_alive, h.quiet _ out⟩ scripted
  rw [Typescript.step, Terminal.step] at scripted
  cases scripted
  refine h.keeps faithful reached (h.faithful.created_eq (fun same => by cases same) stepped) rfl rfl rfl
    (fun p mem live => ?_) fun p mem out s x inside => ?_
  · have other : p ≠ t.journal.kernel.curthread := fun same => live (same ▸ dead)
    have ne : t.journal.kernel.number p ≠ t.self := fun same => other (Kernel.number_inj mem same)
    exact (List.mem_erase_of_ne ne).mpr (h.alive p mem (h.faithful.alive_before stepped mem live))
  · rw [moved.spaces]
    rfl

theorem Tty.Holds.quietly {c : FileCall} (orderly : t.journal.kernel.Orderly env (.call c))
    (noFork : c ≠ .other .fork) (noProgram : ∀ path, c ≠ .other (.execve path)) {j : Journal}
    (stepped : t.journal.step env (.call c) = .ok j) :
    ({ t with journal := j } : Tty).Holds init font fb l := by
  obtain ⟨_, faithful⟩ := h.faithful.step orderly stepped
  have other : UserStep.call c ≠ .call (.other .fork) := fun same => noFork (UserStep.call.inj same)
  exact h.keeps faithful h.script (h.faithful.created_eq other stepped) rfl rfl rfl
    (fun p mem live => h.alive p mem (h.faithful.alive_before stepped mem live))
    fun p mem out s x inside => h.faithful.spaces_kept orderly stepped noFork noProgram
      ((h.held p mem out s).there x inside)

theorem Tty.Holds.printed {c : StdCall} (ok : t.Allowed env layout (.print c))
    (done : t.step env layout font fb (.print c) = .ok t') : t'.Holds init font fb l := by
  obtain ⟨out, fits⟩ := ok
  obtain ⟨script, scripted, result⟩ := bind_eq_ok.mp done
  cases result
  have reached := h.script.snoc (TerminalStep.print t.self c) ⟨h.self_alive, h.quiet _ out, fits⟩ scripted
  obtain ⟨terminal, stepped, result⟩ := bind_eq_ok.mp scripted
  cases result
  rw [Terminal.step] at stepped
  cases run : c.run (t.script.terminal.streams t.self) with
  | none =>
      rw [run] at stepped
      cases stepped
  | some σ =>
      rw [run] at stepped
      cases stepped
      refine ⟨h.faithful, reached, h.next, h.alive, fun n late => ?_, fun n out' => ?_,
        fun p mem out' s => ?_⟩
      · have le := Kernel.number_le h.cur
        have ne : n ≠ t.self := Nat.ne_of_gt (Nat.lt_of_le_of_lt le late)
        dsimp only
        rw [Function.update_of_ne ne]
        exact h.unborn n late
      · dsimp only at out' ⊢
        by_cases here : n = t.self
        · subst here
          rw [Function.update_self] at out'
          cases out'
        · rw [Function.update_of_ne here] at out' ⊢
          exact h.quiet n out'
      · dsimp only at out' ⊢
        by_cases here : t.journal.kernel.number p = t.self
        · rw [here, Function.update_self] at out'
          cases out'
        · rw [Function.update_of_ne here] at out' ⊢
          exact h.held p mem out' s

theorem Tty.Holds.sent {addr : Nat} (ok : t.Allowed env layout (.send addr))
    (done : t.step env layout font fb (.send addr) = .ok t') : t'.Holds init font fb l := by
  obtain ⟨b, rest, blocks, _⟩ := ok
  obtain ⟨script, scripted, result⟩ := bind_eq_ok.mp done
  cases result
  have some : t.script.terminal.unsent t.self ≠ [] := blocks ▸ List.cons_ne_nil b rest
  have reached := h.script.snoc (TerminalStep.send t.self) ⟨h.self_alive, some⟩ scripted
  obtain ⟨terminal, stepped, result⟩ := bind_eq_ok.mp scripted
  cases result
  rw [Terminal.step, blocks] at stepped
  obtain ⟨screen, _, result⟩ := bind_eq_ok.mp stepped
  cases result
  refine ⟨h.faithful, reached, h.next, h.alive, h.unborn, fun n out => ?_, h.held⟩
  have ne : n ≠ t.self := by
    rintro rfl
    exact some (h.quiet _ out)
  dsimp only
  rw [Function.update_of_ne ne]
  exact h.quiet n out

theorem Tty.Holds.returned (ok : t.Allowed env layout .back) :
    ({ t with inside := Function.update t.inside t.self false } : Tty).Holds init font fb l := by
  obtain ⟨blocks, holding⟩ := ok
  refine ⟨h.faithful, h.script, h.next, h.alive, fun n late => ?_, fun n out => ?_, fun p mem out => ?_⟩
  · by_cases here : n = t.self
    · exact (congrArg _ here).trans (Function.update_self _ _ _)
    · exact (Function.update_of_ne here _ _).trans (h.unborn n late)
  · by_cases here : n = t.self
    · rw [here]
      exact blocks
    · exact h.quiet n ((Function.update_of_ne here _ _).symm.trans out)
  · by_cases here : t.journal.kernel.number p = t.self
    · rw [Kernel.number_inj mem here]
      exact holding
    · exact h.held p mem ((Function.update_of_ne here _ _).symm.trans out)

theorem Tty.Holds.step {e : TtyStep} (ok : t.Allowed env layout e)
    (done : t.step env layout font fb e = .ok t') : t'.Holds init font fb l := by
  cases e with
  | store va byte => exact h.stored ok done
  | print c => exact h.printed ok done
  | send addr => exact h.sent ok done
  | back =>
      cases done
      exact h.returned ok
  | call c =>
      cases c with
      | «open» path =>
          obtain ⟨j, stepped, result⟩ := bind_eq_ok.mp done
          cases result
          exact h.quietly ok.1 (fun same => by cases same) (fun path same => by cases same) stepped
      | other c =>
          cases c with
          | fork => exact h.forked ok done
          | execve path => exact h.executed ok done
          | exit => exact h.exited ok done
          | yield =>
              obtain ⟨j, stepped, result⟩ := bind_eq_ok.mp done
              cases result
              exact h.quietly ok.1 (fun same => by cases same) (fun path same => by cases same) stepped
          | mmap len flags fd =>
              obtain ⟨j, stepped, result⟩ := bind_eq_ok.mp done
              cases result
              exact h.quietly ok.1 (fun same => by cases same) (fun path same => by cases same) stepped
          | write addr byte => exact ok.1.elim

end Step

/-! ## Runs -/

theorem Tty.start_holds {init : List Block} {env : Env} {layout : List UInt8 → StdLayout} {font : Font}
    {fb : Fbdev} {k₀ k₁ k : Kernel} {entry : Nat} (started : Started init env k₀ k)
    (tables : TablesAtBoot env k₀) (snug : SnugInit env) (sched : initSched k₁ entry = .ok k)
    (begins : ∀ image, env.image (pathBytes "/sbin/init") = some image →
      (layout (pathBytes "/sbin/init")).Begins image) :
    (Tty.start env layout k).Holds init font fb (layout (pathBytes "/sbin/init")) := by
  have faithful := started.faithful tables snug sched
  obtain ⟨kstack, idle, bin, cr3, start, base, sz, regions, s₁, s₂, s₃, _, file, _, _, _, _, _, _, _, created,
    _⟩ := started.stages
  have cur : k.curthread ∈ k.created := faithful.keeps.cur
  have only : ∀ p, p ∈ k.created ↔ p = k.curthread := by
    intro p
    rw [created, List.mem_singleton] at cur ⊢
    rw [cur]
  have first : ∀ p ∈ k.created, k.number p = 1 := by
    intro p mem
    rw [created, List.mem_singleton] at mem
    rw [Kernel.number, created, mem, List.idxOf_cons_self]
  have image : env.image (pathBytes "/sbin/init") =
      some (programImage env.initrd.bytes bin (env.initrd.segments bin)) := by
    rw [Env.image, file]
    rfl
  refine ⟨faithful, .refl, ?_, fun p mem _ => ?_, fun _ _ => rfl, fun _ _ => rfl, fun p mem _ s => ?_⟩
  · change 2 = k.created.length + 1
    rw [created]
    rfl
  · change k.number p ∈ [1]
    rw [first p mem]
    exact List.mem_singleton_self 1
  · have spaces : k.spaces = replay (fun _ _ => none) (Journal.start env k).log := faithful.spaces
    change (stdStreams _ _ _ s).InMemory (k.spaces p) _
    rw [spaces, Journal.start, image, (only p).mp mem]
    change (stdStreams _ _ _ s).InMemory ((Function.update (fun _ _ => none) k.curthread
      (programImage env.initrd.bytes bin (env.initrd.segments bin)) : Nat → Nat → Option UInt8) k.curthread) _
    rw [Function.update_self]
    exact begins _ image s

theorem Tty.Reached.holds {init : List Block} {env : Env} {layout : List UInt8 → StdLayout} {font : Font}
    {fb : Fbdev} {t : Tty} (reached : t.Reached env layout font fb init) :
    t.Holds init font fb (layout (pathBytes "/sbin/init")) := by
  obtain ⟨k₀, k₁, k₂, entry, atBoot, tables, snug, booted, sched, begins, run⟩ := reached
  exact run.invariant _ (Tty.start_holds (boot_started atBoot booted sched) tables snug sched begins)
    fun _ _ _ inv ok done => inv.step ok done

def stdioSegment : Proghdr := ⟨1, 84, 0x400000, 32, 0x1000⟩

def stdioLayout : StdLayout where
  file := fun s => if s = .stdout then 0x400000 else 0x400010
  out := 0x400100
  err := 0x400600
  mem := fun _ => 0

def stdioWords : List (Nat × Nat) :=
  [(88, 0x400104), (92, 0x400104), (96, 0x400504), (104, 0x400604), (108, 0x400604), (112, 0x400604)]

def stdioEnv : Env :=
  let env := smallEnv stdioSegment
  { env with initrd := { env.initrd with
    bytes := stdioWords.foldl (fun m w => store32 m (0x80300000 + w.1) w.2) env.initrd.bytes } }

theorem stdioEnv_program : stdioEnv.initrd.program (pathBytes "/sbin/init") = some 0x80300000 := by
  decide +kernel

theorem stdioEnv_segments : stdioEnv.initrd.segments 0x80300000 = [stdioSegment] := by decide +kernel

theorem stdioEnv_tables : TablesAtBoot stdioEnv smallKernel :=
  ⟨fun _ _ _ => rfl, segsOk_program stdioEnv_program stdioEnv_segments (by decide) (by decide)⟩

theorem stdioEnv_snug : SnugInit stdioEnv := by
  intro bin file
  rw [stdioEnv_program] at file
  cases file
  rw [stdioEnv_segments]
  decide

theorem stdioEnv_begins : ∀ image, stdioEnv.image (pathBytes "/sbin/init") = some image →
    stdioLayout.Begins image := by
  intro image found
  rw [Env.image, stdioEnv_program, Option.map_some, stdioEnv_segments] at found
  cases found
  rintro (_ | _)
  · decide +kernel
  · decide +kernel

theorem stdioRun : ∃ t : Tty,
    t.Reached stdioEnv (fun _ => stdioLayout) (fun _ _ => 255) smallFb smallFree ∧
      t.journal.kernel.created = [0x80001F98, 0x8000BF98] ∧ t.inside 2 = false ∧ t.file 2 .stdout = 0x400000 ∧
      pendingAt (t.journal.kernel.spaces 0x8000BF98) 0x400000 = [some 105] := by
  let step := Tty.step stdioEnv (fun _ => stdioLayout) (fun _ _ => 255) smallFb
  have result : (initsys stdioEnv smallKernel >>= fun k₁ => initSched k₁ 0 >>= fun k₂ =>
      step (.start stdioEnv (fun _ => stdioLayout) k₂) (.print (.fputc 105 .stdout)) >>= fun t₁ =>
      step t₁ (.store 0x400104 105) >>= fun t₂ => step t₂ (.store 0x400008 5) >>= fun t₃ =>
      step t₃ .back >>= fun t₄ => step t₄ (.call (.other .fork)) >>= fun t₅ =>
      (.ok (decide (t₁.inside t₁.self = true ∧ t₂.inside t₂.self = true ∧
          t₃.script.terminal.unsent t₃.self = [] ∧
          (t₃.script.terminal.streams t₃.self .stdout).InMemory t₃.space (t₃.file t₃.self .stdout) ∧
          (t₃.script.terminal.streams t₃.self .stderr).InMemory t₃.space (t₃.file t₃.self .stderr) ∧
          t₄.inside t₄.self = false ∧ t₄.journal.kernel.pid ≤ maxprocs ∧
          span (t₄.journal.kernel.memtab t₄.journal.kernel.proc.pid).regions ≤
            pgRoundup (t₄.journal.kernel.memtab t₄.journal.kernel.proc.pid).sz),
        decide (t₅.journal.kernel.created = [0x80001F98, 0x8000BF98] ∧ t₅.inside 2 = false ∧
          t₅.file 2 .stdout = 0x400000 ∧
          pendingAt (t₅.journal.kernel.spaces 0x8000BF98) 0x400000 = [some 105])) : Except Halt _)) =
        .ok (true, true) := by
    decide +kernel
  obtain ⟨k₁, booted, afterBoot⟩ := bind_eq_ok.mp result
  obtain ⟨k₂, scheduled, afterSched⟩ := bind_eq_ok.mp afterBoot
  obtain ⟨t₁, printed, afterPrint⟩ := bind_eq_ok.mp afterSched
  obtain ⟨t₂, letter, afterLetter⟩ := bind_eq_ok.mp afterPrint
  obtain ⟨t₃, pointer, afterPointer⟩ := bind_eq_ok.mp afterLetter
  obtain ⟨t₄, back, afterBack⟩ := bind_eq_ok.mp afterPointer
  obtain ⟨t₅, forked, values⟩ := bind_eq_ok.mp afterBack
  simp only [Except.ok.injEq, Prod.mk.injEq, decide_eq_true_eq] at values
  obtain ⟨⟨in₁, in₂, unsent, out, err, out₄, slot, room⟩, last⟩ := values
  have store : ∀ {t : Tty} {va : Nat} {byte : UInt8}, t.inside t.self = true →
      t.Allowed stdioEnv (fun _ => stdioLayout) (.store va byte) := by
    intro t va byte inStdio outside
    rw [inStdio] at outside
    cases outside
  have holding : t₃.Holding t₃.journal.kernel.curthread := by
    rintro (_ | _)
    · exact out
    · exact err
  have steady : t₄.journal.kernel.Steady stdioEnv (.call (.other .fork)) := by
    obtain ⟨j, stepped, _⟩ := bind_eq_ok.mp forked
    refine Journal.steady stepped fun call same => ?_
    cases same
    exact Kernel.not_overruns_fork slot room
  have run : Runs step (Tty.Allowed stdioEnv fun _ => stdioLayout) _ t₅ :=
    .snoc (.call (.other .fork)) (.snoc .back (.snoc (.store 0x400008 5) (.snoc (.store 0x400104 105)
      (.snoc (.print (.fputc 105 .stdout)) .refl ⟨rfl, trivial⟩ printed) (store in₁) letter) (store in₂) pointer)
      ⟨unsent, holding⟩ back) ⟨⟨slot, fun _ => room⟩, steady, out₄⟩ forked
  exact ⟨t₅, ⟨_, _, _, _, smallKernel_atBoot, stdioEnv_tables, stdioEnv_snug, booted, scheduled,
    stdioEnv_begins, run⟩, last⟩

/-- Printing on the kernel is printing on a terminal: whatever the processes do, what the
console got from one that is not in the middle of a call, and behind it what the kernel keeps
in the buffers of its memory, is all that its program printed; and the driver draws the text
that the bytes of all of them make when their lines fit. -/
theorem ttys_in_order {init : List Block} {env : Env} {layout : List UInt8 → StdLayout} {font : Font}
    {fb : Fbdev} {t : Tty} (reached : t.Reached env layout font fb init) :
    (∃ out err mem, Typescript.Reached font fb out err mem t.script) ∧
    (∀ p ∈ t.journal.kernel.created, t.inside (t.journal.kernel.number p) = false → ∀ s,
      (bytesOf s (t.script.sentBy (t.journal.kernel.number p))).map some ++
          pendingAt (t.journal.kernel.spaces p) (t.file (t.journal.kernel.number p) s) =
        (t.script.said (t.journal.kernel.number p) s).map some) ∧
    (LinesFit fb.cols 0 t.script.bytes → t.script.terminal.screen.accesses =
      (text fb.cols ⟨0, 0⟩ t.script.bytes).flatMap (Drawn.accesses font fb)) := by
  have holds := reached.holds
  have order := holds.script.inOrder
  refine ⟨⟨_, _, _, holds.script⟩, fun p mem out s => ?_, fun fit => ?_⟩
  · have told := order.told (t.journal.kernel.number p) s
    rw [holds.quiet _ out, bytesOf_nil, List.append_nil] at told
    rw [(holds.held p mem out s).pendingAt_eq, ← told, List.map_append]
  · rw [order.screen, (@fbconCells_text_iff fb t.script.bytes ⟨0, 0⟩ (Nat.zero_le _)).mpr fit]

theorem ttys_in_order_fork : ∃ t : Tty, t.journal.kernel.created = [0x80001F98, 0x8000BF98] ∧
    pendingAt (t.journal.kernel.spaces 0x8000BF98) 0x400000 = [some 105] ∧
      (bytesOf .stdout (t.script.sentBy 2)).map some ++ [some 105] = (t.script.said 2 .stdout).map some := by
  obtain ⟨t, reached, created, inside, file, pending⟩ := stdioRun
  have number : t.journal.kernel.number 0x8000BF98 = 2 := by
    rw [Kernel.number, created]
    rfl
  have child : 0x8000BF98 ∈ t.journal.kernel.created := by
    rw [created]
    decide
  have told := (ttys_in_order reached).2.1 0x8000BF98 child (by rw [number]; exact inside) .stdout
  rw [number, file, pending] at told
  exact ⟨t, created, pending, told⟩

end Trunix
