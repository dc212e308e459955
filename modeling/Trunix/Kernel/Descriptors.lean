import Trunix.Kernel.Boot

/-!
# The table of open files

`sys_open` again, on `struct proc` as it lies in memory.  Behind the slots of `ofile` comes
the state of the process, and the search for an empty slot looks at a slot before it looks
at the bound.  A process that makes a call is `RUNNING`, which is zero like an empty slot.
-/

set_option autoImplicit false

namespace Trunix

open Trunix.Lib

def PState.word : PState → Nat
  | .running => 0
  | .ready => 1
  | .sleeping => 2
  | .blocked => 3
  | .dead => 4

/-- The kernel during the calls of one process.  `state` is the word that holds the state of
this process, which need not be one of the values of `PState`; the field of the process in
`kernel` is not used. -/
structure Caller where
  kernel : Kernel
  state : Nat

def Kernel.caller (k : Kernel) : Caller := ⟨k, k.proc.state.word⟩

def Caller.slot (c : Caller) (fd : Nat) : Nat :=
  if inside : fd < maxfiles then c.kernel.proc.ofile ⟨fd, inside⟩ else c.state

def Caller.setSlot (c : Caller) (fd f : Nat) : Caller :=
  if inside : fd < maxfiles then
    let p := c.kernel.proc
    let p := { p with ofile := Function.update p.ofile ⟨fd, inside⟩ f }
    { c with kernel := c.kernel.setProc c.kernel.curthread p }
  else { c with state := f }

/-- The loop over the slots from `fd` on; its test is made at most `fuel` times. -/
def Caller.freeSlot (c : Caller) : Nat → Nat → Option Nat
  | 0, _ => none
  | fuel + 1, fd =>
      if c.slot fd = 0 then some fd
      else if maxfiles ≤ fd then none
      else c.freeSlot fuel (fd + 1)

/-- `sys_open` in the monad of `driver`, the open function of the driver for a file. -/
def Caller.sysOpenWith {M : Type → Type} [Monad M] (lift : ∀ {α : Type}, Except Halt α → M α)
    (driver : Kernel → Nat → M Kernel) (env : Env) (c : Caller) (path : List UInt8) :
    M (Int × Caller) :=
  match env.initrd.lookup path with
  | none => return (-1, c)
  | some i =>
      match c.freeSlot (maxfiles + 1) 0 with
      | none => return (-1, c)
      | some fd => do
          let (f, s) ← lift (c.kernel.store.kmalloc 12)
          let c : Caller := { c with kernel := { c.kernel with store := s } }
          let c := c.setSlot fd f
          lift (touch f 12)
          let k := { c.kernel with
            files := Function.update c.kernel.files f { c.kernel.files f with inode := i } }
          let k ← driver k f
          return ((fd : Int), { c with kernel := k })

def Caller.sysOpen (env : Env) (c : Caller) (path : List UInt8) : Except Halt (Int × Caller) :=
  c.sysOpenWith (fun x => x) (cdevOpen env 16) env path

def Caller.step (env : Env) (c : Caller) (path : List UInt8) : Except Halt Caller := do
  let (_, c) ← c.sysOpen env path
  return c

/-! ## The search for a slot -/

theorem freeFd_eq_some {p : Proc} {fd : Fin maxfiles} :
    freeFd p = some fd ↔ p.ofile fd = 0 ∧ ∀ e < fd, p.ofile e ≠ 0 := by
  rw [freeFd, List.find?_eq_some_iff_getElem]
  constructor
  · rintro ⟨empty, i, lt, here, before⟩
    have place : fd.val = i := by
      rw [← here, List.getElem_finRange]
      rfl
    refine ⟨of_decide_eq_true empty, fun e below => ?_⟩
    have used := before e.val (by omega)
    simpa using used
  · rintro ⟨empty, before⟩
    refine ⟨decide_eq_true empty, fd.val, by simp, by simp, fun j below => ?_⟩
    have used := before ⟨j, by omega⟩ below
    simpa using used

theorem freeFd_eq_none {p : Proc} : freeFd p = none ↔ ∀ fd, p.ofile fd ≠ 0 := by
  rw [freeFd, List.find?_eq_none]
  simp

/-- The loop stops at the first empty slot, and the state counts as one. -/
theorem Caller.freeSlot_first (c : Caller) {e : Nat} (last : e ≤ maxfiles) (empty : c.slot e = 0) :
    ∀ (fuel fd : Nat), fd + fuel = maxfiles + 1 → fd ≤ e → (∀ i, fd ≤ i → i < e → c.slot i ≠ 0) →
      c.freeSlot fuel fd = some e := by
  intro fuel
  induction fuel with
  | zero => intro fd total le _; omega
  | succ fuel ih =>
      intro fd total le used
      by_cases here : fd = e
      · rw [freeSlot, here, if_pos empty]
      · have full := used fd (Nat.le_refl fd) (by omega)
        have inside : ¬ maxfiles ≤ fd := by omega
        rw [freeSlot, if_neg full, if_neg inside]
        exact ih (fd + 1) (by omega) (by omega) fun i lo hi => used i (by omega) hi

theorem Caller.freeSlot_none (c : Caller) : ∀ (fuel fd : Nat), fd + fuel = maxfiles + 1 →
    (∀ i, fd ≤ i → i ≤ maxfiles → c.slot i ≠ 0) → c.freeSlot fuel fd = none := by
  intro fuel
  induction fuel with
  | zero => intro fd _ _; rfl
  | succ fuel ih =>
      intro fd total used
      rw [freeSlot, if_neg (used fd (Nat.le_refl fd) (by omega))]
      by_cases last : maxfiles ≤ fd
      · rw [if_pos last]
      · rw [if_neg last]
        exact ih (fd + 1) (by omega) fun i lo hi => used i (by omega) hi

theorem Caller.freeSlot_eq (c : Caller) : c.freeSlot (maxfiles + 1) 0 =
    match freeFd c.kernel.proc with
    | some fd => some fd.val
    | none => if c.state = 0 then some maxfiles else none := by
  have slot : ∀ fd : Fin maxfiles, c.slot fd.val = c.kernel.proc.ofile fd := fun fd => dif_pos fd.isLt
  have behind : c.slot maxfiles = c.state := dif_neg (Nat.lt_irrefl _)
  cases found : freeFd c.kernel.proc with
  | some fd =>
      obtain ⟨empty, before⟩ := freeFd_eq_some.mp found
      refine c.freeSlot_first (Nat.le_of_lt fd.isLt) ((slot fd).trans empty) _ 0 (Nat.zero_add _)
        (Nat.zero_le _) fun i _ below => ?_
      rw [slot ⟨i, by omega⟩]
      exact before ⟨i, by omega⟩ below
  | none =>
      have full := freeFd_eq_none.mp found
      have used : ∀ i < maxfiles, c.slot i ≠ 0 := by
        intro i lt
        rw [slot ⟨i, lt⟩]
        exact full ⟨i, lt⟩
      by_cases running : c.state = 0
      · simp only [if_pos running]
        exact c.freeSlot_first (Nat.le_refl _) (behind.trans running) _ 0 (Nat.zero_add _)
          (Nat.zero_le _) fun i _ below => used i below
      · simp only [if_neg running]
        refine c.freeSlot_none _ 0 (Nat.zero_add _) fun i _ le => ?_
        rcases Nat.lt_or_eq_of_le le with lt | last
        · exact used i lt
        · rw [last, behind]
          exact running

/-! ## One call -/

/-- The end of `sys_open`, but for the slot: the new file and the call of its driver. -/
def openFile (env : Env) (k : Kernel) (i : Nat) : Except Halt (Nat × Kernel) := do
  let (f, s) ← k.store.kmalloc 12
  touch f 12
  let k := { k with store := s, files := Function.update k.files f { k.files f with inode := i } }
  let k ← cdevOpen env 16 k f
  return (f, k)

theorem cdevOpen_procs {env : Env} (procs : Nat → Proc) : ∀ (fuel : Nat) (k : Kernel) (f : Nat),
    cdevOpen env fuel { k with procs := procs } f = do
      let k' ← cdevOpen env fuel k f
      return { k' with procs := procs } := by
  intro fuel
  induction fuel with
  | zero => intro k f; rfl
  | succ fuel ih =>
      intro k f
      rw [cdevOpen, cdevOpen]
      simp only
      split
      · simp only [bind_assoc]
        refine bind_congr_ok fun r _ => bind_congr_ok fun _ _ => ?_
        cases env.initrd.lookup (pathBytes "/dev/fb") with
        | none => rfl
        | some i =>
            simp only [bind_assoc]
            refine bind_congr_ok fun r' _ => ?_
            by_cases null : r'.1 = 0
            · simp only [if_pos null]
              rfl
            · simp only [if_neg null]
              let files := Function.update k.files f { k.files f with data := r.1 }
              let files := Function.update files r'.1 { files r'.1 with inode := i }
              exact ih { k with store := r'.2, files := files } r'.1
      · simp only [bind_assoc]
        exact bind_congr_ok fun r _ => bind_congr_ok fun _ _ => rfl
      · rfl

theorem Caller.setSlot_eq (c : Caller) (k : Kernel) (fd f : Nat) (procs : k.procs = c.kernel.procs)
    (current : k.curthread = c.kernel.curthread) : Caller.setSlot { c with kernel := k } fd f =
      ⟨{ k with procs := (c.setSlot fd f).kernel.procs }, (c.setSlot fd f).state⟩ := by
  by_cases inside : fd < maxfiles
  · simp only [setSlot, dif_pos inside, Kernel.setProc, Kernel.proc, procs, current]
  · simp only [setSlot, dif_neg inside, ← procs]

theorem Caller.sysOpen_eq {env : Env} {c : Caller} {path : List UInt8} {i fd : Nat}
    (found : env.initrd.lookup path = some i) (slot : c.freeSlot (maxfiles + 1) 0 = some fd) :
    c.sysOpen env path = do
      let (f, k) ← openFile env c.kernel i
      return ((fd : Int), Caller.setSlot { c with kernel := k } fd f) := by
  rw [sysOpen, sysOpenWith, found]
  simp only [slot, openFile, bind_assoc]
  refine bind_congr_ok fun r taken => ?_
  obtain ⟨f, s⟩ := r
  have before := c.setSlot_eq { c.kernel with store := s } fd f rfl rfl
  have after := fun k => c.setSlot_eq k fd f
  generalize (c.setSlot fd f).kernel.procs = procs at before after
  generalize (c.setSlot fd f).state = state at before after
  rw [before]
  refine bind_congr_ok fun _ _ => ?_
  let k := { c.kernel with
    store := s, files := Function.update c.kernel.files f { c.kernel.files f with inode := i } }
  have ignored := @cdevOpen_procs env procs 16 k f
  simp only [k] at ignored
  rw [ignored, bind_assoc]
  refine bind_congr_ok fun k' opened => ?_
  have same := (sameBytes_taking.cdevOpen 16 _ f opened).2
  have result := after k' (by rw [same]) (by rw [same])
  show Except.ok _ = Except.ok _
  rw [result]

/-- Where a slot is empty the call is the one of the rest of the kernel. -/
theorem Caller.sysOpen_kernel {env : Env} {k : Kernel} {path : List UInt8} {fd : Fin maxfiles}
    (room : freeFd k.proc = some fd) : k.caller.sysOpen env path = do
      let (r, k') ← Trunix.sysOpen env k path
      return (r, ⟨k', k.proc.state.word⟩) := by
  have slot : k.caller.freeSlot (maxfiles + 1) 0 = some fd.val := by
    rw [freeSlot_eq, Kernel.caller, room]
  rw [sysOpen, sysOpenWith, Trunix.sysOpen]
  cases env.initrd.lookup path with
  | none => rfl
  | some i =>
      simp only [slot, room, setSlot, dif_pos fd.isLt, bind_assoc]
      rfl

/-- What a call that returned `r` has done to the process: nothing, or it filled the empty
slot of the descriptor that it returned. -/
structure Caller.Opened (c : Caller) (r : Int) (c' : Caller) : Prop where
  current : c'.kernel.curthread = c.kernel.curthread
  state : c'.state = c.state
  slot : (r = -1 ∧ c'.kernel.proc = c.kernel.proc) ∨
    ∃ fd : Fin maxfiles, r = (fd.val : Int) ∧ c.kernel.proc.ofile fd = 0 ∧ ∃ f, c'.kernel.proc =
      { c.kernel.proc with ofile := Function.update c.kernel.proc.ofile fd f }
  full : (∀ fd, c.kernel.proc.ofile fd ≠ 0) → r = -1 ∧ c'.kernel.proc = c.kernel.proc

def Caller.OpensWithin (env : Env) (c : Caller) (path : List UInt8) : Prop :=
  ∃ r c', c.sysOpen env path = .ok (r, c') ∧ c.Opened r c'

def Caller.CanOpen (env : Env) (c : Caller) (path : List UInt8) : Prop :=
  ∀ i, env.initrd.lookup path = some i →
    (∃ fd, c.kernel.proc.ofile fd = 0) ∧ ∃ r, openFile env c.kernel i = .ok r

theorem openFile_same {env : Env} {k k' : Kernel} {i f : Nat} (done : openFile env k i = .ok (f, k')) :
    k' = { k with store := k'.store, files := k'.files, fbdevs := k'.fbdevs } := by
  obtain ⟨r, _, afterAlloc⟩ := bind_eq_ok.mp done
  obtain ⟨_, _, afterTouch⟩ := bind_eq_ok.mp afterAlloc
  obtain ⟨k₁, opened, result⟩ := bind_eq_ok.mp afterTouch
  have same := (sameBytes_taking.cdevOpen 16 _ _ opened).2
  cases result
  exact same

theorem Caller.opened_none (c : Caller) : c.Opened (-1) c :=
  ⟨rfl, rfl, Or.inl ⟨rfl, rfl⟩, fun _ => ⟨rfl, rfl⟩⟩

theorem Caller.opened_slot {env : Env} {c : Caller} {k : Kernel} {i f : Nat} {fd : Fin maxfiles}
    (empty : c.kernel.proc.ofile fd = 0) (done : openFile env c.kernel i = .ok (f, k)) :
    c.Opened (fd.val : Int) (Caller.setSlot { c with kernel := k } fd.val f) := by
  have same := openFile_same done
  have procs : k.procs = c.kernel.procs := by rw [same]
  have current : k.curthread = c.kernel.curthread := by rw [same]
  simp only [setSlot, dif_pos fd.isLt]
  refine ⟨current, rfl, Or.inr ⟨fd, rfl, empty, f, ?_⟩, fun full => absurd empty (full fd)⟩
  simp only [Kernel.setProc, Kernel.proc, Function.update_self, procs, current]

theorem Caller.opensWithin_iff {env : Env} {c : Caller} (running : c.state = 0) (path : List UInt8) :
    c.OpensWithin env path ↔ c.CanOpen env path := by
  constructor
  · rintro ⟨r, c', done, opened⟩ i found
    have searched := c.freeSlot_eq
    cases free : freeFd c.kernel.proc with
    | some fd =>
        rw [free] at searched
        obtain ⟨file, made, _⟩ := bind_eq_ok.mp ((sysOpen_eq found searched).symm.trans done)
        exact ⟨⟨fd, (freeFd_eq_some.mp free).1⟩, file, made⟩
    | none =>
        -- the state is taken for a slot, and the descriptor is out of range
        simp only [free, if_pos running] at searched
        obtain ⟨file, made, result⟩ := bind_eq_ok.mp ((sysOpen_eq found searched).symm.trans done)
        have number : (maxfiles : Int) = r := congrArg Prod.fst (Except.ok.inj result)
        have refused := (opened.full (freeFd_eq_none.mp free)).1
        rw [refused] at number
        exact absurd number (by decide)
  · intro can
    cases found : env.initrd.lookup path with
    | none =>
        refine ⟨-1, c, ?_, c.opened_none⟩
        rw [sysOpen, sysOpenWith, found]
        rfl
    | some i =>
        obtain ⟨⟨e, empty⟩, ⟨f, k⟩, made⟩ := can i found
        cases free : freeFd c.kernel.proc with
        | none => exact absurd empty (freeFd_eq_none.mp free e)
        | some fd =>
            have searched := c.freeSlot_eq
            rw [free] at searched
            refine ⟨fd.val, _, ?_, opened_slot (freeFd_eq_some.mp free).1 made⟩
            rw [sysOpen_eq found searched, made]
            rfl

/-- In every sequence of calls by a running process, each call keeps to the table of the
process exactly when each call, where it finds its path, also finds an empty slot, memory
for the file and a driver that opens it.  An access through `NULL` counts as a stop, as it is
one where the first page is not mapped. -/
theorem sys_open_within_iff {env : Env} {c : Caller} (running : c.state = 0)
    (paths : List (List UInt8)) :
    Along (Caller.step env) (Caller.OpensWithin env) c paths ↔
      Along (Caller.step env) (Caller.CanOpen env) c paths := by
  refine along_iff (fun c => c.state = 0) (fun c path running => Caller.opensWithin_iff running path)
    (fun c c' path running can done => ?_) c running
  obtain ⟨r, c₁, called, opened⟩ := (Caller.opensWithin_iff running path).mpr can
  rw [Caller.step, called] at done
  cases done
  exact opened.state.trans running

/-- A file is opened, and a path that is not there is refused. -/
theorem sys_open_within_two : smallKernel.caller.state = 0 ∧
    Along (Caller.step (smallEnv alignedSegment)) (Caller.OpensWithin (smallEnv alignedSegment))
      smallKernel.caller [pathBytes "/dev/fb", pathBytes "/none"] := by
  have file : (smallEnv alignedSegment).initrd.lookup (pathBytes "/dev/fb") = some 4 := by decide
  have none : (smallEnv alignedSegment).initrd.lookup (pathBytes "/none") = none := by decide
  have first : smallKernel.caller.CanOpen (smallEnv alignedSegment) (pathBytes "/dev/fb") := by
    intro i found
    rw [file] at found
    cases found
    exact ⟨⟨⟨0, by decide⟩, rfl⟩, exists_eq_ok (by decide +kernel)⟩
  refine ⟨rfl, (sys_open_within_iff rfl _).mpr ⟨first, fun c _ => ⟨fun i found => ?_, fun _ _ => trivial⟩⟩⟩
  rw [none] at found
  cases found

/-- The call that finds the table full returns the descriptor behind the last one, and the
state of the process is gone. -/
theorem sys_open_overruns : ¬ Along (Caller.step (smallEnv alignedSegment))
    (Caller.OpensWithin (smallEnv alignedSegment)) smallKernel.caller
    (List.replicate 17 (pathBytes "/dev/fb")) := by
  intro along
  have run : ((List.replicate 16 (pathBytes "/dev/fb")).foldlM (Caller.step (smallEnv alignedSegment))
      smallKernel.caller >>= fun c => c.sysOpen (smallEnv alignedSegment) (pathBytes "/dev/fb")).toOption.map
        (fun r => (r.1, decide (r.2.state = 0))) = some (16, false) := by
    decide +kernel
  obtain ⟨r, called, values⟩ := Option.map_eq_some_iff.mp run
  obtain ⟨c, before, last⟩ := bind_eq_ok.mp (ok_of_toOption called)
  have number : r.1 = 16 := congrArg Prod.fst values
  have split : List.replicate 17 (pathBytes "/dev/fb") =
      List.replicate 16 (pathBytes "/dev/fb") ++ [pathBytes "/dev/fb"] := rfl
  rw [split] at along
  obtain ⟨r', c', done, opened⟩ := along.reached before
  rw [last] at done
  cases done
  simp only at number
  rcases opened.slot with ⟨refused, _⟩ | ⟨fd, inside, _⟩
  · omega
  · have lt := fd.isLt
    have size : maxfiles = 16 := rfl
    omega

end Trunix
