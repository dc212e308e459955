import Trunix.Kernel.Syscall
import Trunix.Kernel.Astray
import Trunix.Kernel.Descriptors
import Trunix.Kernel.Archive
import Trunix.Kernel.Transfer

/-!
# Calls of drivers

`file_open`, `sys_open`, `sys_read`, `sys_write` and `sys_mmap` call a driver through
`cdevs[inode->major]` whatever the type of the inode is, and whatever number the archive
has for the major.  The log of a call lists these driver calls in their order, the one of
the console for the framebuffer among them.
-/

set_option autoImplicit false

namespace Trunix

open Trunix.Lib

/-! ## The table of drivers -/

inductive FileOp where
  | open
  | close
  | read
  | write
  | mmap
  | ioctl
  deriving DecidableEq, Repr

def consoleOps : List FileOp := [.open, .close, .read, .write]

def fbdevOps : List FileOp := [.open, .close, .read, .write, .mmap]

def cdevs : List (List FileOp) := [consoleOps, fbdevOps]

structure DriverCall where
  op : FileOp
  inode : DiskInode
  deriving DecidableEq, Repr

/-- The call goes to an operation of a registered driver, and for a character device. -/
structure DriverCall.Registered (c : DriverCall) : Prop where
  device : c.inode.type = .char
  entry : ∃ ops, cdevs[c.inode.major]? = some ops ∧ c.op ∈ ops

abbrev Calling := Logged DriverCall Halt

def callDriver (op : FileOp) (inode : DiskInode) : Calling Unit := ⟨[⟨op, inode⟩], .ok ()⟩

def Env.onDisk (env : Env) (disk : Nat → DiskInode) : Env :=
  { env with initrd := { env.initrd with inode := fun i => (disk i).toInode } }

@[simp] theorem Env.onDisk_lookup (env : Env) (disk : Nat → DiskInode) (path : List UInt8) :
    (env.onDisk disk).initrd.lookup path = env.initrd.lookup path := rfl

@[simp] theorem Env.onDisk_inode (env : Env) (disk : Nat → DiskInode) (i : Nat) :
    (env.onDisk disk).initrd.inode i = (disk i).toInode := rfl

/-! ## The calls -/

def cdevOpenCalls (env : Env) (disk : Nat → DiskInode) : Nat → Kernel → Nat → Calling Kernel
  | 0, _, _ => Logged.silent (.error .loops)
  | fuel + 1, k, f => do
      let inode := disk (k.files f).inode
      callDriver .open inode
      match inode.major with
      | 0 => do
          let (data, s) ← Logged.silent (k.store.kmalloc 8)
          let (_, s) := s.allocPages 0x1000
          Logged.silent (touch data 8)
          let k := { k with
            store := s, files := Function.update k.files f { k.files f with data := data } }
          match env.initrd.lookup (pathBytes "/dev/fb") with
          | none => Logged.silent (.error .assertion)
          | some i => do
              let (fb, s) ← Logged.silent (k.store.kmalloc 12)
              if fb = 0 then Logged.silent (.error .assertion)
              else
                let k := { k with
                  store := s, files := Function.update k.files fb { k.files fb with inode := i } }
                cdevOpenCalls env disk fuel k fb
      | 1 => do
          let (fb, s) ← Logged.silent (k.store.kmalloc 28)
          Logged.silent (touch fb 28)
          return { k with
            store := s
            fbdevs := Function.update k.fbdevs fb env.framebuffer
            files := Function.update k.files f { k.files f with data := fb } }
      | _ => Logged.silent (.error .bounds)

def Caller.sysOpenCalls (env : Env) (disk : Nat → DiskInode) (c : Caller) (path : List UInt8) :
    Calling (Int × Caller) :=
  c.sysOpenWith Logged.silent (cdevOpenCalls env disk 16) env path

def Caller.fileAt (c : Caller) (fd : Nat) : Except Halt Nat :=
  if fd ≤ maxfiles then .ok (c.slot fd) else .error .bounds

structure Session where
  caller : Caller
  cursor : Cursor

def Session.screened (s : Session) : Screened := ⟨s.caller.kernel, s.cursor⟩

def Session.transferCalls (op : FileOp) (driver : Screened → Nat → Nat → Nat → Nat → Except Halt Screened)
    (disk : Nat → DiskInode) (s : Session) (fd buf count : Nat) : Calling (Int × Session) := do
  let f ← Logged.silent (s.caller.fileAt fd)
  if f = 0 then return (-1, s)
  else
    let inode := disk (s.caller.kernel.files f).inode
    callDriver op inode
    let t ← Logged.silent (driver s.screened inode.major f buf count)
    return (0, ⟨{ s.caller with kernel := t.kernel }, t.cursor⟩)

def Caller.mmapFile (c : Caller) (fd : Nat) (k : Kernel) : Calling Nat :=
  Logged.silent (Caller.fileAt { c with kernel := k } fd)

def cdevMmapCalls (env : Env) (disk : Nat → DiskInode) (k : Kernel) (f mem : Nat) : Calling Nat := do
  callDriver .mmap (disk (k.files f).inode)
  Logged.silent (cdevMmap (env.onDisk disk) k f mem)

def Caller.sysMmapCalls (env : Env) (disk : Nat → DiskInode) (c : Caller) (len flags fd : Nat) :
    Calling (Nat × Caller) := do
  let (a, k) ← sysMmapLogged (c.mmapFile fd) (cdevMmapCalls env disk) c.kernel len flags
  return (a, { c with kernel := k })

inductive DeviceCall where
  | open (path : List UInt8)
  | read (fd buf count : Nat)
  | write (fd buf count : Nat)
  | mmap (len flags fd : Nat)

def Session.device (v : Video) (env : Env) (disk : Nat → DiskInode) (s : Session) :
    DeviceCall → Calling Session
  | .open path => do
      let (_, c) ← s.caller.sysOpenCalls env disk path
      return { s with caller := c }
  | .read fd buf count => do
      let (_, s) ← s.transferCalls .read cdevRead disk fd buf count
      return s
  | .write fd buf count => do
      let (_, s) ← s.transferCalls .write (cdevWrite v env) disk fd buf count
      return s
  | .mmap len flags fd => do
      let (_, c) ← s.caller.sysMmapCalls env disk len flags fd
      return { s with caller := c }

/-! ## The log does not change what is computed -/

theorem cdevOpenCalls_result {env : Env} {disk : Nat → DiskInode} : ∀ (fuel : Nat) (k : Kernel)
    (f : Nat), (cdevOpenCalls env disk fuel k f).result = cdevOpen (env.onDisk disk) fuel k f := by
  intro fuel
  induction fuel with
  | zero => intro k f; rfl
  | succ fuel ih =>
      intro k f
      rw [cdevOpenCalls, cdevOpen, Env.onDisk_inode, Env.onDisk_lookup]
      simp only [Logged.result_bind, callDriver, ok_bind]
      rcases (disk (k.files f).inode).major with _ | _ | major
      · simp only [Logged.result_bind, Logged.result_silent]
        refine bind_congr_ok fun r _ => bind_congr_ok fun _ _ => ?_
        cases env.initrd.lookup (pathBytes "/dev/fb") with
        | none => rfl
        | some i =>
            simp only [Logged.result_bind, Logged.result_silent]
            refine bind_congr_ok fun r' _ => ?_
            by_cases null : r'.1 = 0
            · simp only [if_pos null]
              rfl
            · simp only [if_neg null]
              exact ih _ _
      · simp only [Logged.result_bind, Logged.result_silent]
        rfl
      · rfl

theorem Caller.sysOpenCalls_result {env : Env} {disk : Nat → DiskInode} {c : Caller}
    {path : List UInt8} : (c.sysOpenCalls env disk path).result = c.sysOpen (env.onDisk disk) path := by
  rw [sysOpenCalls, sysOpenWith, sysOpen, sysOpenWith, Env.onDisk_lookup]
  cases env.initrd.lookup path with
  | none => rfl
  | some i =>
      simp only
      cases c.freeSlot (maxfiles + 1) 0 with
      | none => rfl
      | some fd =>
          simp only [Logged.result_bind, Logged.result_silent, cdevOpenCalls_result]
          rfl

theorem Caller.fileAt_inside {c : Caller} {fd : Nat} (inside : fd < maxfiles) :
    c.fileAt fd = (ofileAt c.kernel.proc fd).result := by
  rw [fileAt, if_pos (Nat.le_of_lt inside), slot, dif_pos inside, ofileAt, dif_pos inside]

theorem Session.transferCalls_result {op : FileOp}
    {driver : Screened → Nat → Nat → Nat → Nat → Except Halt Screened} {env : Env}
    {disk : Nat → DiskInode} {s : Session} {fd buf count : Nat} (inside : fd < maxfiles) :
    ((s.transferCalls op driver disk fd buf count).result.map fun r => (r.1, r.2.caller.kernel)) =
      (transfer (env.onDisk disk)
        (fun major k f buf count => (driver ⟨k, s.cursor⟩ major f buf count).map Screened.kernel)
        s.caller.kernel fd buf count).result := by
  rw [transferCalls, transfer, Logged.result_bind, Logged.result_bind, Logged.result_silent,
    Caller.fileAt_inside inside]
  cases (ofileAt s.caller.kernel.proc fd).result with
  | error h => rfl
  | ok f =>
      simp only [ok_bind]
      by_cases closed : f = 0
      · simp only [if_pos closed]
        rfl
      · simp only [if_neg closed, Logged.result_bind, Logged.result_silent]
        rw [Session.screened, callDriver, ok_bind, Env.onDisk_inode]
        cases driver ⟨s.caller.kernel, s.cursor⟩ (disk (s.caller.kernel.files f).inode).major f buf count <;>
          rfl

theorem Caller.sysMmapCalls_result {env : Env} {disk : Nat → DiskInode} {c : Caller}
    {len flags fd : Nat} (inside : fd < maxfiles) : (c.sysMmapCalls env disk len flags fd).result = do
      let (a, k) ← Trunix.sysMmap (env.onDisk disk) c.kernel len flags fd
      return (a, { c with kernel := k }) := by
  have file : ∀ k, (c.mmapFile fd k).result = (ofileAt k.proc fd).result :=
    fun k => fileAt_inside (c := { c with kernel := k }) inside
  have device : ∀ k f mem, (cdevMmapCalls env disk k f mem).result = cdevMmap (env.onDisk disk) k f mem :=
    fun _ _ _ => rfl
  rw [sysMmapCalls, Logged.result_bind, sysMmapLogged_result file device]
  rfl

/-! ## Character devices -/

structure DiskInode.Device (i : DiskInode) : Prop where
  char : i.type = .char
  driver : i.major < cdevs.length

theorem callDriver_all {op : FileOp} {inode : DiskInode} :
    (callDriver op inode).All DriverCall.Registered ↔ DriverCall.Registered ⟨op, inode⟩ := by
  unfold Logged.All callDriver
  simp only [List.mem_singleton, forall_eq]

theorem registered_iff {op : FileOp} {inode : DiskInode} (both : op ∈ consoleOps) :
    DriverCall.Registered ⟨op, inode⟩ ↔ inode.Device := by
  have inFbdev : op ∈ fbdevOps := by
    revert both
    cases op <;> decide
  constructor
  · rintro ⟨char, ops, entry, _⟩
    exact ⟨char, (List.getElem?_eq_some_iff.mp entry).1⟩
  · rintro ⟨char, driver⟩
    have two : inode.major < 2 := driver
    refine ⟨char, ?_⟩
    rcases Nat.lt_succ_iff_lt_or_eq.mp two with console | fb
    · have zero : inode.major = 0 := Nat.lt_one_iff.mp console
      exact ⟨consoleOps, by simp only [zero]; rfl, both⟩
    · exact ⟨fbdevOps, by simp only [fb]; rfl, inFbdev⟩

theorem mmap_registered_iff {inode : DiskInode} (device : inode.Device) :
    DriverCall.Registered ⟨.mmap, inode⟩ ↔ inode.major = 1 := by
  have two : inode.major < 2 := device.driver
  constructor
  · rintro ⟨_, ops, entry, mem⟩
    by_contra other
    have zero : inode.major = 0 := by omega
    simp only [zero] at entry
    cases entry
    have none : FileOp.mmap ∉ consoleOps := by decide
    exact none mem
  · intro fb
    have there : FileOp.mmap ∈ fbdevOps := by decide
    exact ⟨device.char, fbdevOps, by simp only [fb]; rfl, there⟩

def Store.ServesConsole (s : Store) : Prop :=
  ∃ data s₁ fb s₂, s.kmalloc 8 = .ok (data, s₁) ∧ touch data 8 = .ok () ∧
    (s₁.allocPages 0x1000).2.kmalloc 12 = .ok (fb, s₂) ∧ fb ≠ 0

structure OpensDevice (env : Env) (disk : Nat → DiskInode) (s : Store) (i : Nat) : Prop where
  device : (disk i).Device
  nested : (disk i).major = 0 → s.ServesConsole →
    ∀ j, env.initrd.lookup (pathBytes "/dev/fb") = some j → (disk j).Device

def Kernel.nested (k : Kernel) (f data fb i : Nat) (s : Store) : Kernel :=
  let files := Function.update k.files f { k.files f with data := data }
  { k with store := s, files := Function.update files fb { files fb with inode := i } }

theorem Kernel.nested_inode (k : Kernel) (f data fb i : Nat) (s : Store) :
    ((k.nested f data fb i s).files fb).inode = i := by
  simp only [nested, Function.update_self]

section Open

variable {env : Env} {disk : Nat → DiskInode}

theorem cdevOpenCalls_succ {fuel : Nat} {k : Kernel} {f : Nat} :
    (cdevOpenCalls env disk (fuel + 1) k f).All DriverCall.Registered ↔
      (disk (k.files f).inode).Device ∧ ((disk (k.files f).inode).major = 0 →
        ∀ r, k.store.kmalloc 8 = .ok r → touch r.1 8 = .ok () →
          ∀ j, env.initrd.lookup (pathBytes "/dev/fb") = some j →
            ∀ r', (r.2.allocPages 0x1000).2.kmalloc 12 = .ok r' → r'.1 ≠ 0 →
              (cdevOpenCalls env disk fuel (k.nested f r.1 r'.1 j r'.2) r'.1).All
                DriverCall.Registered) := by
  have both : FileOp.open ∈ consoleOps := by decide
  rw [cdevOpenCalls, Logged.all_bind_ok (a := ()) rfl, callDriver_all, registered_iff both]
  refine and_congr_right fun device => ?_
  have two : (disk (k.files f).inode).major < 2 := device.driver
  by_cases console : (disk (k.files f).inode).major = 0
  · simp only [console, forall_const]
    rw [Logged.all_silent_bind]
    refine forall₂_congr fun r taken => ?_
    rw [Logged.all_silent_bind]
    constructor
    · intro all touched j found r' taken' nonnull
      have later := all () touched
      rw [found] at later
      simp only at later
      rw [Logged.all_silent_bind] at later
      have last := later r' taken'
      simp only [if_neg nonnull] at last
      exact last
    · intro all u touched
      cases found : env.initrd.lookup (pathBytes "/dev/fb") with
      | none => exact Logged.all_silent _
      | some j =>
          simp only
          rw [Logged.all_silent_bind]
          intro r' taken'
          by_cases null : r'.1 = 0
          · simp only [if_pos null]
            exact Logged.all_silent _
          · simp only [if_neg null]
            exact all touched j found r' taken' null
  · have framebuffer : (disk (k.files f).inode).major = 1 := by omega
    simp only [framebuffer, one_ne_zero, false_imp_iff, iff_true]
    rw [Logged.all_silent_bind]
    intro r _
    rw [Logged.all_silent_bind]
    intro _ _
    exact Logged.all_pure _

/-- Where `/dev/fb` is a device, every driver call of an open device is registered. -/
theorem cdevOpenCalls_registered
    (good : ∀ j, env.initrd.lookup (pathBytes "/dev/fb") = some j → (disk j).Device) :
    ∀ (fuel : Nat) (k : Kernel) (f : Nat), (disk (k.files f).inode).Device →
      (cdevOpenCalls env disk fuel k f).All DriverCall.Registered := by
  intro fuel
  induction fuel with
  | zero => intro k f _; exact Logged.all_silent _
  | succ fuel ih =>
      intro k f device
      rw [cdevOpenCalls_succ]
      refine ⟨device, fun _ r _ _ j found r' _ _ => ih _ _ ?_⟩
      rw [Kernel.nested_inode]
      exact good j found

theorem cdevOpenCalls_all {fuel : Nat} {k : Kernel} {f : Nat} :
    (cdevOpenCalls env disk (fuel + 2) k f).All DriverCall.Registered ↔
      OpensDevice env disk k.store (k.files f).inode := by
  rw [cdevOpenCalls_succ]
  constructor
  · rintro ⟨device, nested⟩
    refine ⟨device, fun console served j found => ?_⟩
    obtain ⟨data, s₁, fb, s₂, taken, touched, taken', nonnull⟩ := served
    have second := nested console ⟨data, s₁⟩ taken touched j found ⟨fb, s₂⟩ taken' nonnull
    have first := (cdevOpenCalls_succ.mp second).1
    rw [Kernel.nested_inode] at first
    exact first
  · rintro ⟨device, nested⟩
    refine ⟨device, fun console r taken touched j found r' taken' nonnull => ?_⟩
    have good := nested console ⟨r.1, r.2, r'.1, r'.2, taken, touched, taken', nonnull⟩
    refine cdevOpenCalls_registered good _ _ _ ?_
    rw [Kernel.nested_inode]
    exact good j found

end Open

/-! ## One call -/

def Caller.DevicesOnly (disk : Nat → DiskInode) (c : Caller) : Prop :=
  ∀ fd ≤ maxfiles, c.slot fd ≠ 0 → (disk (c.kernel.files (c.slot fd)).inode).Device

/-- An open that gets as far as the driver finds a device, and only the framebuffer is mapped.
Without memory for the file an open gets there when the first page is mapped. -/
def Caller.Meets (env : Env) (disk : Nat → DiskInode) (c : Caller) : DeviceCall → Prop
  | .open path => ∀ i fd f s, env.initrd.lookup path = some i →
      c.freeSlot (maxfiles + 1) 0 = some fd → c.kernel.store.kmalloc 12 = .ok (f, s) →
      touch f 12 = .ok () ∨ c.kernel.NullMapped → OpensDevice env disk s i
  | .read _ _ _ => True
  | .write _ _ _ => True
  | .mmap len flags fd => len ≠ 0 → u32 (c.kernel.proc.mmapBase + pgRoundup len) < mmapLimit →
      flags &&& mapAnon = 0 → fd ≤ maxfiles → c.slot fd ≠ 0 →
      (disk (c.kernel.files (c.slot fd)).inode).major = 1

/-- From these calls on the model does not say what the code does: an access through `NULL`
where the first page is mapped, a transfer over the kernel's own bytes, a number that is no
descriptor, and a mapping whose end wraps. -/
def Session.Astray (v : Video) (env : Env) (disk : Nat → DiskInode) (s : Session) : DeviceCall → Prop
  | .open path =>
      (s.device v env disk (.open path)).result = .error .fault ∧ s.caller.kernel.NullMapped
  | .read fd buf count => ∃ h, (s.device v env disk (.read fd buf count)).result = .error h ∧
      h.GoesOn s.caller.kernel.NullMapped
  | .write fd buf count => ∃ h, (s.device v env disk (.write fd buf count)).result = .error h ∧
      h.GoesOn s.caller.kernel.NullMapped
  | .mmap len flags fd => s.caller.Meets env disk (.mmap len flags fd) ∧
      (s.caller.kernel.Overruns env (.mmap len flags fd) ∨
        ∃ h, (s.device v env disk (.mmap len flags fd)).result = .error h ∧
          h.GoesOn (s.caller.kernel.NullMappedIn (.mmap len flags fd)))

section Calls

variable {v : Video} {env : Env} {disk : Nat → DiskInode} {c c' : Caller} {s s' : Session}

theorem Caller.fileAt_eq_ok {fd f : Nat} (done : c.fileAt fd = .ok f) : fd ≤ maxfiles ∧ f = c.slot fd := by
  rw [fileAt] at done
  split at done
  · rename_i inside
    cases done
    exact ⟨inside, rfl⟩
  · cases done

theorem Caller.setSlot_kernel (c : Caller) (k : Kernel) (fd f : Nat) (procs : k.procs = c.kernel.procs)
    (current : k.curthread = c.kernel.curthread) :
    (Caller.setSlot { c with kernel := k } fd f).kernel.store = k.store ∧
      (Caller.setSlot { c with kernel := k } fd f).kernel.files = k.files := by
  rw [c.setSlot_eq k fd f procs current]
  exact ⟨rfl, rfl⟩

theorem Caller.sysOpenCalls_served {path : List UInt8} :
    (c.sysOpenCalls env disk path).All DriverCall.Registered ↔
      ∀ i fd f s, env.initrd.lookup path = some i → c.freeSlot (maxfiles + 1) 0 = some fd →
        c.kernel.store.kmalloc 12 = .ok (f, s) → touch f 12 = .ok () → OpensDevice env disk s i := by
  rw [sysOpenCalls, sysOpenWith]
  cases found : env.initrd.lookup path with
  | none =>
      refine iff_of_true (Logged.all_pure _) fun i fd f s same => ?_
      cases same
  | some i =>
      simp only
      cases slot : c.freeSlot (maxfiles + 1) 0 with
      | none =>
          refine iff_of_true (Logged.all_pure _) fun i fd f s _ same => ?_
          cases same
      | some fd =>
          have opened : ∀ (k : Kernel) (f : Nat), (cdevOpenCalls env disk 16
              { k with files := Function.update k.files f { k.files f with inode := i } } f).All
              DriverCall.Registered ↔ OpensDevice env disk k.store i := by
            intro k f
            rw [cdevOpenCalls_all]
            simp only [Function.update_self]
          have store : ∀ f s, (Caller.setSlot { c with kernel := { c.kernel with store := s } } fd
              f).kernel.store = s :=
            fun f s => (c.setSlot_kernel { c.kernel with store := s } fd f rfl rfl).1
          rw [Logged.all_silent_bind]
          constructor
          · intro all i' fd' f s same same' taken touched
            cases same
            cases same'
            have made := all (f, s) taken
            simp only [Logged.all_silent_bind] at made
            have called := Logged.all_bind_pure.mp (made () touched)
            rw [opened, store] at called
            exact called
          · intro meets r taken
            simp only [Logged.all_silent_bind]
            intro u touched
            refine Logged.all_bind_pure.mpr ?_
            rw [opened, store]
            exact meets i fd r.1 r.2 rfl rfl taken touched

theorem touch_cases (a n : Nat) : touch a n = .ok () ∨ touch a n = .error .fault := by
  rw [touch]
  split
  · exact Or.inr rfl
  · exact Or.inl rfl

theorem Caller.sysOpenCalls_fault {path : List UInt8} {i fd f : Nat} {t : Store}
    (found : env.initrd.lookup path = some i) (free : c.freeSlot (maxfiles + 1) 0 = some fd)
    (taken : c.kernel.store.kmalloc 12 = .ok (f, t)) (null : touch f 12 = .error .fault) :
    (c.sysOpenCalls env disk path).result = .error .fault := by
  rw [sysOpenCalls, sysOpenWith, found]
  simp only
  rw [free]
  simp only [Logged.result_bind, Logged.result_silent, taken, ok_bind, null, error_bind]

theorem Caller.sysOpenCalls_all {path : List UInt8}
    (steady : ¬ ((c.sysOpenCalls env disk path).result = .error .fault ∧ c.kernel.NullMapped)) :
    (c.sysOpenCalls env disk path).All DriverCall.Registered ↔ c.Meets env disk (.open path) := by
  rw [sysOpenCalls_served, Meets]
  constructor
  · intro served i fd f t found free taken reached
    rcases touch_cases f 12 with touched | null
    · exact served i fd f t found free taken touched
    · have mapped : c.kernel.NullMapped := by
        rcases reached with touched | mapped
        · rw [touched] at null
          cases null
        · exact mapped
      exact absurd ⟨sysOpenCalls_fault found free taken null, mapped⟩ steady
  · intro meets i fd f t found free taken touched
    exact meets i fd f t found free taken (Or.inl touched)

theorem Session.transferCalls_registered {op : FileOp}
    {driver : Screened → Nat → Nat → Nat → Nat → Except Halt Screened} {fd buf count : Nat}
    (both : op ∈ consoleOps) (devices : s.caller.DevicesOnly disk) :
    (s.transferCalls op driver disk fd buf count).All DriverCall.Registered := by
  rw [transferCalls, Logged.all_silent_bind]
  intro f found
  obtain ⟨inside, rfl⟩ := Caller.fileAt_eq_ok found
  by_cases closed : s.caller.slot fd = 0
  · simp only [if_pos closed]
    exact Logged.all_pure _
  · simp only [if_neg closed]
    rw [Logged.all_bind_ok (a := ()) rfl, callDriver_all, registered_iff both]
    refine ⟨devices fd inside closed, ?_⟩
    rw [Logged.all_silent_bind]
    exact fun _ _ => Logged.all_pure _

theorem Caller.mmapBacking_all {len flags fd mem : Nat} (devices : c.DevicesOnly disk) :
    (backingLogged (c.mmapFile fd) (cdevMmapCalls env disk) c.kernel len flags mem).All
        DriverCall.Registered ↔
      (flags &&& mapAnon = 0 → fd ≤ maxfiles → c.slot fd ≠ 0 →
        (disk (c.kernel.files (c.slot fd)).inode).major = 1) := by
  rw [backingLogged_all]
  refine imp_congr_right fun _ => Iff.trans (and_iff_right (Logged.all_silent _)) ?_
  have called : ∀ f, fd ≤ maxfiles ∧ f = c.slot fd → f ≠ 0 →
      ((cdevMmapCalls env disk c.kernel f mem).All DriverCall.Registered ↔
        (disk (c.kernel.files (c.slot fd)).inode).major = 1) := by
    rintro f ⟨inside, rfl⟩ used
    rw [cdevMmapCalls, Logged.all_bind_ok (a := ()) rfl, callDriver_all,
      mmap_registered_iff (devices fd inside used)]
    exact and_iff_left (Logged.all_silent _)
  constructor
  · intro all inside used
    exact (called _ ⟨inside, rfl⟩ used).mp (all _ (if_pos inside) used)
  · intro major f found used
    obtain ⟨inside, slot⟩ := fileAt_eq_ok (c := c) found
    exact (called f ⟨inside, slot⟩ used).mpr (major inside (slot ▸ used))

theorem Caller.sysMmapCalls_all {len flags fd : Nat} (devices : c.DevicesOnly disk) :
    (c.sysMmapCalls env disk len flags fd).All DriverCall.Registered ↔
      c.Meets env disk (.mmap len flags fd) := by
  have backed : ∀ s mem, (backingLogged (c.mmapFile fd) (cdevMmapCalls env disk)
      { c.kernel with store := s } (pgRoundup len) flags mem).All DriverCall.Registered ↔ _ :=
    fun s mem => mmapBacking_all (c := { c with kernel := { c.kernel with store := s } }) devices
  -- sixteen bytes are never too many for `kmalloc`
  obtain ⟨node, taken⟩ : ∃ node, c.kernel.store.kmalloc 16 = .ok node := by
    have same : c.kernel.store.heap = c.kernel.store.heap := rfl
    rcases Store.kmalloc_same same 16 with ⟨large, _⟩ | ⟨_, p, t, _, done, _⟩
    · exact absurd large (by decide)
    · exact ⟨(p, t), done⟩
  rw [sysMmapCalls, Logged.all_bind_pure, sysMmapLogged_all, Meets]
  by_cases zero : len = 0
  · exact iff_of_true (Or.inl zero) fun nonzero => absurd zero nonzero
  · by_cases full : mmapLimit ≤ u32 (c.kernel.proc.mmapBase + pgRoundup len)
    · exact iff_of_true (Or.inr (Or.inl full)) fun _ room => absurd room (Nat.not_lt.mpr full)
    · rw [forall_prop_of_true zero, forall_prop_of_true (Nat.lt_of_not_le full), or_iff_right zero,
        or_iff_right full]
      constructor
      · intro all
        exact (backed node.2 node.1).mp (all node taken)
      · intro meets node' _
        exact (backed node'.2 node'.1).mpr meets

theorem Session.device_all {call : DeviceCall} (devices : s.caller.DevicesOnly disk)
    (steady : ¬ s.Astray v env disk call) :
    (s.device v env disk call).All DriverCall.Registered ↔ s.caller.Meets env disk call := by
  cases call with
  | «open» path =>
      refine Logged.all_bind_pure.trans (Caller.sysOpenCalls_all ?_)
      rintro ⟨stopped, mapped⟩
      refine steady ⟨?_, mapped⟩
      rw [device, Logged.result_bind, stopped]
      rfl
  | read fd buf count =>
      have both : FileOp.read ∈ consoleOps := by decide
      exact iff_of_true (Logged.all_bind_pure.mpr (transferCalls_registered both devices)) trivial
  | write fd buf count =>
      have both : FileOp.write ∈ consoleOps := by decide
      exact iff_of_true (Logged.all_bind_pure.mpr (transferCalls_registered both devices)) trivial
  | mmap len flags fd => exact Logged.all_bind_pure.trans (Caller.sysMmapCalls_all devices)

/-! ## The open files stay devices -/

theorem cdevOpen_devices : ∀ (fuel : Nat) (k : Kernel) (f : Nat) (k' : Kernel),
    (cdevOpenCalls env disk fuel k f).All DriverCall.Registered →
      cdevOpen (env.onDisk disk) fuel k f = .ok k' → ∀ g, (disk (k.files g).inode).Device →
        (disk (k'.files g).inode).Device := by
  have kept : ∀ (k : Kernel) (f data g : Nat),
      (Function.update k.files f { k.files f with data := data } g).inode = (k.files g).inode := by
    intro k f data g
    by_cases here : g = f
    · rw [here, Function.update_self]
    · rw [Function.update_of_ne here]
  intro fuel
  induction fuel with
  | zero => intro k f k' _ done; cases done
  | succ fuel ih =>
      intro k f k' all done g device
      obtain ⟨_, nested⟩ := cdevOpenCalls_succ.mp all
      rw [cdevOpen, Env.onDisk_inode, Env.onDisk_lookup] at done
      generalize (disk (k.files f).inode).major = major at nested done
      rcases major with _ | _ | major
      · obtain ⟨r, taken, afterData⟩ := bind_eq_ok.mp done
        obtain ⟨_, touched, afterTouch⟩ := bind_eq_ok.mp afterData
        simp only at afterTouch
        cases found : env.initrd.lookup (pathBytes "/dev/fb") with
        | none =>
            rw [found] at afterTouch
            cases afterTouch
        | some j =>
            rw [found] at afterTouch
            obtain ⟨r', taken', afterFile⟩ := bind_eq_ok.mp afterTouch
            split at afterFile
            · cases afterFile
            · rename_i nonnull
              have inner := nested rfl r taken touched j found r' taken' nonnull
              refine ih (k.nested f r.1 r'.1 j r'.2) r'.1 k' inner afterFile g ?_
              by_cases opened : g = r'.1
              · cases fuel with
                | zero => cases afterFile
                | succ fuel =>
                    rw [opened]
                    exact (cdevOpenCalls_succ.mp inner).1
              · simp only [Kernel.nested, Function.update_of_ne opened, kept]
                exact device
      · obtain ⟨r, _, afterData⟩ := bind_eq_ok.mp done
        obtain ⟨_, _, result⟩ := bind_eq_ok.mp afterData
        cases result
        simp only [kept]
        exact device
      · cases done

theorem openFile_devices {k k' : Kernel} {i f : Nat}
    (good : ∀ f s, k.store.kmalloc 12 = .ok (f, s) → touch f 12 = .ok () → OpensDevice env disk s i)
    (done : openFile (env.onDisk disk) k i = .ok (f, k')) : (disk (k'.files f).inode).Device ∧
      ∀ g, (disk (k.files g).inode).Device → (disk (k'.files g).inode).Device := by
  obtain ⟨⟨f', s⟩, taken, afterAlloc⟩ := bind_eq_ok.mp done
  obtain ⟨_, touched, afterTouch⟩ := bind_eq_ok.mp afterAlloc
  obtain ⟨k₁, opened, result⟩ := bind_eq_ok.mp afterTouch
  cases result
  have device := good f s taken touched
  have all : ∀ k₀ : Kernel, k₀.store = s → (k₀.files f).inode = i →
      (cdevOpenCalls env disk 16 k₀ f).All DriverCall.Registered := by
    intro k₀ store inode
    rw [cdevOpenCalls_all, store, inode]
    exact device
  have made : (Function.update k.files f { k.files f with inode := i } f).inode = i := by
    rw [Function.update_self]
  have kept := cdevOpen_devices 16 _ f k' (all _ rfl made) opened
  constructor
  · refine kept f ?_
    simp only [Function.update_self]
    exact device.device
  · intro g before
    refine kept g ?_
    by_cases new : g = f
    · simp only [new, Function.update_self]
      exact device.device
    · simp only [Function.update_of_ne new]
      exact before

theorem Caller.setSlot_slot (c : Caller) {fd e : Nat} (f : Nat) (inside : e ≤ maxfiles)
    (last : fd ≤ maxfiles) : (c.setSlot fd f).slot e = if e = fd then f else c.slot e := by
  rw [slot, slot, setSlot]
  by_cases behind : fd < maxfiles
  · rw [dif_pos behind]
    by_cases lt : e < maxfiles
    · rw [dif_pos lt, dif_pos lt]
      simp only [Kernel.proc, Kernel.setProc, Function.update_self]
      rw [Function.update_apply]
      simp only [Fin.mk.injEq]
    · have ne : ¬ e = fd := by omega
      rw [dif_neg lt, dif_neg lt, if_neg ne]
  · rw [dif_neg behind]
    by_cases lt : e < maxfiles
    · have ne : ¬ e = fd := by omega
      rw [dif_pos lt, dif_pos lt, if_neg ne]
    · have same : e = fd := by omega
      rw [dif_neg lt, if_pos same]

theorem Caller.freeSlot_le {fd : Nat} (found : c.freeSlot (maxfiles + 1) 0 = some fd) :
    fd ≤ maxfiles := by
  rw [freeSlot_eq] at found
  split at found
  · rename_i e _
    cases found
    exact Nat.le_of_lt e.isLt
  · split at found
    · cases found
      exact Nat.le_refl _
    · cases found

theorem Caller.slot_congr (ofile : c'.kernel.proc.ofile = c.kernel.proc.ofile)
    (state : c'.state = c.state) (fd : Nat) : c'.slot fd = c.slot fd := by
  rw [slot, slot, ofile, state]

theorem Caller.DevicesOnly.congr (devices : c.DevicesOnly disk)
    (files : c'.kernel.files = c.kernel.files) (ofile : c'.kernel.proc.ofile = c.kernel.proc.ofile)
    (state : c'.state = c.state) : c'.DevicesOnly disk := by
  intro fd inside used
  rw [slot_congr ofile state] at used ⊢
  rw [files]
  exact devices fd inside used

theorem Caller.sysOpen_devices {path : List UInt8} {r : Int} (devices : c.DevicesOnly disk)
    (meets : c.Meets env disk (.open path)) (done : c.sysOpen (env.onDisk disk) path = .ok (r, c')) :
    c'.DevicesOnly disk := by
  cases found : env.initrd.lookup path with
  | none =>
      rw [sysOpen, sysOpenWith, Env.onDisk_lookup, found] at done
      cases done
      exact devices
  | some i =>
      cases free : c.freeSlot (maxfiles + 1) 0 with
      | none =>
          rw [sysOpen, sysOpenWith, Env.onDisk_lookup, found] at done
          simp only [free] at done
          cases done
          exact devices
      | some fd =>
          rw [sysOpen_eq (by rw [Env.onDisk_lookup, found]) free] at done
          obtain ⟨⟨f, k⟩, made, result⟩ := bind_eq_ok.mp done
          cases result
          have same := openFile_same made
          have procs : k.procs = c.kernel.procs := by rw [same]
          have current : k.curthread = c.kernel.curthread := by rw [same]
          obtain ⟨new, older⟩ := openFile_devices
            (fun f s taken touched => meets i fd f s found free taken (Or.inl touched)) made
          intro e inside used
          have proc : k.proc = c.kernel.proc := by rw [Kernel.proc, Kernel.proc, procs, current]
          have before : Caller.slot { c with kernel := k } e = c.slot e := by
            simp only [slot, proc]
          rw [setSlot_slot _ f inside (freeSlot_le free), before] at used ⊢
          rw [(c.setSlot_kernel k fd f procs current).2]
          by_cases here : e = fd
          · rw [if_pos here]
            exact new
          · rw [if_neg here] at used ⊢
            exact older _ (devices e inside used)

theorem Session.transferCalls_devices {op : FileOp}
    {driver : Screened → Nat → Nat → Nat → Nat → Except Halt Screened} {fd buf count : Nat} {r : Int}
    (written : ∀ {t t' : Screened} {major f : Nat}, driver t major f buf count = .ok t' →
      t.kernel.Written t'.kernel)
    (devices : s.caller.DevicesOnly disk)
    (done : (s.transferCalls op driver disk fd buf count).result = .ok (r, s')) :
    s'.caller.DevicesOnly disk := by
  rw [transferCalls, Logged.result_bind] at done
  obtain ⟨f, found, afterFile⟩ := bind_eq_ok.mp done
  obtain ⟨inside, rfl⟩ := Caller.fileAt_eq_ok found
  by_cases closed : s.caller.slot fd = 0
  · simp only [if_pos closed] at afterFile
    cases afterFile
    exact devices
  · simp only [if_neg closed, Logged.result_bind, Logged.result_silent] at afterFile
    obtain ⟨_, _, afterCall⟩ := bind_eq_ok.mp afterFile
    obtain ⟨t, moved, result⟩ := bind_eq_ok.mp afterCall
    cases result
    have same : t.kernel = { s.caller.kernel with store := { s.caller.kernel.store with
        mem := t.kernel.store.mem } } := written moved
    refine devices.congr ?_ ?_ rfl
    · simp only
      rw [same]
    · simp only
      rw [same]
      rfl

theorem backingLogged_same {ω : Type} {file : Kernel → Logged ω Halt Nat}
    {device : Kernel → Nat → Nat → Logged ω Halt Nat} {k k' : Kernel} {len flags mem pa : Nat}
    (done : (backingLogged file device k len flags mem).result = .ok (some (pa, k'))) :
    k' = { k with store := k'.store } := by
  rw [backingLogged] at done
  by_cases anon : flags &&& mapAnon ≠ 0
  · rw [if_pos anon] at done
    simp only [Logged.result_bind, Logged.result_silent] at done
    obtain ⟨_, _, afterTouch⟩ := bind_eq_ok.mp done
    obtain ⟨s, _, result⟩ := bind_eq_ok.mp afterTouch
    cases result
    rfl
  · rw [if_neg anon, Logged.result_bind] at done
    obtain ⟨f, _, afterFile⟩ := bind_eq_ok.mp done
    by_cases closed : f = 0
    · simp only [if_pos closed] at afterFile
      cases afterFile
    · simp only [if_neg closed, Logged.result_bind] at afterFile
      obtain ⟨_, _, result⟩ := bind_eq_ok.mp afterFile
      cases result
      rfl

/-- A mapping leaves the open files as they are. -/
theorem sysMmapLogged_files {ω : Type} {file : Kernel → Logged ω Halt Nat}
    {device : Kernel → Nat → Nat → Logged ω Halt Nat} {k k' : Kernel} {len flags a : Nat}
    (done : (sysMmapLogged file device k len flags).result = .ok (a, k')) :
    k'.files = k.files ∧ k'.proc.ofile = k.proc.ofile := by
  rw [sysMmapLogged] at done
  by_cases zero : len = 0
  · rw [if_pos zero] at done
    cases done
    exact ⟨rfl, rfl⟩
  · by_cases full : mmapLimit ≤ u32 (k.proc.mmapBase + pgRoundup len)
    · rw [if_neg zero, if_pos full] at done
      cases done
      exact ⟨rfl, rfl⟩
    · rw [if_neg zero, if_neg full] at done
      simp only [Logged.result_bind, Logged.result_silent] at done
      obtain ⟨⟨mem, s⟩, _, afterAlloc⟩ := bind_eq_ok.mp done
      obtain ⟨backed, made, afterBacking⟩ := bind_eq_ok.mp afterAlloc
      cases backed with
      | none =>
          cases afterBacking
          exact ⟨rfl, rfl⟩
      | some pair =>
          obtain ⟨pa, k₁⟩ := pair
          have same := backingLogged_same made
          simp only [Logged.result_bind, Logged.result_silent] at afterBacking
          obtain ⟨s', _, result⟩ := bind_eq_ok.mp afterBacking
          cases result
          rw [same]
          refine ⟨rfl, ?_⟩
          simp only [Kernel.proc, Kernel.setProc, Kernel.setMemtab, Function.update_self]

theorem Caller.sysMmapCalls_devices {len flags fd a : Nat} (devices : c.DevicesOnly disk)
    (done : (c.sysMmapCalls env disk len flags fd).result = .ok (a, c')) : c'.DevicesOnly disk := by
  rw [sysMmapCalls, Logged.result_bind] at done
  obtain ⟨⟨b, k⟩, mapped, result⟩ := bind_eq_ok.mp done
  cases result
  obtain ⟨files, ofile⟩ := sysMmapLogged_files mapped
  exact devices.congr files ofile rfl

theorem Session.device_devices {call : DeviceCall} (devices : s.caller.DevicesOnly disk)
    (meets : s.caller.Meets env disk call) (done : (s.device v env disk call).result = .ok s') :
    s'.caller.DevicesOnly disk := by
  cases call with
  | «open» path =>
      rw [device, Logged.result_bind, Caller.sysOpenCalls_result] at done
      obtain ⟨⟨r, c⟩, opened, result⟩ := bind_eq_ok.mp done
      cases result
      exact Caller.sysOpen_devices devices meets opened
  | read fd buf count =>
      rw [device, Logged.result_bind] at done
      obtain ⟨⟨r, t⟩, moved, result⟩ := bind_eq_ok.mp done
      cases result
      exact transferCalls_devices cdevRead_written devices moved
  | write fd buf count =>
      rw [device, Logged.result_bind] at done
      obtain ⟨⟨r, t⟩, moved, result⟩ := bind_eq_ok.mp done
      cases result
      exact transferCalls_devices cdevWrite_written devices moved
  | mmap len flags fd =>
      rw [device, Logged.result_bind] at done
      obtain ⟨⟨a, c⟩, mapped, result⟩ := bind_eq_ok.mp done
      cases result
      exact Caller.sysMmapCalls_devices devices mapped

end Calls

/-- In every sequence of calls none of which goes astray, the driver calls of each go to an
operation of a registered driver and for a character device exactly when each open that gets
as far as the driver finds such a device, and each mapping of an open file finds the
framebuffer. -/
theorem driver_calls_registered_iff {v : Video} {env : Env} {disk : Nat → DiskInode} {s : Session}
    {calls : List DeviceCall} (start : s.caller.DevicesOnly disk)
    (steady : Along (fun s call => (s.device v env disk call).result)
      (fun s call => ¬ s.Astray v env disk call) s calls) :
    Along (fun s call => (s.device v env disk call).result)
        (fun s call => (s.device v env disk call).All DriverCall.Registered) s calls ↔
      Along (fun s call => (s.device v env disk call).result)
        (fun s call => s.caller.Meets env disk call) s calls :=
  along_iff_of (fun s => s.caller.DevicesOnly disk)
    (fun _ _ devices calm => Session.device_all devices calm)
    (fun _ _ _ devices meets done => Session.device_devices devices meets done) s start steady

def smallDisk : Nat → DiskInode := fun i =>
  { zeroInodes i with type := if i = 2 then .file else .char, major := i - 3 }

def smallVideo : Video := ⟨fun _ _ => 0, 64, 16, 26, 32⟩

def Kernel.session (k : Kernel) : Session := ⟨k.caller, ⟨0, 0⟩⟩

theorem Session.along_steady {v : Video} {env : Env} {disk : Nat → DiskInode} :
    ∀ (calls : List DeviceCall) (s t : Session),
      calls.foldlM (fun s call => (s.device v env disk call).result) s = .ok t →
      Along (fun s call => (s.device v env disk call).result)
        (fun s call => ∀ len flags fd, call = .mmap len flags fd →
          ¬ s.caller.kernel.Overruns env (.mmap len flags fd)) s calls →
      Along (fun s call => (s.device v env disk call).result)
        (fun s call => ¬ s.Astray v env disk call) s calls := by
  intro calls
  induction calls with
  | nil => intro s t _ _; trivial
  | cons call rest ih =>
      rintro s t done ⟨inside, along⟩
      rw [List.foldlM_cons, bind_eq_ok] at done
      obtain ⟨s₁, first, later⟩ := done
      refine ⟨fun astray => ?_, fun s₂ same => ih s₂ t ?_ (along s₂ same)⟩
      · cases call with
        | «open» path =>
            rw [Astray, first] at astray
            cases astray.1
        | read fd buf count =>
            obtain ⟨h, stopped, _⟩ := astray
            rw [first] at stopped
            cases stopped
        | write fd buf count =>
            obtain ⟨h, stopped, _⟩ := astray
            rw [first] at stopped
            cases stopped
        | mmap len flags fd =>
            rcases astray.2 with beyond | ⟨h, stopped, _⟩
            · exact inside len flags fd rfl beyond
            · rw [first] at stopped
              cases stopped
      · rw [Except.ok.inj (same.symm.trans first)]
        exact later

/-- Both devices are opened, the console is read, and the framebuffer is mapped. -/
theorem driver_calls_registered_four : smallKernel.session.caller.DevicesOnly smallDisk ∧
    Along (fun s call => (s.device smallVideo (smallEnv alignedSegment) smallDisk call).result)
      (fun s call => (s.device smallVideo (smallEnv alignedSegment) smallDisk call).All
        DriverCall.Registered) smallKernel.session
      [.open (pathBytes "/dev/console"), .read 0 0x1000 4, .open (pathBytes "/dev/fb"),
        .mmap 0x1000 0 1] := by
  have start : smallKernel.session.caller.DevicesOnly smallDisk := by
    intro fd _ used
    have empty : smallKernel.session.caller.slot fd = 0 := by
      rw [Caller.slot]
      split <;> rfl
    exact absurd empty used
  have console : (smallEnv alignedSegment).initrd.lookup (pathBytes "/dev/console") = some 3 := by decide
  have framebuffer : (smallEnv alignedSegment).initrd.lookup (pathBytes "/dev/fb") = some 4 := by decide
  have device : ∀ i, i = 3 ∨ i = 4 → (smallDisk i).Device := by
    rintro i (rfl | rfl)
    · exact ⟨rfl, by decide⟩
    · exact ⟨rfl, by decide⟩
  have opens : ∀ s i, i = 3 ∨ i = 4 → OpensDevice (smallEnv alignedSegment) smallDisk s i := by
    intro s i known
    refine ⟨device i known, fun _ _ j found => device j (Or.inr ?_)⟩
    rw [framebuffer] at found
    cases found
    rfl
  have run : ([DeviceCall.open (pathBytes "/dev/console"), .read 0 0x1000 4,
      .open (pathBytes "/dev/fb")].foldlM
      (fun s call => (Session.device smallVideo (smallEnv alignedSegment) smallDisk s call).result)
      smallKernel.session).toOption.map (fun s =>
        ((smallDisk (s.caller.kernel.files (s.caller.slot 1)).inode).major,
        decide (s.caller.kernel.proc.mmapBase + 0x1000 < mmapLimit),
        (s.device smallVideo (smallEnv alignedSegment) smallDisk (.mmap 0x1000 0 1)).result.toBool)) =
        some (1, true, true) := by
    decide +kernel
  obtain ⟨s₃, ran, facts⟩ := Option.map_eq_some_iff.mp run
  obtain ⟨major, base, ends⟩ := Prod.mk.inj facts |>.imp_right Prod.mk.inj
  obtain ⟨s₄, mapped⟩ := exists_eq_ok ends
  have steps := ok_of_toOption ran
  have reached : ∀ s₁ s₂ s, (smallKernel.session.device smallVideo (smallEnv alignedSegment) smallDisk
      (.open (pathBytes "/dev/console"))).result = .ok s₁ →
      (s₁.device smallVideo (smallEnv alignedSegment) smallDisk (.read 0 0x1000 4)).result = .ok s₂ →
      (s₂.device smallVideo (smallEnv alignedSegment) smallDisk
        (.open (pathBytes "/dev/fb"))).result = .ok s → s = s₃ := by
    intro s₁ s₂ s done₁ done₂ done₃
    simp only [List.foldlM_cons, List.foldlM_nil, done₁, ok_bind, done₂, done₃] at steps
    exact Except.ok.inj steps
  refine ⟨start, (driver_calls_registered_iff start (Session.along_steady _ _ s₄ ?_ ?_)).mpr ?_⟩
  · change (([.open (pathBytes "/dev/console"), .read 0 0x1000 4, .open (pathBytes "/dev/fb")] ++
      [.mmap 0x1000 0 1] : List DeviceCall).foldlM _ _) = _
    rw [List.foldlM_append, steps]
    simp only [ok_bind, List.foldlM_cons, mapped, List.foldlM_nil]
    rfl
  · refine ⟨fun _ _ _ same => (nomatch same), fun s₁ done₁ => ⟨fun _ _ _ same => (nomatch same),
      fun s₂ done₂ => ⟨fun _ _ _ same => (nomatch same), fun s done => ⟨?_, fun _ _ => trivial⟩⟩⟩⟩
    rintro len flags fd ⟨⟩ ⟨_, _, wraps⟩
    rw [reached s₁ s₂ s done₁ done₂ done] at wraps
    have below := of_decide_eq_true base
    have size : pgRoundup 0x1000 = 0x1000 := by decide
    omega
  · refine ⟨?_, fun s₁ done₁ => ⟨trivial, fun s₂ done₂ => ⟨?_, fun s done => ⟨?_, fun _ _ => trivial⟩⟩⟩⟩
    · intro i fd f s found _ _ _
      rw [console] at found
      cases found
      exact opens s 3 (Or.inl rfl)
    · intro i fd f s found _ _ _
      rw [framebuffer] at found
      cases found
      exact opens s 4 (Or.inr rfl)
    · intro _ _ _ _ _
      rw [reached s₁ s₂ s done₁ done₂ done]
      exact major

/-- The number of a regular file is zero, which is the number of the console. -/
theorem driver_calls_unregistered : ¬ Along
    (fun s call => (Session.device smallVideo
      { smallEnv alignedSegment with
        initrd := { (smallEnv alignedSegment).initrd with names := [[0x2F, 0x61]] } }
      (loadInitrd smallTar 0 1536 zeroInodes zeroDirents).inoTbl s call).result)
    (fun s call => (Session.device smallVideo
      { smallEnv alignedSegment with
        initrd := { (smallEnv alignedSegment).initrd with names := [[0x2F, 0x61]] } }
      (loadInitrd smallTar 0 1536 zeroInodes zeroDirents).inoTbl s call).All DriverCall.Registered)
    smallKernel.session [.open [0x2F, 0x61]] := by
  intro along
  have file : (smallKernel.session.device smallVideo
      { smallEnv alignedSegment with
        initrd := { (smallEnv alignedSegment).initrd with names := [[0x2F, 0x61]] } }
      (loadInitrd smallTar 0 1536 zeroInodes zeroDirents).inoTbl (.open [0x2F, 0x61])).log.any
        (fun call => decide (call.inode.type = .file)) = true := by
    decide +kernel
  obtain ⟨call, mem, type⟩ := List.any_eq_true.mp file
  have char := (along.1 call mem).device
  rw [of_decide_eq_true type] at char
  cases char

end Trunix
