import Trunix.Kernel.Archive
import Trunix.Kernel.Isolation

/-!
# Programs out of the archive

What `load_initrd` records about a member is all that `loadelf` needs: wherever in memory
the archive lies and whatever else is in it, a process that executes a path gets the
program in the first member with that path.
-/

set_option autoImplicit false

namespace Trunix

open Trunix.Lib

/-! ## Executables -/

def fileMem (file : List UInt8) : Mem := fun i => file.getD i 0

def fileSegments (file : List UInt8) : List Proghdr := segments (proghdrs (fileMem file) 0)

/-- `loadelf` takes the file and loads it faithfully: its headers and its data are all there, it
is not linked dynamically, and its segments are on disjoint pages and as long as their pages. -/
structure Executable (file : List UInt8) : Prop where
  magic : elfMagic (fileMem file) 0 = elfmagic
  header : 52 ≤ file.length
  table : load32 (fileMem file) 28 + 32 * load16 (fileMem file) 44 ≤ file.length
  static : (scanHdrs (proghdrs (fileMem file) 0) 0 0xFFFFFFFF 0).isSome = true
  data : ∀ ph ∈ fileSegments file, ph.off + ph.filesz ≤ file.length
  ok : SegsOk (fileSegments file)
  snug : Snug (fileSegments file)

/-- The memory of the program when it starts: the bytes of the file at the addresses of the
segments, zeros on the rest of their pages and on the page of the stack. -/
def programOf (file : List UInt8) (x : Nat) : Option UInt8 :=
  match (fileSegments file).find? fun ph => decide (ph.firstPage ≤ x ∧ x < ph.endPage) with
  | some ph => some (if ph.va ≤ x ∧ x < ph.va + ph.filesz then file.getD (ph.off + (x - ph.va)) 0 else 0)
  | none => if 0x7FFFF000 ≤ x ∧ x < 0x80000000 then some 0 else none

section Held

variable {bytes : Mem} {bin : Nat} {file : List UInt8} (held : StartsWith (fun i => bytes (bin + i)) file)

include held

theorem byte_held {i : Nat} (lt : i < file.length) : bytes (bin + i) = fileMem file i := by
  rw [fileMem, List.getD_eq_getElem _ _ lt]
  exact held i lt

theorem loadLE_held : ∀ (n off : Nat), off + n ≤ file.length →
    loadLE bytes n (bin + off) = loadLE (fileMem file) n off := by
  intro n
  induction n with
  | zero => intro off _; rfl
  | succ n ih =>
      intro off inside
      have first := byte_held held (i := off) (by omega)
      have rest := ih (off + 1) (by omega)
      rw [← Nat.add_assoc] at rest
      rw [loadLE, loadLE, first, rest]

theorem load32_held (off : Nat) (inside : off + 4 ≤ file.length) :
    load32 bytes (bin + off) = load32 (fileMem file) off := loadLE_held held 4 off inside

theorem readProghdr_held {off : Nat} (inside : off + 32 ≤ file.length) :
    readProghdr bytes (bin + off) = readProghdr (fileMem file) off := by
  have word : ∀ d, d + 4 ≤ 32 → load32 bytes (bin + off + d) = load32 (fileMem file) (off + d) := by
    intro d le
    rw [Nat.add_assoc]
    exact load32_held held _ (by omega)
  rw [readProghdr, readProghdr, word 4 (by decide), word 8 (by decide), word 16 (by decide),
    word 20 (by decide), load32_held held _ (by omega)]

variable (exe : Executable file) (bound : bin + file.length ≤ 0x100000000)

include exe

theorem Executable.magic_held : elfMagic bytes bin = elfmagic := by
  have first := load32_held held 0 (by have := exe.header; omega)
  rw [← exe.magic]
  exact first

theorem Executable.entry_held : elfEntry bytes bin = elfEntry (fileMem file) 0 := by
  have word := load32_held held 24 (by have := exe.header; omega)
  rw [elfEntry, elfEntry, word]

include bound

theorem Executable.proghdrs_held : proghdrs bytes bin = proghdrs (fileMem file) 0 := by
  have header := exe.header
  have table := exe.table
  have place := load32_held held 28 (by omega)
  have count : load16 bytes (bin + 44) = load16 (fileMem file) 44 := loadLE_held held 2 44 (by omega)
  rw [proghdrs, proghdrs, place, count]
  simp only [Nat.zero_add]
  refine List.map_congr_left fun i mem => ?_
  have lt := List.mem_range.mp mem
  rw [Nat.add_assoc, u32_of_lt (by omega), u32_of_lt (by omega)]
  exact readProghdr_held held (by omega)

theorem Executable.image_held :
    programImage bytes bin (segments (proghdrs bytes bin)) = programOf file := by
  rw [exe.proghdrs_held held bound]
  funext x
  rw [programImage, programOf]
  change (match (fileSegments file).find? _ with | some ph => _ | none => _) = _
  cases found : (fileSegments file).find? fun ph => decide (ph.firstPage ≤ x ∧ x < ph.endPage) with
  | none => rfl
  | some ph =>
      have data := exe.data ph (List.mem_of_find?_eq_some found)
      simp only [segmentByte]
      by_cases inside : ph.va ≤ x ∧ x < ph.va + ph.filesz
      · rw [if_pos inside, if_pos inside, u32_of_lt (by omega), Nat.add_assoc,
          byte_held held (by omega), fileMem]
      · rw [if_neg inside, if_neg inside]

end Held

/-! ## Members -/

def Ramdisk.initrd (bytes : Mem) (members : List TarMember) (k : Ramdisk) : Initrd :=
  ⟨bytes, members.map fun m => m.path.bytes, fun i => (k.inoTbl i).toInode⟩

theorem headerAddrs_bound : ∀ (sizes : List Nat) (a j : Nat) (lt : j < sizes.length)
    (lt' : j < (headerAddrs a sizes).length),
    (headerAddrs a sizes).get ⟨j, lt'⟩ + 512 * (1 + dataBlocks (sizes.get ⟨j, lt⟩)) ≤
      a + 512 * memberBlocks sizes := by
  intro sizes
  induction sizes with
  | nil => intro a j lt; exact absurd lt (Nat.not_lt_zero j)
  | cons size rest ih =>
      intro a j lt lt'
      have blocks : memberBlocks (size :: rest) = 1 + dataBlocks size + memberBlocks rest := by
        simp only [memberBlocks, List.map_cons, List.sum_cons]
      cases j with
      | zero =>
          change a + 512 * (1 + dataBlocks size) ≤ _
          omega
      | succ j =>
          have later := ih (a + 512 * (1 + dataBlocks size)) j (Nat.lt_of_succ_lt_succ lt)
            (Nat.lt_of_succ_lt_succ lt')
          rw [blocks]
          refine Nat.le_trans later ?_
          omega

section Archive

variable {bytes : Mem} {tar len : Nat} {members : List TarMember} {inodes : Nat → DiskInode}
  {dirents : Nat → Dirent} (archive : TarArchive bytes tar len members) {path : CString}

include archive

theorem TarArchive.data_held (fits : tar + len ≤ 0x100000000) {j : Nat} (lt : j < members.length)
    (nonempty : 0 < (members.get ⟨j, lt⟩).size) :
    let inode := (loadInitrd bytes tar len inodes dirents).inoTbl (rootIno + j)
    StartsWith (fun i => bytes (inode.addr + i)) (members.get ⟨j, lt⟩).contents ∧
      inode.addr + (members.get ⟨j, lt⟩).contents.length ≤ 0x100000000 := by
  intro inode
  obtain ⟨_, _, size, contents⟩ := @TarArchive.entry _ _ _ _ inodes dirents archive _ lt
  have lt' : j < (headerAddrs tar (members.map TarMember.size)).length := by
    rw [headerAddrs_length, List.length_map]
    exact lt
  have lt'' : j < (members.map TarMember.size).length := by
    rw [List.length_map]
    exact lt
  have added : Added bytes _ _ (loadInitrd bytes tar len inodes dirents) := archive.added
  have read : inode = readInode bytes _ _ := added.inode j lt'
  have addr : inode.addr =
      (headerAddrs tar (members.map TarMember.size)).get ⟨j, lt'⟩ + 512 := by
    have pos : 0 < inode.size := size ▸ nonempty
    rw [read] at pos ⊢
    exact if_pos pos
  refine ⟨contents nonempty, ?_⟩
  have inside := headerAddrs_bound (members.map TarMember.size) tar j lt'' lt'
  obtain ⟨n, whole⟩ := archive.length
  have size' : (members.map TarMember.size).get ⟨j, lt''⟩ = (members.get ⟨j, lt⟩).contents.length := by
    simp [TarMember.size]
  rw [size', dataBlocks] at inside
  rw [addr]
  omega

/-- The file behind a path is the first member with that path. -/
theorem TarArchive.lookup_found (fits : tar + len ≤ 0x100000000) {m : TarMember}
    (found : (members.find? fun m => m.path = path) = some m) (nonempty : 0 < m.size) :
    let r := (loadInitrd bytes tar len inodes dirents).initrd bytes members
    ∃ i, r.lookup path.bytes = some i ∧
      StartsWith (fun j => bytes ((r.inode i).addr + j)) m.contents ∧
      (r.inode i).addr + m.contents.length ≤ 0x100000000 := by
  intro r
  obtain ⟨here, j, lt, rfl, before⟩ := List.find?_eq_some_iff_getElem.mp found
  have index : (members.findIdx? fun m => m.path = path) = some j :=
    List.findIdx?_eq_some_iff_getElem.mpr ⟨lt, here, by simpa using before⟩
  have searched : r.lookup path.bytes = some (rootIno + j) := by
    have same := @TarArchive.lookup_eq _ _ _ _ inodes dirents archive path
    rw [loadelfInode, archive.search_eq path, index] at same
    exact same.symm
  exact ⟨rootIno + j, searched, archive.data_held fits lt nonempty⟩

theorem TarArchive.lookup_missing (missing : (members.find? fun m => m.path = path) = none) :
    ((loadInitrd bytes tar len inodes dirents).initrd bytes members).lookup path.bytes = none := by
  have same := @TarArchive.lookup_eq _ _ _ _ inodes dirents archive path
  have none : (members.findIdx? fun m => m.path = path) = none := by
    rw [List.findIdx?_eq_none_iff]
    intro m mem
    have := List.find?_eq_none.mp missing m mem
    simpa using this
  rw [loadelfInode, archive.search_eq path, none] at same
  exact same.symm

end Archive

/-! ## Programs -/

/-- What `execve` may be asked for: a program, or a file that it can see is none. -/
def Runnable (file : List UInt8) : Prop :=
  Executable file ∨ (4 ≤ file.length ∧ elfMagic (fileMem file) 0 ≠ elfmagic)

section Found

variable {env : Env} {path : CString} {i : Nat} {file : List UInt8}
  (found : env.initrd.lookup path.bytes = some i)
  (held : StartsWith (fun j => env.initrd.bytes ((env.initrd.inode i).addr + j)) file)
  (bound : (env.initrd.inode i).addr + file.length ≤ 0x100000000)

include found held

theorem Executable.program_found (exe : Executable file)
    (bound : (env.initrd.inode i).addr + file.length ≤ 0x100000000) :
    env.initrd.program path.bytes = some (env.initrd.inode i).addr := by
  have static := exe.static
  rw [← exe.proghdrs_held held bound] at static
  have start : env.initrd.elf path.bytes = some (env.initrd.inode i).addr := by
    rw [Initrd.elf, found]
    exact if_pos (exe.magic_held held)
  rw [Initrd.program, start]
  exact Option.filter_eq_some_iff.mpr ⟨rfl, static⟩

theorem program_none (long : 4 ≤ file.length) (other : elfMagic (fileMem file) 0 ≠ elfmagic) :
    env.initrd.program path.bytes = none := by
  have word := load32_held held 0 (by omega)
  have none : env.initrd.elf path.bytes = none := by
    rw [Initrd.elf, found]
    refine if_neg fun magic => other ?_
    rw [← magic]
    exact word.symm
  rw [Initrd.program, none]
  rfl

end Found

/-- The ramdisk of the kernel is the archive at `tar`, below the end of memory. -/
structure Rootfs (env : Env) (tar len : Nat) (members : List TarMember) : Prop where
  archive : TarArchive env.initrd.bytes tar len members
  fits : tar + len ≤ 0x100000000
  tables : ∃ inodes dirents, env.initrd =
    (loadInitrd env.initrd.bytes tar len inodes dirents).initrd env.initrd.bytes members

section Rootfs

variable {env : Env} {tar len : Nat} {members : List TarMember} (h : Rootfs env tar len members)
  {path : CString} {m : TarMember}

include h

theorem Rootfs.lookup (found : (members.find? fun m => m.path = path) = some m) (nonempty : 0 < m.size) :
    ∃ i, env.initrd.lookup path.bytes = some i ∧
      StartsWith (fun j => env.initrd.bytes ((env.initrd.inode i).addr + j)) m.contents ∧
      (env.initrd.inode i).addr + m.contents.length ≤ 0x100000000 := by
  obtain ⟨inodes, dirents, tables⟩ := h.tables
  have result := @TarArchive.lookup_found _ _ _ _ inodes dirents h.archive _ h.fits _ found nonempty
  rw [tables]
  exact result

theorem Rootfs.program (found : (members.find? fun m => m.path = path) = some m)
    (exe : Executable m.contents) :
    ∃ bin, env.initrd.program path.bytes = some bin ∧
      env.initrd.segments bin = fileSegments m.contents ∧
      elfEntry env.initrd.bytes bin = elfEntry (fileMem m.contents) 0 ∧
      env.image path.bytes = some (programOf m.contents) := by
  have header := exe.header
  obtain ⟨i, searched, held, bound⟩ := h.lookup found (show 0 < m.contents.length by omega)
  have program := exe.program_found searched held bound
  refine ⟨_, program, ?_, exe.entry_held held, ?_⟩
  · rw [Initrd.segments, exe.proghdrs_held held bound]
    rfl
  · rw [Env.image, program]
    exact congrArg some (exe.image_held held bound)

/-- No program without a member, nor for a member that does not begin like one. -/
theorem Rootfs.no_program (others : ∀ m, (members.find? fun m => m.path = path) = some m →
      4 ≤ m.contents.length ∧ elfMagic (fileMem m.contents) 0 ≠ elfmagic) :
    env.initrd.program path.bytes = none := by
  cases found : members.find? fun m => m.path = path with
  | none =>
      obtain ⟨inodes, dirents, tables⟩ := h.tables
      have missing := @TarArchive.lookup_missing _ _ _ _ inodes dirents h.archive _ found
      rw [← tables] at missing
      rw [Initrd.program, Initrd.elf, missing]
      rfl
  | some m =>
      obtain ⟨long, other⟩ := others m found
      obtain ⟨i, searched, held, _⟩ := h.lookup found (show 0 < m.contents.length by omega)
      exact program_none searched held long other

theorem Rootfs.returnable {k : Kernel}
    (runnable : ∀ m, (members.find? fun m => m.path = path) = some m → Runnable m.contents) :
    k.Returnable env (.other (.execve path.bytes)) := by
  intro bin program
  cases found : members.find? fun m => m.path = path with
  | none =>
      rw [h.no_program fun m some => by rw [found] at some; cases some] at program
      cases program
  | some m =>
      rcases runnable m found with exe | ⟨long, other⟩
      · obtain ⟨bin', program', segs, _⟩ := h.program found exe
        rw [program] at program'
        cases program'
        rw [segs]
        exact ⟨exe.ok, exe.snug⟩
      · rw [h.no_program fun m' some => by rw [found] at some; cases some; exact ⟨long, other⟩] at program
        cases program

end Rootfs

/-! ## Runs -/

/-- What the running process may do: it executes programs, and files that begin like none; the
rest is as for any orderly step. -/
def Kernel.Proper (env : Env) (members : List TarMember) (k : Kernel) : UserStep → Prop
  | .call (.other (.execve path)) => ∃ c : CString, path = c.bytes ∧
      ∀ m, (members.find? fun m => m.path = c) = some m → Runnable m.contents
  | c => k.Orderly env c

def initPath : CString := ⟨pathBytes "/sbin/init", by decide⟩

section Runs

variable {env : Env} {tar len : Nat} {members : List TarMember} (h : Rootfs env tar len members)

include h

theorem Rootfs.orderly {k : Kernel} {c : UserStep} (ok : k.Proper env members c) : k.Orderly env c := by
  cases c with
  | store va byte => trivial
  | call c =>
      cases c with
      | «open» path => trivial
      | other c =>
          cases c with
          | execve path =>
              obtain ⟨c, rfl, runnable⟩ := ok
              exact h.returnable (k := k) runnable
          | _ => exact ok

theorem Rootfs.event {k k' : Kernel} {c : UserStep} (ok : k.Proper env members c) {p : Nat}
    {image : Nat → Option UInt8} (event : k.event env k' c = some (.deed p (.replace image))) :
    ∃ m ∈ members, Executable m.contents ∧ image = programOf m.contents := by
  cases c with
  | store va byte => cases event
  | call c =>
      cases c with
      | «open» path => cases event
      | other c =>
          cases c with
          | execve path =>
              obtain ⟨c, rfl, runnable⟩ := ok
              rw [Kernel.event] at event
              obtain ⟨image', some, same⟩ := Option.map_eq_some_iff.mp event
              cases same
              cases found : members.find? fun m => m.path = c with
              | none =>
                  rw [Env.image, h.no_program fun m here => by rw [found] at here; cases here] at some
                  cases some
              | some m =>
                  rcases runnable m found with exe | other
                  · obtain ⟨_, _, _, _, image⟩ := h.program found exe
                    rw [image] at some
                    cases some
                    exact ⟨m, List.mem_of_find?_eq_some found, exe, rfl⟩
                  · rw [Env.image, h.no_program fun m' here => by
                      rw [found] at here; cases here; exact other] at some
                    cases some
          | fork =>
              rw [Kernel.event] at event
              obtain ⟨_, _, same⟩ := Option.map_eq_some_iff.mp event
              cases same
          | mmap len flags fd =>
              rw [Kernel.event] at event
              split at event <;> cases event
          | yield => cases event
          | exit => cases event
          | write addr byte => cases event

end Runs

theorem Scheduled.execve_frame {init : List Block} {root : Nat} {Q : List Nat} {env : Env} {k k' : Kernel}
    (h : Scheduled init root Q k) {path : List UInt8} {bin : Nat}
    (done : sysExecve env k path = .ok k') (file : env.initrd.program path = some bin) :
    (k'.frames k.proc.tf).eip = elfEntry env.initrd.bytes bin ∧ (k'.frames k.proc.tf).esp = kernelOffset := by
  rw [sysExecve] at done
  obtain ⟨⟨r, k₁⟩, loaded, after⟩ := bind_eq_ok.mp done
  rcases loadelf_cases loaded with ⟨rfl, none, _⟩ |
    ⟨bin', cr3, entry, base, sz, regions, s, file', image, rfl, rfl⟩
  · rw [file] at none
    cases none
  · rw [file] at file'
    cases file'
    obtain ⟨p, yielded⟩ := (h.quiet (h.reloaded loaded)).1.toQueued.yielded after
    obtain ⟨_, _, _, _, _, _, _, _, _, _, _, _, _, _, _, rfl, _⟩ := loadImage_stages image
    rw [yielded.same]
    simp only [Kernel.setProc, Kernel.setMemtab, Kernel.setFrame, Function.update_self, and_self]

/-- The processes of a run live on the programs in the archive: what each finds is made by the
deeds in the log, which begins with `/sbin/init`; and who executes a path gets the program in the
first member with that path, starts at its entry with an empty stack and changes nothing for the
others.  Without such a program everybody keeps what he has. -/
structure Journal.OfArchive (env : Env) (members : List TarMember) (root : Nat) (m₁ : TarMember)
    (t : Journal) : Prop where
  spaces : t.kernel.spaces = replay (fun _ _ => none) t.log
  start : ∃ later, t.log = later ++ [.deed root (.replace (programOf m₁.contents))]
  images : ∀ p image, .deed p (.replace image) ∈ t.log →
    ∃ m ∈ members, Executable m.contents ∧ image = programOf m.contents
  executes : ∀ (path : CString) (t' : Journal) (m : TarMember),
    t.step env (.call (.other (.execve path.bytes))) = .ok t' →
    (members.find? fun m => m.path = path) = some m → Executable m.contents →
      t'.kernel.spaces = Function.update t.kernel.spaces t.kernel.curthread (programOf m.contents) ∧
        (t'.kernel.frames t.kernel.proc.tf).eip = elfEntry (fileMem m.contents) 0 ∧
        (t'.kernel.frames t.kernel.proc.tf).esp = kernelOffset
  refuses : ∀ (path : CString) (t' : Journal),
    t.step env (.call (.other (.execve path.bytes))) = .ok t' →
    (∀ m, (members.find? fun m => m.path = path) = some m →
      4 ≤ m.contents.length ∧ elfMagic (fileMem m.contents) 0 ≠ elfmagic) →
      t'.kernel.spaces = t.kernel.spaces

section Archived

variable {init : List Block} {env : Env} {k₀ k₁ k₂ : Kernel} {entry tar len : Nat}
  {members : List TarMember} {t t' : Journal} {m₁ : TarMember} (rootfs : Rootfs env tar len members)

include rootfs

theorem Rootfs.init_ok (first : (members.find? fun m => m.path = initPath) = some m₁)
    (exe : Executable m₁.contents) :
    (∀ bin, env.initrd.program (pathBytes "/sbin/init") = some bin → SegsOk (env.initrd.segments bin)) ∧
      SnugInit env := by
  obtain ⟨bin₁, file₁, segs₁, _, _⟩ := rootfs.program first exe
  constructor
  · intro bin file
    cases (file₁.symm.trans file)
    exact segs₁ ▸ exe.ok
  · intro bin file
    cases (file₁.symm.trans file)
    exact segs₁ ▸ exe.snug

theorem Rootfs.reached (atBoot : AtBoot init k₀)
    (fresh : ∀ i, 1 ≤ i → i ≤ maxprocs → (k₀.memtab i).regions = [])
    (first : (members.find? fun m => m.path = initPath) = some m₁) (exe : Executable m₁.contents)
    (booted : initsys env k₀ = .ok k₁) (sched : initSched k₁ entry = .ok k₂)
    (run : Runs (Journal.step env) (fun t c => t.kernel.Proper env members c ∧ t.kernel.Steady env c)
      (.start env k₂) t) : Reached init env t := by
  obtain ⟨ok, snug⟩ := rootfs.init_ok first exe
  exact ⟨k₀, k₁, k₂, entry, atBoot, ⟨fresh, ok⟩, snug, booted, sched,
    run.mono fun t c ok => ⟨rootfs.orderly ok.1, ok.2⟩⟩

/-- The log begins with the first program, and every image in it is a program of the archive. -/
theorem Rootfs.logged (first : (members.find? fun m => m.path = initPath) = some m₁)
    (exe : Executable m₁.contents)
    (run : Runs (Journal.step env) (fun t c => t.kernel.Proper env members c) (.start env k₂) t) :
    (∃ later, t.log = later ++ [.deed k₂.curthread (.replace (programOf m₁.contents))]) ∧
      ∀ p image, .deed p (.replace image) ∈ t.log →
        ∃ m ∈ members, Executable m.contents ∧ image = programOf m.contents := by
  have begun : (Journal.start env k₂).log = [.deed k₂.curthread (.replace (programOf m₁.contents))] := by
    obtain ⟨_, _, _, _, image₁⟩ := rootfs.program first exe
    rw [Journal.start]
    change ((env.image initPath.bytes).map _).toList = _
    rw [image₁]
    rfl
  refine run.invariant (fun s =>
    (∃ later, s.log = later ++ [.deed k₂.curthread (.replace (programOf m₁.contents))]) ∧
      ∀ p image, .deed p (.replace image) ∈ s.log →
        ∃ m ∈ members, Executable m.contents ∧ image = programOf m.contents)
    ⟨⟨[], begun⟩, fun p image mem => ?_⟩ fun s c s' inv ok done => ?_
  · rw [begun] at mem
    cases List.mem_singleton.mp mem
    exact ⟨m₁, List.mem_of_find?_eq_some first, exe, rfl⟩
  · obtain ⟨⟨later, whole⟩, images⟩ := inv
    obtain ⟨k, stepped, result⟩ := bind_eq_ok.mp done
    cases result
    refine ⟨⟨(s.kernel.event env k c).toList ++ later, ?_⟩, fun p image mem => ?_⟩
    · rw [whole, List.append_assoc]
    · rcases List.mem_append.mp mem with new | old
      · exact rootfs.event ok (Option.mem_toList.mp new)
      · exact images p image old

theorem Rootfs.executes (faithful : t.Faithful init) {path : CString} {m : TarMember}
    (done : t.step env (.call (.other (.execve path.bytes))) = .ok t')
    (found : (members.find? fun m => m.path = path) = some m) (exe : Executable m.contents) :
    t'.kernel.spaces = Function.update t.kernel.spaces t.kernel.curthread (programOf m.contents) ∧
      (t'.kernel.frames t.kernel.proc.tf).eip = elfEntry (fileMem m.contents) 0 ∧
      (t'.kernel.frames t.kernel.proc.tf).esp = kernelOffset := by
  obtain ⟨k', stepped, result⟩ := bind_eq_ok.mp done
  cases result
  obtain ⟨bin, file, _, entry', image⟩ := rootfs.program found exe
  have only : ∀ m', (members.find? fun m => m.path = path) = some m' → Runnable m'.contents := by
    intro m' found'
    cases (found.symm.trans found')
    exact Or.inl exe
  have moved := (faithful.keeps.step (c := .call (.other (.execve path.bytes)))
    (rootfs.returnable (k := t.kernel) only) stepped).1
  obtain ⟨root, Q, scheduled⟩ := faithful.keeps.sched
  have frame := scheduled.execve_frame stepped file
  have spaces := moved.spaces
  rw [Kernel.event, image] at spaces
  exact ⟨spaces, frame.1.trans entry', frame.2⟩

theorem Rootfs.refuses (faithful : t.Faithful init) {path : CString}
    (done : t.step env (.call (.other (.execve path.bytes))) = .ok t')
    (others : ∀ m, (members.find? fun m => m.path = path) = some m →
      4 ≤ m.contents.length ∧ elfMagic (fileMem m.contents) 0 ≠ elfmagic) :
    t'.kernel.spaces = t.kernel.spaces := by
  obtain ⟨k', stepped, result⟩ := bind_eq_ok.mp done
  cases result
  have ok : t.kernel.Returnable env (.other (.execve path.bytes)) :=
    rootfs.returnable fun m found => Or.inr (others m found)
  have moved := (faithful.keeps.step (c := .call (.other (.execve path.bytes))) ok stepped).1
  have spaces := moved.spaces
  rw [Kernel.event, Env.image, rootfs.no_program others] at spaces
  exact spaces

theorem Rootfs.ofArchive (faithful : t.Faithful init)
    (first : (members.find? fun m => m.path = initPath) = some m₁) (exe : Executable m₁.contents)
    (run : Runs (Journal.step env) (fun t c => t.kernel.Proper env members c) (.start env k₂) t) :
    t.OfArchive env members k₂.curthread m₁ := by
  obtain ⟨start, images⟩ := rootfs.logged first exe run
  exact ⟨faithful.spaces, start, images, fun path t' m done found exe' =>
    rootfs.executes faithful done found exe', fun path t' done others =>
    rootfs.refuses faithful done others⟩

end Archived

/-! ## A small archive -/

def ustarHeader (path size major : List UInt8) (i : Nat) : UInt8 :=
  if i < 100 then (0x2E :: path).getD i 0
  else if 124 ≤ i ∧ i < 135 then size.getD (i - 124) 0
  else if 257 ≤ i ∧ i < 265 then ustar.getD (i - 257) 0
  else if 329 ≤ i ∧ i < 335 then major.getD (i - 329) 0
  else 0

def countFile : List UInt8 := (List.range 92).map fun i =>
  if i < 84 then oneSegment 0 alignedSegment i else UInt8.ofNat (i - 83)

def countMembers : List TarMember :=
  [⟨initPath, countFile⟩, ⟨⟨pathBytes "/dev/console", by decide⟩, []⟩, ⟨⟨pathBytes "/dev/fb", by decide⟩, []⟩]

def countTar : Mem := fun x =>
  if x < 0x80300000 then 0
  else if x < 0x80300200 then
    ustarHeader (pathBytes "/sbin/init") (pathBytes "00000000134") (pathBytes "000000") (x - 0x80300000)
  else if x < 0x80300400 then countFile.getD (x - 0x80300200) 0
  else if x < 0x80300600 then
    ustarHeader (pathBytes "/dev/console") (pathBytes "00000000000") (pathBytes "000000") (x - 0x80300400)
  else if x < 0x80300800 then
    ustarHeader (pathBytes "/dev/fb") (pathBytes "00000000000") (pathBytes "000001") (x - 0x80300600)
  else 0

theorem countFile_executable : Executable countFile := by
  have segs : fileSegments countFile = [alignedSegment] := by decide +kernel
  refine ⟨by decide +kernel, by decide +kernel, by decide +kernel, by decide +kernel, ?_, ?_, ?_⟩
  · rw [segs]
    decide +kernel
  · rw [segs]
    exact segsOk_singleton (by decide) (by decide)
  · rw [segs]
    decide

theorem ustarHeader_member {bytes : Mem} {a : Nat} {m : TarMember} (size major : List UInt8)
    (header : ∀ i < 512, bytes (a + i) = ustarHeader m.path.bytes size major i)
    (short : 1 + m.path.bytes.length + 1 ≤ 100) (eleven : size.length = 11) (octal : Octal size)
    (value : octalValue size = m.size) (small : m.size < 0x80000000)
    (contents : StartsWith (fun j => bytes (a + 512 + j)) m.contents) : MemberAt bytes a m := by
  have name : ∀ i < 100, bytes (a + i) = (0x2E :: m.path.bytes).getD i 0 := by
    intro i lt
    rw [header i (by omega), ustarHeader, if_pos lt]
  refine ⟨fun i lt => ?_, name 0 (by decide), ⟨fun i lt => ?_, ?_⟩, short,
    ⟨size, eleven, octal, fun i lt => ?_, value⟩, small, contents⟩
  · have few : i < 8 := lt
    simp only
    rw [Nat.add_assoc, header _ (by omega), ustarHeader, if_neg (by omega), if_neg (by omega),
      if_pos (by omega), Nat.add_sub_cancel_left, List.getD_eq_getElem _ _ lt]
    rfl
  · simp only
    rw [Nat.add_assoc, Nat.add_comm 1 i, name _ (by omega), List.getD_cons_succ, List.getD_eq_getElem _ _ lt]
    rfl
  · simp only
    rw [Nat.add_assoc, Nat.add_comm 1, name _ (by omega), List.getD_cons_succ]
    exact List.getD_eq_default _ _ (Nat.le_refl _)
  · simp only
    rw [Nat.add_assoc, header _ (by omega), ustarHeader, if_neg (by omega), if_pos (by omega),
      Nat.add_sub_cancel_left, List.getD_eq_getElem _ _ lt]
    rfl

theorem countTar_archive : TarArchive countTar 0x80300000 3072 countMembers := by
  have blocks : memberBlocks (countMembers.map TarMember.size) = 4 := by decide +kernel
  refine ⟨by decide, ⟨2, by rw [blocks]⟩, fun j lt lt' => ?_, by decide +kernel, fun j lo hi => ?_⟩
  · have small : j < 3 := lt
    have three : j = 0 ∨ j = 1 ∨ j = 2 := by omega
    rcases three with rfl | rfl | rfl
    · change MemberAt countTar 0x80300000 ⟨initPath, countFile⟩
      refine ustarHeader_member (pathBytes "00000000134") (pathBytes "000000") (fun i lt => ?_) (by decide)
        (by decide) (by unfold Octal; decide +kernel) (by decide +kernel) (by decide +kernel) fun j lt => ?_
      · rw [countTar, if_neg (by omega), if_pos (by omega), Nat.add_sub_cancel_left]
        rfl
      · have few : j < 92 := lt
        simp only [countTar]
        rw [if_neg (by omega), if_neg (by omega), if_pos (by omega), Nat.add_sub_cancel_left]
        exact List.getD_eq_getElem _ _ lt
    · change MemberAt countTar 0x80300400 ⟨⟨pathBytes "/dev/console", by decide⟩, []⟩
      refine ustarHeader_member (pathBytes "00000000000") (pathBytes "000000") (fun i lt => ?_) (by decide)
        (by decide) (by unfold Octal; decide +kernel) (by decide +kernel) (by decide)
        fun j lt => absurd lt (Nat.not_lt_zero j)
      rw [countTar, if_neg (by omega), if_neg (by omega), if_neg (by omega), if_pos (by omega),
        Nat.add_sub_cancel_left]
    · change MemberAt countTar 0x80300600 ⟨⟨pathBytes "/dev/fb", by decide⟩, []⟩
      refine ustarHeader_member (pathBytes "00000000000") (pathBytes "000001") (fun i lt => ?_) (by decide)
        (by decide) (by unfold Octal; decide +kernel) (by decide +kernel) (by decide)
        fun j lt => absurd lt (Nat.not_lt_zero j)
      rw [countTar, if_neg (by omega), if_neg (by omega), if_neg (by omega), if_neg (by omega),
        if_pos (by omega), Nat.add_sub_cancel_left]
  · rw [blocks] at lo
    have two : j = 4 ∨ j = 5 := by omega
    rcases two with rfl | rfl
    · decide +kernel
    · decide +kernel

end Trunix
