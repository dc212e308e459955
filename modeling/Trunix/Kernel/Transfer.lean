import Trunix.Drivers.Console
import Trunix.Kernel.Proc

/-!
# The transfers of the drivers

`read` and `write` of `drivers/video/console/console.c` and `drivers/video/fbdev/fbdev.c`,
on the memory that the current directory maps.  Neither driver looks at the buffer or at its
length.  A transfer that would write to the half of the kernel, or next to the framebuffer or
the font, ends the run of the model: what lies there is not one of its bytes.
-/

set_option autoImplicit false

namespace Trunix

open Trunix.Lib

/-- What the boot loader says of the framebuffer besides its address, and the font. -/
structure Video where
  font : Font
  pitch : Nat
  width : Nat
  height : Nat
  bpp : Nat

def Video.fbdev (v : Video) (addr : Nat) : Fbdev := ⟨addr, v.pitch, v.width, v.height, v.bpp⟩

instance {fb : Fbdev} : DecidablePred (Access.Inside fb)
  | .font c y => inferInstanceAs (Decidable (0 ≤ c ∧ c < glyphs ∧ y < fontH))
  | .pixel addr _ => inferInstanceAs (Decidable (fb.addr ≤ addr ∧ addr < fb.addr + fb.pitch * fb.height))

/-! ## Through the current directory -/

def Kernel.translate (k : Kernel) (va : Nat) : Except Halt Nat :=
  match walk k.store.mem (p2v k.cr3) (u32 va) with
  | none => .error .fault
  | some pa => .ok (p2v pa)

def Kernel.putByte (k : Kernel) (va : Nat) (b : UInt8) : Except Halt Kernel := do
  let a ← k.translate va
  return { k with store := { k.store with mem := Function.update k.store.mem a b } }

/-- `rep movsb`: one byte after the other. -/
def Kernel.memcpy (k : Kernel) (dst src n : Nat) : Except Halt Kernel :=
  (List.range n).foldlM (fun k i => do
    let a ← k.translate (src + i)
    k.putByte (dst + i) (k.store.mem a)) k

def Kernel.draw (k : Kernel) : Access → Except Halt Kernel
  | .font _ _ => .ok k
  | .pixel addr value =>
      (List.range 4).foldlM (fun k i => k.putByte (addr + i) (UInt8.ofNat (value / 256 ^ i))) k

/-! ## The drivers -/

structure Screened where
  kernel : Kernel
  cursor : Cursor

def fbconRead (s : Screened) (_f _buf _sz : Nat) : Except Halt Screened := .ok s

def Screened.fbconByte (v : Video) (fb : Fbdev) (buf : Nat) (s : Screened) (i : Nat) :
    Except Halt Screened := do
  let a ← s.kernel.translate (buf + i)
  let (c, drawn) := Trunix.fbconByte v.font fb s.cursor (s.kernel.store.mem a)
  if ∀ access ∈ drawn, access.Inside fb then do
    let k ← drawn.foldlM Kernel.draw s.kernel
    return ⟨k, c⟩
  else .error .bounds

def Screened.fbconWrite (v : Video) (env : Env) (s : Screened) (f buf sz : Nat) : Except Halt Screened :=
  if (s.kernel.files f).data = 0 then .ok s
  else (List.range sz).foldlM (Screened.fbconByte v (v.fbdev env.framebuffer) buf) s

def fbdevRead (s : Screened) (f buf sz : Nat) : Except Halt Screened :=
  let data := (s.kernel.files f).data
  if data = 0 then .ok s
  else if kernelOffset < buf + sz then .error .bounds
  else do
    let k ← s.kernel.memcpy buf (s.kernel.fbdevs data) sz
    return { s with kernel := k }

def fbdevWrite (v : Video) (s : Screened) (f buf sz : Nat) : Except Halt Screened :=
  let data := (s.kernel.files f).data
  if data = 0 then .ok s
  else if v.pitch * v.height < sz then .error .bounds
  else do
    let k ← s.kernel.memcpy (s.kernel.fbdevs data) buf sz
    return { s with kernel := k }

def cdevRead (s : Screened) : Nat → Nat → Nat → Nat → Except Halt Screened
  | 0 => fbconRead s
  | 1 => fbdevRead s
  | _ => fun _ _ _ => .error .bounds

def cdevWrite (v : Video) (env : Env) (s : Screened) : Nat → Nat → Nat → Nat → Except Halt Screened
  | 0 => s.fbconWrite v env
  | 1 => fbdevWrite v s
  | _ => fun _ _ _ => .error .bounds

/-! ## What a transfer keeps -/

def Kernel.Written (k k' : Kernel) : Prop :=
  k' = { k with store := { k.store with mem := k'.store.mem } }

theorem Kernel.Written.refl (k : Kernel) : k.Written k := rfl

theorem Kernel.Written.trans {k₁ k₂ k₃ : Kernel} (h : k₁.Written k₂) (h' : k₂.Written k₃) :
    k₁.Written k₃ := by
  rw [Written] at h h' ⊢
  rw [h', h]

section Written

variable {k k' : Kernel} {s s' : Screened}

theorem Kernel.Written.foldlM {α σ : Type} (kernel : σ → Kernel) {step : σ → α → Except Halt σ}
    (round : ∀ s a s', step s a = .ok s' → (kernel s).Written (kernel s')) {ops : List α} {s s' : σ}
    (done : ops.foldlM step s = .ok s') : (kernel s).Written (kernel s') := by
  have run : Runs step (fun _ _ => True) s s' := .of_foldlM (fun _ _ _ => trivial) done
  refine run.invariant (fun t => (kernel s).Written (kernel t)) (.refl _) ?_
  intro t a t' before _ done
  exact before.trans (round t a t' done)

theorem Kernel.putByte_written {va : Nat} {b : UInt8} (done : k.putByte va b = .ok k') : k.Written k' := by
  obtain ⟨_, _, result⟩ := bind_eq_ok.mp done
  cases result
  rfl

theorem Kernel.memcpy_written {dst src n : Nat} (done : k.memcpy dst src n = .ok k') : k.Written k' := by
  refine Written.foldlM id (fun k i k' done => ?_) done
  obtain ⟨_, _, put⟩ := bind_eq_ok.mp done
  exact putByte_written put

theorem Kernel.draw_written {a : Access} (done : k.draw a = .ok k') : k.Written k' := by
  cases a with
  | font c y =>
      cases done
      exact .refl k
  | pixel addr value => exact Written.foldlM id (fun _ _ _ => putByte_written) done

theorem Screened.fbconByte_written {v : Video} {fb : Fbdev} {buf i : Nat}
    (done : s.fbconByte v fb buf i = .ok s') : s.kernel.Written s'.kernel := by
  obtain ⟨_, _, afterByte⟩ := bind_eq_ok.mp done
  simp only at afterByte
  split at afterByte
  · obtain ⟨_, drawn, result⟩ := bind_eq_ok.mp afterByte
    cases result
    exact Kernel.Written.foldlM id (fun _ _ _ => Kernel.draw_written) drawn
  · cases afterByte

theorem cdevRead_written {major f buf sz : Nat} (done : cdevRead s major f buf sz = .ok s') :
    s.kernel.Written s'.kernel := by
  rcases major with _ | _ | major
  · cases done
    exact .refl _
  · rw [cdevRead, fbdevRead] at done
    split at done
    · cases done
      exact .refl _
    · split at done
      · cases done
      · obtain ⟨_, copied, result⟩ := bind_eq_ok.mp done
        cases result
        exact Kernel.memcpy_written copied
  · cases done

theorem cdevWrite_written {v : Video} {env : Env} {major f buf sz : Nat}
    (done : cdevWrite v env s major f buf sz = .ok s') : s.kernel.Written s'.kernel := by
  rcases major with _ | _ | major
  · rw [cdevWrite, Screened.fbconWrite] at done
    split at done
    · cases done
      exact .refl _
    · exact Kernel.Written.foldlM Screened.kernel (fun _ _ _ => Screened.fbconByte_written) done
  · rw [cdevWrite, fbdevWrite] at done
    split at done
    · cases done
      exact .refl _
    · split at done
      · cases done
      · obtain ⟨_, copied, result⟩ := bind_eq_ok.mp done
        cases result
        exact Kernel.memcpy_written copied
  · cases done

end Written

end Trunix
